import Mathlib.Data.List.Basic
import Mathlib.Data.List.GetD
import QmaskCore.Lib.Limbs
import QmaskCore.Lib.LittleEndian

/-!
Words written most significant byte first.

`word` reads four bytes of a buffer, `bytes` writes them, and `word_flatMap`
reads a word of a string of words back. `ofBE` is the number a byte string
spells; `ofBE_snoc_word` takes its last word off, and `value_words` puts the
number together from limbs. `memcmp_spec` says that comparing the bytes compares
the numbers.
-/

namespace BigEndian

open LittleEndian

/-- The word at an offset of a buffer. -/
def word (buf : List UInt8) (o : Nat) : UInt32 :=
  (buf.getD o 0).toUInt32 <<< 24 ||| (buf.getD (o + 1) 0).toUInt32 <<< 16 |||
    (buf.getD (o + 2) 0).toUInt32 <<< 8 ||| (buf.getD (o + 3) 0).toUInt32

def bytes (w : UInt32) : List UInt8 :=
  [(w >>> 24).toUInt8, (w >>> 16).toUInt8, (w >>> 8).toUInt8, w.toUInt8]

/-- The number a byte string spells. -/
def ofBE (l : List UInt8) : Nat := ofLE l.reverse

@[simp] theorem length_bytes (w : UInt32) : (bytes w).length = 4 := rfl

/-- A byte put beside those above it. -/
theorem shift_or (high : Nat) (b : UInt8) (n : Nat) :
    2 ^ (n + 8) * high ||| 2 ^ n * b.toNat = 2 ^ n * (256 * high + b.toNat) := by
  have fits : 2 ^ n * b.toNat < 2 ^ (n + 8) := by
    rw [Nat.pow_add]
    exact Nat.mul_lt_mul_of_pos_left b.toNat_lt (Nat.two_pow_pos n)
  rw [← Nat.two_pow_add_eq_or_of_lt fits, Nat.pow_add]
  ring

theorem toNat_shiftLeft_byte (b : UInt8) {n : Nat} (fits : n ≤ 24) :
    (b.toUInt32 <<< UInt32.ofNat n).toNat = 2 ^ n * b.toNat := by
  have small := b.toNat_lt
  have room : b.toNat * 2 ^ n < 2 ^ 32 :=
    calc b.toNat * 2 ^ n < 2 ^ 8 * 2 ^ n := Nat.mul_lt_mul_of_pos_right small (Nat.two_pow_pos n)
      _ ≤ 2 ^ 8 * 2 ^ 24 := Nat.mul_le_mul_left _ (Nat.pow_le_pow_right (by decide) fits)
  rw [UInt32.toNat_shiftLeft, UInt8.toNat_toUInt32, UInt32.toNat_ofNat',
    Nat.mod_eq_of_lt (by omega : n < 2 ^ 32), Nat.mod_eq_of_lt (by omega : n < 32),
    Nat.shiftLeft_eq, Nat.mod_eq_of_lt room, Nat.mul_comm]

theorem toNat_word (buf : List UInt8) (o : Nat) : (word buf o).toNat =
    256 * (256 * (256 * (buf.getD o 0).toNat + (buf.getD (o + 1) 0).toNat) +
      (buf.getD (o + 2) 0).toNat) + (buf.getD (o + 3) 0).toNat := by
  generalize at0 : buf.getD o 0 = a
  generalize at1 : buf.getD (o + 1) 0 = b
  generalize at2 : buf.getD (o + 2) 0 = c
  generalize at3 : buf.getD (o + 3) 0 = d
  have last : d.toUInt32.toNat = 2 ^ 0 * d.toNat := by simp
  rw [word, at0, at1, at2, at3, UInt32.toNat_or, UInt32.toNat_or, UInt32.toNat_or, last]
  have first := toNat_shiftLeft_byte a (n := 24) le_rfl
  have second := toNat_shiftLeft_byte b (n := 16) (by decide)
  have third := toNat_shiftLeft_byte c (n := 8) (by decide)
  rw [show (24 : UInt32) = UInt32.ofNat 24 from rfl, first,
    show (16 : UInt32) = UInt32.ofNat 16 from rfl, second,
    show (8 : UInt32) = UInt32.ofNat 8 from rfl, third, shift_or, shift_or, shift_or,
    Nat.pow_zero, Nat.one_mul]

/-- Only the four bytes at the offset count. -/
theorem word_append (head buf : List UInt8) (o : Nat) :
    word (head ++ buf) (head.length + o) = word buf o := by
  have skip (i : Nat) : (head ++ buf).getD (head.length + i) 0 = buf.getD i 0 := by
    rw [List.getD_append_right _ _ _ _ (Nat.le_add_right _ _), Nat.add_sub_cancel_left]
  simp only [word, Nat.add_assoc, skip]

theorem word_append_left {head : List UInt8} {o : Nat} (inside : o + 4 ≤ head.length)
    (rest : List UInt8) : word (head ++ rest) o = word head o := by
  rw [word, word, List.getD_append _ _ _ _ (by omega), List.getD_append _ _ _ _ (by omega),
    List.getD_append _ _ _ _ (by omega), List.getD_append _ _ _ _ (by omega)]

/-- A word that was written is read back. -/
@[simp] theorem word_bytes (w : UInt32) (rest : List UInt8) : word (bytes w ++ rest) 0 = w := by
  rw [← UInt32.toNat_inj, toNat_word]
  simp only [bytes, List.cons_append, List.getD_cons_zero, List.getD_cons_succ, Nat.zero_add,
    UInt32.toNat_toUInt8, UInt32.toNat_shiftRight, Nat.shiftRight_eq_div_pow, UInt32.reduceToNat,
    Nat.reduceMod, Nat.reducePow]
  have fits := w.toNat_lt
  omega

/-- The words of a string of words. -/
theorem word_flatMap (ws : List UInt32) (i : Nat) :
    word (ws.flatMap bytes) (4 * i) = ws.getD i 0 := by
  induction ws generalizing i with
  | nil => simp [word]
  | cons w ws ih =>
      rw [List.flatMap_cons]
      cases i with
      | zero => exact word_bytes w _
      | succ i =>
          have next : 4 * (i + 1) = (bytes w).length + 4 * i := by
            rw [length_bytes]
            omega
          rw [next, word_append, ih, List.getD_cons_succ]

/-- The last word of a string spells the low part of its number. -/
theorem ofBE_snoc_word {head tail : List UInt8} (four : tail.length = 4) :
    ofBE (head ++ tail) = (word tail 0).toNat + 2 ^ 32 * ofBE head := by
  obtain ⟨a, b, c, d, rfl⟩ := List.length_eq_four.mp four
  rw [toNat_word, ofBE, ofBE, List.reverse_append]
  simp only [List.reverse_cons, List.reverse_nil, List.nil_append, List.cons_append,
    ofLE, List.getD_cons_zero, List.getD_cons_succ, Nat.zero_add]
  ring

/-- The words of a string, the last one first, are the limbs of its number. -/
theorem value_words {w : Nat} {l : List UInt8} (length : l.length = 4 * w) :
    Limbs.value (fun i : Fin w => (word l (4 * w - 4 * (i + 1))).toBitVec) = ofBE l := by
  induction w generalizing l with
  | zero =>
      rw [List.eq_nil_of_length_eq_zero length]
      rfl
  | succ w ih =>
      have headLength : (l.take (4 * w)).length = 4 * w := by
        rw [List.length_take]
        omega
      have tailLength : (l.drop (4 * w)).length = 4 := by
        rw [List.length_drop]
        omega
      have last : word l (4 * (w + 1) - 4 * ((0 : Fin (w + 1)).val + 1)) =
          word (l.drop (4 * w)) 0 := by
        have skip := word_append (l.take (4 * w)) (l.drop (4 * w)) 0
        rw [List.take_append_drop, headLength] at skip
        exact skip
      have others (i : Fin w) : word l (4 * (w + 1) - 4 * (i.succ.val + 1)) =
          word (l.take (4 * w)) (4 * w - 4 * (i + 1)) := by
        have inside : 4 * w - 4 * (i.val + 1) + 4 ≤ (l.take (4 * w)).length := by
          rw [headLength]
          omega
        have kept := word_append_left inside (l.drop (4 * w))
        rw [List.take_append_drop] at kept
        rw [← kept, Fin.val_succ]
        congr 1
        omega
      have split : ofBE (l.take (4 * w) ++ l.drop (4 * w)) = _ := ofBE_snoc_word tailLength
      rw [List.take_append_drop] at split
      rw [Limbs.value, split, last]
      simp only [others]
      rw [ih headLength, UInt32.toNat_toBitVec]

/-! ### Comparing -/

/-- `memcmp`: the difference at the first byte that differs. -/
def memcmp : List UInt8 → List UInt8 → Int
  | a :: as, b :: bs => if a = b then memcmp as bs else (a.toNat : Int) - b.toNat
  | _, _ => 0

theorem ofBE_cons (a : UInt8) (l : List UInt8) : ofBE (a :: l) = 256 ^ l.length * a.toNat + ofBE l := by
  rw [ofBE, List.reverse_cons, ofLE_append, List.length_reverse, ← ofBE, ofLE, ofLE, Nat.mul_zero,
    Nat.add_zero, Nat.add_comm]

theorem ofBE_lt (l : List UInt8) : ofBE l < 256 ^ l.length := by
  have small := ofLE_lt l.reverse
  rwa [List.length_reverse] at small

/-- A smaller leading byte decides, whatever follows. -/
theorem ofBE_cons_lt {a b : UInt8} {as bs : List UInt8} (length : as.length = bs.length)
    (less : a.toNat < b.toNat) : ofBE (a :: as) < ofBE (b :: bs) := by
  have step := Nat.mul_le_mul_left (256 ^ bs.length) (Nat.succ_le_of_lt less)
  have low := ofBE_lt as
  rw [Nat.mul_succ] at step
  rw [ofBE_cons, ofBE_cons, length]
  rw [length] at low
  omega

theorem memcmp_spec : ∀ {as bs : List UInt8}, as.length = bs.length →
    (memcmp as bs < 0 ↔ ofBE as < ofBE bs) ∧ (0 < memcmp as bs ↔ ofBE bs < ofBE as)
  | [], [], _ => by simp [memcmp]
  | a :: as, b :: bs, length => by
      have rest : as.length = bs.length := Nat.succ_inj.mp length
      rw [memcmp]
      split
      · rename_i same
        rw [same, ofBE_cons, ofBE_cons, rest, Nat.add_lt_add_iff_left, Nat.add_lt_add_iff_left]
        exact memcmp_spec rest
      · rename_i differ
        have apart : a.toNat ≠ b.toNat := mt UInt8.toNat_inj.mp differ
        rcases Nat.lt_or_gt_of_ne apart with less | greater
        · have lt := ofBE_cons_lt rest less
          omega
        · have lt := ofBE_cons_lt rest.symm greater
          omega

end BigEndian
