import Mathlib.Data.Nat.Basic
import Mathlib.Tactic.Ring

/-!
Little-endian byte strings of fixed length and the numbers they denote.

`leBytes k v` writes the low `k` bytes of `v`, least significant first, and
`ofLE` reads a byte string back. `ofLE_leBytes` is the round trip: the number
read is `v` modulo `256 ^ k`, so nothing is lost when `v` fits. `leBytes_ofLE`
is the one the other way.
-/

namespace LittleEndian

/-- The low `k` bytes of `v`, least significant first. -/
def leBytes : Nat → Nat → List UInt8
  | 0, _ => []
  | k + 1, v => UInt8.ofNat v :: leBytes k (v / 256)

/-- The number a little-endian byte string denotes. -/
def ofLE : List UInt8 → Nat
  | [] => 0
  | b :: bs => b.toNat + 256 * ofLE bs

@[simp] theorem length_leBytes (k v : Nat) : (leBytes k v).length = k := by
  induction k generalizing v with
  | zero => rfl
  | succ k ih => simp [leBytes, ih]

/-- Each byte by its place. -/
theorem leBytes_eq_map (k v : Nat) :
    leBytes k v = (List.range k).map fun i => UInt8.ofNat (v / 256 ^ i) := by
  induction k generalizing v with
  | zero => rfl
  | succ k ih =>
      rw [leBytes, ih, List.range_succ_eq_map, List.map_cons, List.map_map, Nat.pow_zero,
        Nat.div_one]
      refine congrArg _ (List.map_congr_left fun i _ => ?_)
      rw [Function.comp_apply, Nat.div_div_eq_div_mul, Nat.pow_succ, Nat.mul_comm]

/-- Reading back what was written loses only what did not fit. -/
theorem ofLE_leBytes (k v : Nat) : ofLE (leBytes k v) = v % 256 ^ k := by
  induction k generalizing v with
  | zero => simp [leBytes, ofLE, Nat.mod_one]
  | succ k ih =>
      rw [leBytes, ofLE, ih, Nat.pow_succ, Nat.mul_comm (256 ^ k), Nat.mod_mul]
      simp

theorem ofLE_leBytes_of_lt {k v : Nat} (fits : v < 256 ^ k) : ofLE (leBytes k v) = v := by
  rw [ofLE_leBytes, Nat.mod_eq_of_lt fits]

/-- Writing what was read gives the bytes back. -/
theorem leBytes_ofLE : ∀ l : List UInt8, leBytes l.length (ofLE l) = l := by
  intro l
  induction l with
  | nil => rfl
  | cons b l ih =>
      have low : (b.toNat + 256 * ofLE l) % 256 = b.toNat := by
        have := b.toNat_lt
        omega
      have high : (b.toNat + 256 * ofLE l) / 256 = ofLE l := by
        have := b.toNat_lt
        omega
      have byte : UInt8.ofNat (b.toNat + 256 * ofLE l) = b := by
        rw [← UInt8.toNat_inj, UInt8.toNat_ofNat', low]
      rw [List.length_cons, ofLE, leBytes, high, ih, byte]

theorem ofLE_lt : ∀ l : List UInt8, ofLE l < 256 ^ l.length := by
  intro l
  induction l with
  | nil => exact Nat.one_pos
  | cons b l ih =>
      have := b.toNat_lt
      rw [ofLE, List.length_cons, Nat.pow_succ]
      omega

theorem ofLE_append (l m : List UInt8) : ofLE (l ++ m) = ofLE l + 256 ^ l.length * ofLE m := by
  induction l with
  | nil => simp [ofLE]
  | cons b l ih =>
      rw [List.cons_append, ofLE, ih, ofLE, List.length_cons, Nat.pow_succ]
      ring

/-- The last byte decides, and where it does not the ones before it do. -/
theorem ofLE_concat_lt_iff {l m : List UInt8} (length : l.length = m.length) (a b : UInt8) :
    ofLE (l ++ [a]) < ofLE (m ++ [b]) ↔ a < b ∨ a = b ∧ ofLE l < ofLE m := by
  have low := ofLE_lt l
  have low' := ofLE_lt m
  rw [length] at low
  rw [ofLE_append, ofLE_append, length, UInt8.lt_iff_toNat_lt, ← UInt8.toNat_inj]
  simp only [ofLE, Nat.mul_zero, Nat.add_zero]
  generalize 256 ^ m.length = k at *
  constructor
  · intro less
    rcases Nat.lt_trichotomy a.toNat b.toNat with below | same | above
    · exact .inl below
    · rw [same] at less
      exact .inr ⟨same, by omega⟩
    · have := Nat.mul_le_mul_left k (Nat.succ_le_of_lt above)
      rw [Nat.mul_succ] at this
      omega
  · rintro (below | ⟨same, less⟩)
    · have := Nat.mul_le_mul_left k (Nat.succ_le_of_lt below)
      rw [Nat.mul_succ] at this
      omega
    · rw [same]
      omega

/-- The bytes at the front, read and written again. -/
theorem leBytes_ofLE_take {n : Nat} {l : List UInt8} (long : n ≤ l.length) :
    ofLE (l.take n) < 256 ^ n ∧ leBytes n (ofLE (l.take n)) = l.take n := by
  have length : (l.take n).length = n := by
    rw [List.length_take]
    omega
  have small := ofLE_lt (l.take n)
  have whole := leBytes_ofLE (l.take n)
  rw [length] at small whole
  exact ⟨small, whole⟩

/-! ### Bytes shifted together -/

/-- A number put above another one is added. -/
theorem or_shiftLeft {a b i : Nat} (small : a < 2 ^ i) : a ||| b <<< i = a + 2 ^ i * b := by
  rw [Nat.or_comm, ← Nat.shiftLeft_add_eq_or_of_lt small, Nat.shiftLeft_eq, Nat.mul_comm,
    Nat.add_comm]

theorem ofLE_two (b0 b1 : UInt8) : b0.toNat ||| b1.toNat <<< 8 = ofLE [b0, b1] := by
  rw [or_shiftLeft b0.toNat_lt]
  rfl

theorem ofLE_four (b0 b1 b2 b3 : UInt8) :
    b0.toNat ||| b1.toNat <<< 8 ||| b2.toNat <<< 16 ||| b3.toNat <<< 24 = ofLE [b0, b1, b2, b3] := by
  have first := b0.toNat_lt
  have second := b1.toNat_lt
  have third := b2.toNat_lt
  have two : b0.toNat + 2 ^ 8 * b1.toNat < 2 ^ 16 := by omega
  have three : b0.toNat + 2 ^ 8 * b1.toNat + 2 ^ 16 * b2.toNat < 2 ^ 24 := by omega
  rw [or_shiftLeft first, or_shiftLeft two, or_shiftLeft three]
  simp only [ofLE]
  omega

end LittleEndian
