import Mathlib.Data.Nat.Bitwise
import QmaskCore.Lib.BigEndian
import QmaskCore.Lib.Compact
import QmaskCore.Lib.Limbs
import QmaskCore.Primitives.Bytes

/-!
`arith_uint256`: targets and their compact form.

`setCompact` and `getCompact` work on the limbs; `value_setCompact` and
`toNat_getCompact` say what they compute. `compact_exact` draws the conclusion:
what a compact form keeps of a number, that it is written the same again, and
that it keeps the order. `value_arithFromBytes32` and `toNat_arithToBytes32`
are the way from and to the arrays that hold hashes.
-/

namespace QmaskCore

abbrev ArithUint256 := Limbs 8

namespace ArithUint256

/-- The target, and whether the form is negative or too large. -/
def setCompact (nCompact : UInt32) : ArithUint256 × Bool × Bool :=
  let nSize := (nCompact >>> 24).toNat
  let nWord := nCompact &&& 0x007fffff
  let nWord := if nSize ≤ 3 then nWord >>> UInt32.ofNat (8 * (3 - nSize)) else nWord
  let word : ArithUint256 := .ofWord (nWord.toBitVec.setWidth 64)
  let target := if nSize ≤ 3 then word else word.shiftLeft (8 * (nSize - 3))
  (target, nWord ≠ 0 && nCompact &&& 0x00800000 ≠ 0,
    nWord ≠ 0 && (34 < nSize || (0xff < nWord && 33 < nSize) || (0xffff < nWord && 32 < nSize)))

def getCompact (a : ArithUint256) (fNegative : Bool) : UInt32 :=
  let nSize := (a.bits + 7) / 8
  let nCompact : UInt32 := .ofBitVec <|
    if nSize ≤ 3 then (a.low64 <<< (8 * (3 - nSize))).setWidth 32
    else (a.shiftRight (8 * (nSize - 3))).low64.setWidth 32
  let signed : Bool := nCompact &&& 0x00800000 ≠ 0
  -- the sign bit is taken, so the mantissa gives up its last byte
  let nSize := if signed then nSize + 1 else nSize
  let nCompact := if signed then nCompact >>> 8 else nCompact
  let nCompact := nCompact ||| UInt32.ofNat nSize <<< 24
  nCompact ||| (if fNegative && nCompact &&& 0x007fffff ≠ 0 then 0x00800000 else 0)

/-- `ArithFromBytes32`. -/
def arithFromBytes32 (b : Bytes32) : ArithUint256 :=
  fun limb => (BigEndian.word b.toBytes (32 - 4 * (limb.val + 1))).toBitVec

/-- `ArithToBytes32`, the highest limb first. -/
def arithToBytes32 (a : ArithUint256) : Bytes32 :=
  .ofBytes ((List.ofFn fun limb => UInt32.ofBitVec (a (Fin.rev limb))).flatMap BigEndian.bytes)

/-! ### What they compute -/

/-- The fields of a compact form. -/
theorem toNat_mantissa (c : UInt32) : (c &&& 0x007fffff).toNat = c.toNat % 2 ^ 23 := by
  rw [UInt32.toNat_and]
  exact Nat.and_two_pow_sub_one_eq_mod c.toNat 23

theorem toNat_size (c : UInt32) : (c >>> 24).toNat = c.toNat / 2 ^ 24 := by
  rw [UInt32.toNat_shiftRight]
  exact Nat.shiftRight_eq_div_pow c.toNat 24

theorem sign_ne_zero_iff (c : UInt32) : c &&& 0x00800000 ≠ 0 ↔ c.toNat.testBit 23 := by
  have single := Nat.and_two_pow c.toNat 23
  rw [ne_eq, ← UInt32.toNat_inj, UInt32.toNat_and]
  change c.toNat &&& 2 ^ 23 ≠ 0 ↔ _
  rw [single]
  cases c.toNat.testBit 23 <;> simp

theorem toNat_shiftRight_bytes (x : UInt32) {n : Nat} (small : n < 4) :
    (x >>> UInt32.ofNat (8 * n)).toNat = x.toNat / 256 ^ n := by
  rw [UInt32.toNat_shiftRight, UInt32.toNat_ofNat', Nat.mod_eq_of_lt (by omega : 8 * n < 2 ^ 32),
    Nat.mod_eq_of_lt (by omega : 8 * n < 32), Nat.shiftRight_eq_div_pow, Compact.pow_bytes]

/-- The target is the number the fields denote, what exceeds 256 bits falling off. -/
theorem value_setCompact (c : UInt32) : (setCompact c).1.value =
    Compact.decode (c.toNat / 2 ^ 24) (c.toNat % 2 ^ 23) % 2 ^ 256 := by
  have word (nWord : UInt32) :
      (.ofWord (nWord.toBitVec.setWidth 64) : ArithUint256).value = nWord.toNat := by
    rw [Limbs.value_ofWord, BitVec.toNat_setWidth, UInt32.toNat_toBitVec]
    exact Nat.mod_eq_of_lt (nWord.toNat_lt.trans (by decide))
  simp only [setCompact, toNat_size, Compact.decode]
  generalize c.toNat / 2 ^ 24 = size
  split
  · rename_i small
    rw [word, toNat_shiftRight_bytes _ (by omega), toNat_mantissa, show size - 3 = 0 by omega,
      Nat.pow_zero, Nat.mul_one]
    have below : c.toNat % 2 ^ 23 < 2 ^ 256 :=
      (Nat.mod_lt _ (Nat.two_pow_pos 23)).trans (by decide)
    exact (Nat.mod_eq_of_lt ((Nat.div_le_self _ _).trans_lt below)).symm
  · rename_i large
    rw [Limbs.value_shiftLeft, word, toNat_mantissa, show 3 - size = 0 by omega, Nat.pow_zero,
      Nat.div_one, Compact.pow_bytes]

/-- The three leading bytes, before the sign is looked at. -/
theorem toNat_leading (a : ArithUint256) {size : Nat} (length : size = (a.bits + 7) / 8) :
    (if size ≤ 3 then (a.low64 <<< (8 * (3 - size))).setWidth 32
      else (a.shiftRight (8 * (size - 3))).low64.setWidth 32 : BitVec 32).toNat =
        Compact.leading (Compact.bytes a.value) a.value := by
  have bytes : Compact.bytes a.value = size := by
    rw [length, Limbs.bits_eq_size, Compact.bytes]
  have below := Compact.leading_bytes_lt a.value
  rw [bytes] at below ⊢
  split
  · rename_i small
    have fits : a.value < 2 ^ 24 := by
      refine Nat.size_le.mp ?_
      rw [Compact.bytes] at bytes
      omega
    have whole : Compact.leading size a.value = a.value * 2 ^ (8 * (3 - size)) := by
      rw [Compact.leading, show size - 3 = 0 by omega, Nat.pow_zero, Nat.div_one,
        Compact.pow_bytes]
    rw [whole] at below ⊢
    rw [BitVec.toNat_setWidth, BitVec.toNat_shiftLeft, Limbs.toNat_low64, Nat.shiftLeft_eq,
      Nat.mod_eq_of_lt (fits.trans (by decide)), Nat.mod_eq_of_lt (below.trans (by decide)),
      Nat.mod_eq_of_lt (below.trans (by decide))]
  · rename_i large
    have whole : Compact.leading size a.value = a.value / 2 ^ (8 * (size - 3)) := by
      rw [Compact.leading, show 3 - size = 0 by omega, Nat.pow_zero, Nat.mul_one,
        Compact.pow_bytes]
    rw [whole] at below ⊢
    rw [BitVec.toNat_setWidth, Limbs.toNat_low64, Limbs.value_shiftRight,
      Nat.mod_eq_of_lt (below.trans (by decide)), Nat.mod_eq_of_lt (below.trans (by decide))]

theorem bytes_le (a : ArithUint256) : Compact.bytes a.value ≤ 32 := by
  have size : a.value.size ≤ 256 := Nat.size_le.mpr a.value_lt
  rw [Compact.bytes]
  omega

/-- A mantissa and a size beside it. -/
theorem toNat_or_size {m : UInt32} {size : Nat} (low : m.toNat < 2 ^ 24) (small : size < 256) :
    (m ||| UInt32.ofNat size <<< 24).toNat = 2 ^ 24 * size + m.toNat := by
  have shifted : (UInt32.ofNat size <<< 24).toNat = 2 ^ 24 * size := by
    rw [UInt32.toNat_shiftLeft, UInt32.toNat_ofNat, Nat.shiftLeft_eq, Nat.mul_comm]
    change 2 ^ 24 * (size % 2 ^ 32) % 2 ^ 32 = _
    omega
  rw [UInt32.toNat_or, shifted, Nat.or_comm, Nat.two_pow_add_eq_or_of_lt low]

/-- The leading bytes with their size, once the sign bit has been cleared. -/
theorem toNat_renormalised {m : UInt32} {x : Nat}
    (leading : m.toNat = Compact.leading (Compact.bytes x) x) (fits : Compact.bytes x ≤ 32) :
    ((if m &&& 0x00800000 ≠ 0 then m >>> 8 else m) |||
      UInt32.ofNat (if m &&& 0x00800000 ≠ 0 then Compact.bytes x + 1 else Compact.bytes x) <<<
        24).toNat = 2 ^ 24 * Compact.exponent x + Compact.mantissa x := by
  have below := Compact.leading_bytes_lt x
  rw [← leading] at below
  have top : m.toNat.testBit 23 = decide (2 ^ 23 ≤ m.toNat) := by
    rw [Nat.testBit_eq_decide_div_mod_eq]
    refine decide_eq_decide.mpr ?_
    omega
  simp only [sign_ne_zero_iff, top, decide_eq_true_eq]
  by_cases set : 2 ^ 23 ≤ m.toNat
  · have longer := (Compact.sign_iff x).mp (leading ▸ set)
    have dropped : (m >>> 8).toNat = m.toNat / 256 := toNat_shiftRight_bytes m (n := 1) (by decide)
    have mantissa : (m >>> 8).toNat = Compact.mantissa x := by
      rw [dropped, leading, Compact.mantissa, longer, Compact.leading_succ]
    rw [if_pos set, if_pos set, toNat_or_size (by omega) (by omega), mantissa, longer]
  · have exponent := Compact.exponent_of_clear (x := x) (by omega)
    rw [if_neg set, if_neg set, toNat_or_size below (by omega), leading, Compact.mantissa,
      exponent]

/-- The compact form is the number's exponent over its mantissa. -/
theorem toNat_getCompact (a : ArithUint256) : (a.getCompact false).toNat =
    2 ^ 24 * Compact.exponent a.value + Compact.mantissa a.value := by
  have leading := toNat_leading a rfl
  have length : (a.bits + 7) / 8 = Compact.bytes a.value := by
    rw [Limbs.bits_eq_size, Compact.bytes]
  simp only [getCompact, length, Bool.false_and, Bool.false_eq_true, if_false, UInt32.or_zero,
    decide_eq_true_eq] at leading ⊢
  exact toNat_renormalised leading (bytes_le a)

/-! ### There and back -/

theorem exponent_le {x : Nat} (fits : x < 2 ^ 256) : Compact.exponent x ≤ 33 := by
  have size := Nat.size_le.mpr fits
  rcases Nat.eq_zero_or_pos x with rfl | positive
  · decide
  · rw [Compact.exponent_of_pos positive]
    omega

/-- The widest numbers leave two bytes for the mantissa. -/
theorem mantissa_le {x : Nat} (fits : x < 2 ^ 256) (widest : Compact.exponent x = 33) :
    Compact.mantissa x ≤ 0xffff := by
  have narrow : ¬ 2 ^ 16 ≤ Compact.mantissa x := by
    rw [Compact.mantissa, widest, Compact.two_pow_le_leading_iff (by decide)]
    exact Nat.not_le.mpr fits
  omega

/-- The fields a compact form was made of. -/
theorem fields_getCompact (a : ArithUint256) :
    (a.getCompact false).toNat / 2 ^ 24 = Compact.exponent a.value ∧
      (a.getCompact false).toNat % 2 ^ 23 = Compact.mantissa a.value ∧
        (a.getCompact false).toNat.testBit 23 = false := by
  have below := Compact.mantissa_lt a.value
  rw [Nat.testBit_eq_decide_div_mod_eq, toNat_getCompact, decide_eq_false_iff_not]
  refine ⟨?_, ?_, ?_⟩ <;> omega

theorem value_setCompact_getCompact (a : ArithUint256) :
    (setCompact (a.getCompact false)).1.value = Compact.truncate a.value := by
  obtain ⟨exponent, mantissa, -⟩ := fields_getCompact a
  rw [value_setCompact, exponent, mantissa, Compact.decode_mantissa]
  exact Nat.mod_eq_of_lt ((Compact.truncate_le _).trans_lt a.value_lt)

theorem setCompact_getCompact_negative (a : ArithUint256) :
    (setCompact (a.getCompact false)).2.1 = false := by
  have clear := (fields_getCompact a).2.2
  have unset : ¬ a.getCompact false &&& 0x00800000 ≠ 0 := by
    rw [sign_ne_zero_iff, clear]
    exact Bool.false_ne_true
  rw [setCompact]
  exact Bool.and_eq_false_iff.mpr (.inr (decide_eq_false unset))

theorem setCompact_getCompact_overflow (a : ArithUint256) :
    (setCompact (a.getCompact false)).2.2 = false := by
  obtain ⟨exponent, mantissa, -⟩ := fields_getCompact a
  have le := exponent_le a.value_lt
  have word := (toNat_mantissa (a.getCompact false)).trans mantissa
  simp only [setCompact, toNat_size, exponent]
  refine Bool.and_eq_false_iff.mpr (.inr ?_)
  rw [decide_eq_false (by omega : ¬ 34 < Compact.exponent a.value),
    decide_eq_false (by omega : ¬ 33 < Compact.exponent a.value), Bool.and_false, Bool.false_or,
    Bool.false_or]
  by_cases widest : Compact.exponent a.value = 33
  · have narrow := mantissa_le a.value_lt widest
    rw [widest, if_neg (by decide), decide_eq_false, Bool.false_and]
    rw [UInt32.lt_iff_toNat_lt, word]
    exact Nat.not_lt.mpr narrow
  · rw [decide_eq_false (by omega : ¬ 32 < Compact.exponent a.value), Bool.and_false]

/-- **Compact targets.** The compact form of a number, read back, is neither
negative nor too large. It gives the number up to the bytes that are not kept,
never more; it is written the same again, and greater numbers give no smaller
ones. -/
theorem compact_exact (x : ArithUint256) :
    let c := x.getCompact false
    let y := (setCompact c).1
    let nSize := (c >>> 24).toNat
    (setCompact c).2 = (false, false) ∧ y.value ≤ x.value ∧
      (∀ n, 8 * (nSize - 3) ≤ n → y.value.testBit n = x.value.testBit n) ∧
      x.value - y.value < 256 ^ (nSize - 3) ∧
      y.getCompact false = c ∧
      ∀ x' : ArithUint256, x.value ≤ x'.value →
        y.value ≤ (setCompact (x'.getCompact false)).1.value := by
  have kept := value_setCompact_getCompact
  have size : (x.getCompact false >>> 24).toNat = Compact.exponent x.value :=
    (toNat_size _).trans (fields_getCompact x).1
  refine ⟨Prod.ext (setCompact_getCompact_negative x) (setCompact_getCompact_overflow x),
    ?_, ?_, ?_, ?_, ?_⟩
  · rw [kept]
    exact Compact.truncate_le _
  · intro n le
    rw [size] at le
    rw [kept, Compact.testBit_truncate le]
  · rw [size, kept]
    exact Compact.sub_truncate_lt _
  · refine UInt32.toNat_inj.mp ?_
    rw [toNat_getCompact, toNat_getCompact, kept, Compact.exponent_truncate,
      Compact.mantissa_truncate]
  · intro x' le
    rw [kept, kept]
    exact Compact.truncate_mono le

/-! ### Arrays -/

theorem value_arithFromBytes32 (b : Bytes32) : (arithFromBytes32 b).value = b.toNat := by
  have whole : BigEndian.ofBE b.toBytes = b.toNat := by
    rw [BigEndian.ofBE, Bytes32.toBytes, List.reverse_reverse]
    exact LittleEndian.ofLE_leBytes_of_lt b.isLt
  rw [← whole]
  exact BigEndian.value_words (w := 8) b.length_toBytes

/-- The words of an array made of words. -/
theorem word_toBytes_ofBytes (ws : List UInt32) (eight : ws.length = 8) (i : Nat) :
    BigEndian.word (Bytes32.ofBytes (ws.flatMap BigEndian.bytes)).toBytes (4 * i) =
      ws.getD i 0 := by
  rw [Bytes32.toBytes_ofBytes, BigEndian.word_flatMap]
  simp [List.length_flatMap, eight]

theorem arithFromBytes32_arithToBytes32 (a : ArithUint256) :
    arithFromBytes32 (arithToBytes32 a) = a := by
  funext limb
  have place : 32 - 4 * (limb.val + 1) = 4 * (Fin.rev limb).val := by
    rw [Fin.val_rev]
    omega
  rw [arithFromBytes32, place, arithToBytes32, word_toBytes_ofBytes _ (List.length_ofFn ..)]
  rw [List.getD_eq_getElem _ _ (by rw [List.length_ofFn]; exact (Fin.rev limb).isLt),
    List.getElem_ofFn, Fin.eta, Fin.rev_rev]

theorem toNat_arithToBytes32 (a : ArithUint256) : (arithToBytes32 a).toNat = a.value := by
  rw [← value_arithFromBytes32, arithFromBytes32_arithToBytes32]

end ArithUint256

end QmaskCore
