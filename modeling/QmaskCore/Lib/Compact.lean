import Mathlib.Algebra.Order.Ring.Nat
import Mathlib.Data.Nat.Size

/-!
Numbers kept to their three leading bytes.

A number is written as an exponent, its length in bytes, and a mantissa of 23
bits; one whose highest byte has the sign bit set takes a byte more. `truncate`
is the number that is left. It agrees with the number from the lowest byte kept
on (`testBit_truncate`), is written the same (`exponent_truncate`,
`mantissa_truncate`) and keeps the order (`truncate_mono`).
-/

namespace Compact

/-- The length in bytes, with room for a sign. -/
def exponent (x : Nat) : Nat := if x = 0 then 0 else x.size / 8 + 1

/-- The three leading bytes of a number of `size` bytes. -/
def leading (size x : Nat) : Nat := x * 256 ^ (3 - size) / 256 ^ (size - 3)

def mantissa (x : Nat) : Nat := leading (exponent x) x

/-- The number an exponent and a mantissa denote. -/
def decode (exponent mantissa : Nat) : Nat :=
  mantissa / 256 ^ (3 - exponent) * 256 ^ (exponent - 3)

/-- The number without the bytes that are not kept. -/
def truncate (x : Nat) : Nat := x / 256 ^ (exponent x - 3) * 256 ^ (exponent x - 3)

variable {x y : Nat}

theorem exponent_of_pos (positive : 0 < x) : exponent x = x.size / 8 + 1 := if_neg positive.ne'

/-- A byte is eight bits. -/
theorem pow_bytes (n : Nat) : 256 ^ n = 2 ^ (8 * n) := by
  rw [Nat.pow_mul]

theorem bytes_pos (n : Nat) : 0 < 256 ^ n := Nat.pow_pos (by decide)

/-- The sign bit of the highest byte is clear. -/
theorem lt_two_pow_exponent (positive : 0 < x) : x < 2 ^ (8 * exponent x - 1) := by
  refine x.lt_size_self.trans_le (Nat.pow_le_pow_right (by decide) ?_)
  rw [exponent_of_pos positive]
  omega

theorem two_pow_le (positive : 0 < x) : 2 ^ (8 * (exponent x - 1) - 1) ≤ x := by
  refine Nat.lt_size.mp ?_
  have some := Nat.size_pos.mpr positive
  rw [exponent_of_pos positive]
  omega

theorem two_pow_le_leading_iff {size n : Nat} (below : 24 ≤ 8 * size + n) :
    2 ^ n ≤ leading size x ↔ 2 ^ (8 * size + n - 24) ≤ x := by
  rw [leading, Nat.le_div_iff_mul_le (bytes_pos _), pow_bytes, pow_bytes, ← Nat.pow_add]
  have scaled : 2 ^ (n + 8 * (size - 3)) =
      2 ^ (8 * size + n - 24) * 2 ^ (8 * (3 - size)) := by
    rw [← Nat.pow_add]
    congr 1
    omega
  rw [scaled, Nat.mul_le_mul_right_iff (Nat.two_pow_pos _)]

/-- A byte longer, the last of the three is dropped. -/
theorem leading_succ (size x : Nat) : leading (size + 1) x = leading size x / 256 := by
  rw [leading, leading, Nat.div_div_eq_div_mul, ← Nat.pow_succ]
  by_cases small : size < 3
  · rw [show size + 1 - 3 = 0 by omega, show size - 3 = 0 by omega,
      show 3 - size = 3 - (size + 1) + 1 by omega, Nat.pow_succ, Nat.pow_zero, Nat.div_one,
      Nat.pow_one, ← Nat.mul_assoc, Nat.mul_div_cancel _ (by decide)]
  · rw [show 3 - (size + 1) = 0 by omega, show 3 - size = 0 by omega,
      show size + 1 - 3 = size - 3 + 1 by omega]

theorem mantissa_lt (x : Nat) : mantissa x < 2 ^ 23 := by
  rcases Nat.eq_zero_or_pos x with rfl | positive
  · decide
  have some : 1 ≤ exponent x := by
    rw [exponent_of_pos positive]
    omega
  refine Nat.lt_of_not_le fun le => ?_
  rw [mantissa, two_pow_le_leading_iff (by omega)] at le
  exact absurd (lt_two_pow_exponent positive) (Nat.not_lt.mpr le)

/-- The length in bytes. -/
def bytes (x : Nat) : Nat := (x.size + 7) / 8

theorem leading_bytes_lt (x : Nat) : leading (bytes x) x < 2 ^ 24 := by
  refine Nat.lt_of_not_le fun le => ?_
  rw [two_pow_le_leading_iff (by omega)] at le
  have above := Nat.lt_size.mpr le
  rw [bytes] at above
  omega

/-- The sign bit is set when the number fills its highest byte. -/
theorem sign_iff (x : Nat) : 2 ^ 23 ≤ leading (bytes x) x ↔ exponent x = bytes x + 1 := by
  rcases Nat.eq_zero_or_pos x with rfl | positive
  · decide
  have some := Nat.size_pos.mpr positive
  rw [two_pow_le_leading_iff (by unfold bytes; omega), ← Nat.lt_size, exponent_of_pos positive,
    bytes]
  omega

theorem exponent_of_clear (clear : leading (bytes x) x < 2 ^ 23) : exponent x = bytes x := by
  have unset := mt (sign_iff x).mpr (Nat.not_le.mpr clear)
  rcases Nat.eq_zero_or_pos x with rfl | positive
  · decide
  have some := Nat.size_pos.mpr positive
  rw [exponent_of_pos positive, bytes] at *
  omega

/-- What is written is what is kept. -/
theorem decode_mantissa (x : Nat) : decode (exponent x) (mantissa x) = truncate x := by
  rw [decode, mantissa, leading, truncate]
  by_cases small : exponent x ≤ 3
  · rw [show exponent x - 3 = 0 by omega, Nat.pow_zero, Nat.div_one,
      Nat.mul_div_cancel _ (bytes_pos _), Nat.div_one]
  · rw [show 3 - exponent x = 0 by omega, Nat.pow_zero, Nat.mul_one, Nat.div_one]

theorem truncate_le (x : Nat) : truncate x ≤ x := Nat.div_mul_le_self _ _

theorem sub_truncate_lt (x : Nat) : x - truncate x < 256 ^ (exponent x - 3) := by
  have split := Nat.div_add_mod' x (256 ^ (exponent x - 3))
  have rest := Nat.mod_lt x (bytes_pos (exponent x - 3))
  rw [truncate]
  omega

/-- From the lowest byte kept on the bits are those of the number. -/
theorem testBit_truncate {n : Nat} (kept : 8 * (exponent x - 3) ≤ n) :
    (truncate x).testBit n = x.testBit n := by
  rw [truncate, pow_bytes, Nat.mul_comm, Nat.testBit_two_pow_mul, decide_eq_true kept,
    Bool.true_and, Nat.testBit_div_two_pow]
  congr 1
  omega

/-- The highest bit is kept. -/
theorem two_pow_le_truncate {n : Nat} (kept : 8 * (exponent x - 3) ≤ n) (le : 2 ^ n ≤ x) :
    2 ^ n ≤ truncate x := by
  have whole : 2 ^ n = 2 ^ (n - 8 * (exponent x - 3)) * 256 ^ (exponent x - 3) := by
    rw [pow_bytes, ← Nat.pow_add]
    congr 1
    omega
  rw [truncate, whole]
  refine Nat.mul_le_mul_right _ ((Nat.le_div_iff_mul_le (bytes_pos _)).mpr ?_)
  rwa [← whole]

theorem size_truncate (x : Nat) : (truncate x).size = x.size := by
  rcases Nat.eq_zero_or_pos x with rfl | positive
  · rfl
  have some := Nat.size_pos.mpr positive
  refine le_antisymm (Nat.size_le_size (truncate_le x)) ?_
  have top : 2 ^ (x.size - 1) ≤ x := Nat.lt_size.mp (by omega)
  have kept : 8 * (exponent x - 3) ≤ x.size - 1 := by
    rw [exponent_of_pos positive]
    omega
  have above := Nat.lt_size.mpr (two_pow_le_truncate kept top)
  omega

theorem exponent_truncate (x : Nat) : exponent (truncate x) = exponent x := by
  have zero : truncate x = 0 ↔ x = 0 := by
    rw [← Nat.size_eq_zero, size_truncate, Nat.size_eq_zero]
  unfold exponent
  simp only [zero, size_truncate]

theorem mantissa_truncate (x : Nat) : mantissa (truncate x) = mantissa x := by
  rw [mantissa, exponent_truncate, mantissa, leading, leading, truncate]
  by_cases small : exponent x ≤ 3
  · rw [show exponent x - 3 = 0 by omega]
    simp
  · rw [show 3 - exponent x = 0 by omega, Nat.pow_zero, Nat.mul_one, Nat.mul_one,
      Nat.mul_div_cancel _ (bytes_pos _)]

/-- The order is kept. -/
theorem truncate_mono (le : x ≤ y) : truncate x ≤ truncate y := by
  rcases Nat.eq_zero_or_pos x with rfl | positive
  · exact Nat.zero_le _
  have positiveY : 0 < y := by omega
  have sizes := Nat.size_le_size le
  by_cases same : exponent x = exponent y
  · rw [truncate, truncate, same]
    exact Nat.mul_le_mul_right _ (Nat.div_le_div_right le)
  · have longer : exponent x + 1 ≤ exponent y := by
      rw [exponent_of_pos positive, exponent_of_pos positiveY] at *
      omega
    calc truncate x
        ≤ x := truncate_le x
      _ ≤ 2 ^ (8 * exponent x - 1) := (lt_two_pow_exponent positive).le
      _ ≤ 2 ^ (8 * (exponent y - 1) - 1) := Nat.pow_le_pow_right (by decide) (by omega)
      _ ≤ truncate y := two_pow_le_truncate (by omega) (two_pow_le positiveY)

end Compact
