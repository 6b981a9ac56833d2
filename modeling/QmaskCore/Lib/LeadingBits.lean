import Mathlib.Algebra.BigOperators.Group.List.Basic
import Mathlib.Data.Nat.Bitwise

/-!
The first bits of an array of bytes.

Bit 0 is the top bit of the first byte. `share n i` is how many of the first `n` bits
lie in byte `i`, and `topBits` is a byte with so many ones at its top. Masking byte by
byte compares exactly the first `n` bits (`masked_eq_iff`), and counting the ones of the
mask gives `n` back (`sum_leadingOnes`).
-/

namespace LeadingBits

/-- A byte whose first bits are ones. -/
def topBits (n : Nat) : UInt8 :=
  if n = 0 then 0 else ((0xff : UInt32) <<< UInt32.ofNat (8 - n)).toUInt8

/-- How many of the first `n` bits byte `i` holds. -/
def share (n i : Nat) : Nat :=
  if (i + 1) * 8 ≤ n then 8 else if i * 8 < n then n - i * 8 else 0

def bit {w : Nat} (a : Fin w → UInt8) (k : Nat) : Bool :=
  if inside : k / 8 < w then (a ⟨k / 8, inside⟩).toNat.testBit (7 - k % 8) else false

theorem two_mul_lt {b : UInt8} (one : b &&& 0x80 ≠ 0) : (b <<< 1).toNat < b.toNat := by
  have high : 128 ≤ b.toNat := by
    by_contra low
    have clear : b.toNat.testBit 7 = false := Nat.testBit_lt_two_pow (by omega)
    refine one (UInt8.toNat_inj.mp ?_)
    rw [UInt8.toNat_and]
    change b.toNat &&& 2 ^ 7 = 0
    rw [Nat.and_two_pow, clear]
    rfl
  have small := b.toNat_lt
  rw [UInt8.toNat_shiftLeft]
  change b.toNat <<< 1 % 2 ^ 8 < b.toNat
  rw [Nat.shiftLeft_eq]
  omega

/-- How many ones a byte begins with. -/
def leadingOnes (b : UInt8) : Nat :=
  if b &&& 0x80 ≠ 0 then leadingOnes (b <<< 1) + 1 else 0
termination_by b.toNat
decreasing_by
  rename_i one
  exact two_mul_lt one

theorem leadingOnes_topBits : ∀ {n : Nat}, n ≤ 8 → leadingOnes (topBits n) = n := by
  have step (n : Fin 8) : topBits (n.val + 1) &&& 0x80 ≠ 0 ∧
      topBits (n.val + 1) <<< 1 = topBits n.val := by
    revert n
    decide
  intro n
  induction n with
  | zero =>
      intro _
      rw [leadingOnes]
      rfl
  | succ n ih =>
      intro few
      obtain ⟨one, rest⟩ := step ⟨n, few⟩
      rw [leadingOnes, if_pos one, rest, ih (by omega)]

theorem share_le (n i : Nat) : share n i ≤ 8 := by
  rw [share]
  split_ifs
  · exact le_rfl
  · omega
  · omega

/-- Together the bytes hold all of the bits. -/
theorem sum_share {n w : Nat} (fits : n ≤ 8 * w) : ((List.range w).map (share n)).sum = n := by
  have upTo : ∀ w, ((List.range w).map (share n)).sum = min n (8 * w) := by
    intro w
    induction w with
    | zero => simp
    | succ w ih =>
        rw [List.sum_range_succ, ih, share]
        split_ifs <;> omega
  rw [upTo, min_eq_left fits]

theorem sum_leadingOnes {n w : Nat} (fits : n ≤ 8 * w) :
    ((List.range w).map fun i => leadingOnes (topBits (share n i))).sum = n := by
  rw [List.map_congr_left fun i _ => leadingOnes_topBits (share_le n i)]
  exact sum_share fits

/-- A byte whose bits all count. -/
theorem share_eq_eight_iff {n i : Nat} : share n i = 8 ↔ (i + 1) * 8 ≤ n := by
  constructor
  · intro eight
    rw [share] at eight
    split_ifs at eight <;> omega
  · exact fun whole => if_pos whole

/-! ### Masks -/

@[simp] theorem topBits_eight : topBits 8 = 0xff := rfl

theorem eq_eight_of_topBits {n : Nat} (few : n ≤ 8) (full : topBits n = 0xff) : n = 8 := by
  have all : ∀ n : Fin 9, topBits n.val = 0xff → n.val = 8 := by decide
  exact all ⟨n, by omega⟩ full

/-- A masked byte is full only if the byte and the mask are. -/
theorem eq_full_of_and {x y : UInt8} (full : x &&& y = 0xff) : x = 0xff ∧ y = 0xff := by
  have value : x.toNat &&& y.toNat = 255 := by rw [← UInt8.toNat_and, full]; rfl
  have left : x.toNat &&& y.toNat ≤ x.toNat := Nat.and_le_left
  have right : x.toNat &&& y.toNat ≤ y.toNat := Nat.and_le_right
  have small := x.toNat_lt
  have small' := y.toNat_lt
  exact ⟨UInt8.toNat_inj.mp (show x.toNat = 255 by omega),
    UInt8.toNat_inj.mp (show y.toNat = 255 by omega)⟩

theorem testBit_topBits {n j : Nat} (few : n ≤ 8) (inside : j < 8) :
    (topBits n).toNat.testBit (7 - j) = decide (j < n) := by
  have all : ∀ (n : Fin 9) (j : Fin 8),
      (topBits n.val).toNat.testBit (7 - j.val) = decide (j.val < n.val) := by decide
  exact all ⟨n, by omega⟩ ⟨j, inside⟩

/-- Two bytes under a mask. -/
theorem and_topBits_eq_iff {x y : UInt8} {n : Nat} (few : n ≤ 8) :
    x &&& topBits n = y &&& topBits n ↔
      ∀ j < n, x.toNat.testBit (7 - j) = y.toNat.testBit (7 - j) := by
  rw [← UInt8.toNat_inj, UInt8.toNat_and, UInt8.toNat_and]
  constructor
  · intro same j lt
    have bits := congrArg (Nat.testBit · (7 - j)) same
    simpa [testBit_topBits few (by omega : j < 8), lt] using bits
  · intro agree
    refine Nat.eq_of_testBit_eq fun i => ?_
    rw [Nat.testBit_and, Nat.testBit_and]
    by_cases inside : i < 8
    · obtain ⟨j, lt, rfl⟩ : ∃ j < 8, i = 7 - j := ⟨7 - i, by omega, by omega⟩
      rw [testBit_topBits few lt]
      by_cases first : j < n
      · rw [agree j first]
      · simp [first]
    · have high : (topBits n).toNat.testBit i = false :=
        Nat.testBit_lt_two_pow ((topBits n).toNat_lt.trans_le
          (Nat.pow_le_pow_right (by omega) (not_lt.mp inside)))
      rw [high, Bool.and_false, Bool.and_false]

/-- Two arrays agree under the mask just where their first bits do. -/
theorem masked_eq_iff {w v n : Nat} {a b : Fin w → UInt8} (fits : n ≤ 8 * v) (le : v ≤ w) :
    (∀ i : Fin w, i.val < v → a i &&& topBits (share n i) = b i &&& topBits (share n i)) ↔
      ∀ k < n, bit a k = bit b k := by
  simp only [and_topBits_eq_iff (share_le n _)]
  constructor
  · intro agree k lt
    have inside : k / 8 < w := by omega
    rw [bit, bit, dif_pos inside, dif_pos inside]
    refine agree ⟨k / 8, inside⟩ (show k / 8 < v by omega) (k % 8) ?_
    change k % 8 < share n (k / 8)
    rw [share]
    split_ifs <;> omega
  · intro agree i inside j lt
    have few := share_le n i
    have place : (8 * i.val + j) / 8 = i.val ∧ (8 * i.val + j) % 8 = j := by omega
    have below : 8 * i.val + j < n := by
      rw [share] at lt
      split_ifs at lt <;> omega
    have same := agree (8 * i.val + j) below
    simpa [bit, place, i.isLt] using same

end LeadingBits
