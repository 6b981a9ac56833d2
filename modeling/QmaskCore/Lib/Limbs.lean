import Mathlib.Algebra.Ring.Nat
import Mathlib.Data.List.FinRange
import Mathlib.Data.Nat.Size

/-!
Numbers of several 32-bit limbs, the least significant first.

`shiftLeft` and `shiftRight` are the loops that or the parts of each limb into
the limbs they go to, `bits` walks down to the highest bit that is set, and
`compareTo` compares limb by limb. `testBit_value` tells the bits of the number
from those of its limbs; with it, `value_shiftLeft`, `value_shiftRight`,
`bits_eq_size` and `compareTo_spec` say what the loops compute.
-/

/-- `w` words, the least significant first. -/
abbrev Limbs (w : Nat) := Fin w → BitVec 32

namespace Limbs

variable {w : Nat}

/-- The number the limbs denote. -/
def value : {w : Nat} → Limbs w → Nat
  | 0, _ => 0
  | _ + 1, a => (a 0).toNat + 2 ^ 32 * value fun i => a i.succ

/-- A limb, zero beyond the last. -/
def limb (a : Limbs w) (i : Nat) : BitVec 32 := if h : i < w then a ⟨i, h⟩ else 0#32

def zero : Limbs w := fun _ => 0#32

/-- A number of 64 bits. -/
def ofWord (b : BitVec 64) : Limbs w := fun i =>
  if i.val = 0 then b.setWidth 32 else if i.val = 1 then (b >>> 32).setWidth 32 else 0

/-- `GetLow64`. -/
def low64 (a : Limbs w) : BitVec 64 :=
  (a.limb 0).setWidth 64 ||| (a.limb 1).setWidth 64 <<< 32

/-- `pn[i] |= v`. -/
def orAt (i : Nat) (v : BitVec 32) (pn : Limbs w) : Limbs w :=
  fun j => if j.val = i then pn j ||| v else pn j

/-- A turn of the loop of `operator<<=`. -/
def leftTurn (a : Limbs w) (k shift : Nat) (pn : Limbs w) (i : Fin w) : Limbs w :=
  let pn := if i + k + 1 < w ∧ shift ≠ 0 then orAt (i + k + 1) (a i >>> (32 - shift)) pn else pn
  if i + k < w then orAt (i + k) (a i <<< shift) pn else pn

/-- `operator<<=`. -/
def shiftLeft (a : Limbs w) (shift : Nat) : Limbs w :=
  (List.finRange w).foldl (leftTurn a (shift / 32) (shift % 32)) zero

/-- A turn of the loop of `operator>>=`. -/
def rightTurn (a : Limbs w) (k shift : Nat) (pn : Limbs w) (i : Fin w) : Limbs w :=
  let pn := if k + 1 ≤ i ∧ shift ≠ 0 then orAt (i - k - 1) (a i <<< (32 - shift)) pn else pn
  if k ≤ i then orAt (i - k) (a i >>> shift) pn else pn

/-- `operator>>=`. -/
def shiftRight (a : Limbs w) (shift : Nat) : Limbs w :=
  (List.finRange w).foldl (rightTurn a (shift / 32) (shift % 32)) zero

/-- The highest bit set of a word, from `nbits` down; 0 is not looked at. -/
def topBit (word : BitVec 32) : Nat → Nat
  | 0 => 0
  | nbits + 1 => if word.getLsbD (nbits + 1) then nbits + 1 else topBit word nbits

def bitsFrom (a : Limbs w) : Nat → Nat
  | 0 => 0
  | pos + 1 => if a.limb pos ≠ 0#32 then 32 * pos + topBit (a.limb pos) 31 + 1 else bitsFrom a pos

/-- The position of the highest bit set plus one, or zero. -/
def bits (a : Limbs w) : Nat := bitsFrom a w

def compareFrom (a b : Limbs w) : Nat → Int
  | 0 => 0
  | pos + 1 =>
      if a.limb pos < b.limb pos then -1
      else if b.limb pos < a.limb pos then 1
      else compareFrom a b pos

/-- `CompareTo`. -/
def compareTo (a b : Limbs w) : Int := compareFrom a b w

/-- `EqualTo`. -/
def equalTo (a : Limbs w) (b : BitVec 64) : Bool :=
  (List.finRange w).all fun i => a i == (ofWord b : Limbs w) i

/-! ### Bits -/

/-- A bit of the limbs. -/
def bit (a : Limbs w) (n : Nat) : Bool := (a.limb (n / 32)).getLsbD (n % 32)

theorem limb_of_lt (a : Limbs w) {i : Nat} (h : i < w) : a.limb i = a ⟨i, h⟩ := dif_pos h

theorem limb_of_le (a : Limbs w) {i : Nat} (h : w ≤ i) : a.limb i = 0#32 := dif_neg (by omega)

theorem testBit_value : ∀ {w : Nat} (a : Limbs w) (n : Nat), a.value.testBit n = a.bit n
  | 0, a, n => by
      rw [value, bit, limb_of_le a (Nat.zero_le _), Nat.zero_testBit, BitVec.getLsbD_zero]
  | w + 1, a, n => by
      rw [value, Nat.add_comm, Nat.testBit_two_pow_mul_add _ (a 0).isLt, bit]
      split
      · rename_i low
        have first : n / 32 = 0 := by omega
        have same : n % 32 = n := by omega
        rw [first, same, limb_of_lt a (Nat.succ_pos w), BitVec.testBit_toNat]
        rfl
      · rename_i high
        rw [testBit_value, bit]
        have whole : n / 32 = (n - 32) / 32 + 1 := by omega
        have part : n % 32 = (n - 32) % 32 := by omega
        rw [whole, part]
        by_cases inside : (n - 32) / 32 < w
        · rw [limb_of_lt _ inside, limb_of_lt _ (Nat.succ_lt_succ inside)]
          rfl
        · rw [limb_of_le _ (by omega), limb_of_le _ (by omega)]

theorem bit_of_le (a : Limbs w) {n : Nat} (h : 32 * w ≤ n) : a.bit n = false := by
  rw [bit, limb_of_le a (by omega), BitVec.getLsbD_zero]

theorem value_lt (a : Limbs w) : a.value < 2 ^ (32 * w) := by
  refine Nat.lt_pow_two_of_testBit _ fun n h => ?_
  rw [testBit_value, bit_of_le a h]

/-- A number that denotes another, bit by bit. -/
theorem value_eq_of_bit {a : Limbs w} {n : Nat} (bits : ∀ i, a.bit i = n.testBit i) :
    a.value = n :=
  Nat.eq_of_testBit_eq fun i => (testBit_value a i).trans (bits i)

/-- The two low limbs hold a number of 64 bits. -/
theorem value_ofWord (b : BitVec 64) : (ofWord b : Limbs (w + 2)).value = b.toNat := by
  refine value_eq_of_bit fun n => ?_
  rw [bit, BitVec.testBit_toNat]
  by_cases inside : n / 32 < w + 2
  · rw [limb_of_lt _ inside, ofWord]
    split
    · rename_i first
      rw [BitVec.getLsbD_setWidth, decide_eq_true (by omega), Bool.true_and]
      congr 1
      exact Nat.mod_eq_of_lt (by dsimp only at first; omega)
    · split
      · rename_i _ second
        dsimp only at second
        rw [BitVec.getLsbD_setWidth, decide_eq_true (by omega), Bool.true_and,
          BitVec.getLsbD_ushiftRight]
        congr 1
        omega
      · rename_i first second
        dsimp only at first second
        rw [b.getLsbD_of_ge n (by omega)]
        exact BitVec.getLsbD_zero
  · rw [limb_of_le _ (by omega), BitVec.getLsbD_zero, b.getLsbD_of_ge n (by omega)]

/-- The two low limbs of any number. -/
theorem toNat_low64 (a : Limbs w) : a.low64.toNat = a.value % 2 ^ 64 := by
  refine Nat.eq_of_testBit_eq fun n => ?_
  rw [BitVec.testBit_toNat, Nat.testBit_mod_two_pow, testBit_value, bit, low64,
    BitVec.getLsbD_or, BitVec.getLsbD_shiftLeft, BitVec.getLsbD_setWidth,
    BitVec.getLsbD_setWidth]
  by_cases inside : n < 64
  · rw [decide_eq_true inside, decide_eq_true (by omega : n - 32 < 64)]
    by_cases low : n < 32
    · rw [decide_eq_true low, show n / 32 = 0 by omega, Nat.mod_eq_of_lt low]
      simp
    · rw [decide_eq_false low, show n / 32 = 1 by omega, show n % 32 = n - 32 by omega,
        (a.limb 0).getLsbD_of_ge n (by omega)]
      simp
  · simp [inside]

/-! ### Shifts -/

/-- A word that is or-ed in under a condition. -/
theorem getLsbD_orAt (c : Prop) [Decidable c] (i : Nat) (v : BitVec 32) (pn : Limbs w) (j : Fin w)
    (b : Nat) : ((if c then orAt i v pn else pn) j).getLsbD b =
      ((pn j).getLsbD b || decide (c ∧ i = j.val) && v.getLsbD b) := by
  by_cases given : c
  · rw [if_pos given, orAt]
    by_cases here : j.val = i
    · rw [if_pos here, BitVec.getLsbD_or, decide_eq_true ⟨given, here.symm⟩, Bool.true_and]
    · rw [if_neg here, decide_eq_false fun both => here both.2.symm, Bool.false_and, Bool.or_false]
  · rw [if_neg given, decide_eq_false fun both => given both.1, Bool.false_and, Bool.or_false]

/-- A loop that only adds bits ends with those it adds at any turn. -/
theorem getLsbD_foldl {step : Limbs w → Fin w → Limbs w} {added : Fin w → Fin w → Nat → Bool}
    (adds : ∀ pn i j b, (step pn i j).getLsbD b = ((pn j).getLsbD b || added i j b)) (j : Fin w)
    (b : Nat) : ∀ (l : List (Fin w)) (pn : Limbs w),
    (l.foldl step pn j).getLsbD b = ((pn j).getLsbD b || l.any fun i => added i j b) := by
  intro l
  induction l with
  | nil => exact fun pn => (Bool.or_false _).symm
  | cons i l ih =>
      intro pn
      rw [List.foldl_cons, ih, adds, List.any_cons, Bool.or_assoc]

theorem bit_of_fin (a : Limbs w) {n : Nat} {i : Fin w} (limb : n / 32 = i.val) :
    a.bit n = (a i).getLsbD (n % 32) := by
  rw [bit, limb, limb_of_lt a i.isLt]

/-- The bits a limb adds to another on the way up. -/
def leftPart (a : Limbs w) (k shift : Nat) (i j : Fin w) (b : Nat) : Bool :=
  decide (i + k + 1 = j.val ∧ shift ≠ 0) && (a i >>> (32 - shift)).getLsbD b ||
    decide (i + k = j.val) && (a i <<< shift).getLsbD b

theorem getLsbD_leftTurn (a : Limbs w) (k shift : Nat) (pn : Limbs w) (i j : Fin w) (b : Nat) :
    (leftTurn a k shift pn i j).getLsbD b = ((pn j).getLsbD b || leftPart a k shift i j b) := by
  have next : ((i + k + 1 < w ∧ shift ≠ 0) ∧ i + k + 1 = j.val) ↔ i + k + 1 = j.val ∧ shift ≠ 0 := by
    omega
  have same : (i + k < w ∧ i + k = j.val) ↔ i + k = j.val := by
    omega
  rw [leftTurn, getLsbD_orAt, getLsbD_orAt, leftPart, Bool.or_assoc]
  simp only [next, same]

/-- The bits a limb adds to another on the way down. -/
def rightPart (a : Limbs w) (k shift : Nat) (i j : Fin w) (b : Nat) : Bool :=
  decide (i.val = j + k + 1 ∧ shift ≠ 0) && (a i <<< (32 - shift)).getLsbD b ||
    decide (i.val = j + k) && (a i >>> shift).getLsbD b

theorem getLsbD_rightTurn (a : Limbs w) (k shift : Nat) (pn : Limbs w) (i j : Fin w) (b : Nat) :
    (rightTurn a k shift pn i j).getLsbD b = ((pn j).getLsbD b || rightPart a k shift i j b) := by
  have next : ((k + 1 ≤ i.val ∧ shift ≠ 0) ∧ i.val - k - 1 = j.val) ↔
      i.val = j + k + 1 ∧ shift ≠ 0 := by
    omega
  have same : (k ≤ i.val ∧ i.val - k = j.val) ↔ i.val = j + k := by
    omega
  rw [rightTurn, getLsbD_orAt, getLsbD_orAt, rightPart, Bool.or_assoc]
  simp only [next, same]

/-- What a limb has above the word goes to the next limb. -/
theorem bit_shiftLeft (a : Limbs w) (shift : Nat) {n : Nat} (h : n < 32 * w) :
    (a.shiftLeft shift).bit n = (decide (shift ≤ n) && a.bit (n - shift)) := by
  have lt : n / 32 < w := by omega
  rw [bit, limb_of_lt _ lt, shiftLeft, getLsbD_foldl (getLsbD_leftTurn a _ _), zero,
    BitVec.getLsbD_zero, Bool.false_or, Bool.eq_iff_iff, List.any_eq_true]
  simp only [leftPart, Bool.or_eq_true, Bool.and_eq_true, decide_eq_true_eq, List.mem_finRange,
    true_and, BitVec.getLsbD_ushiftRight, BitVec.getLsbD_shiftLeft, Bool.not_eq_true',
    decide_eq_false_iff_not]
  constructor
  · rintro ⟨i, ⟨⟨next, part⟩, set⟩ | ⟨same, ⟨low, high⟩, set⟩⟩
    · have inside := BitVec.lt_of_getLsbD set
      refine ⟨by omega, ?_⟩
      have at_limb : (n - shift) / 32 = i.val := by omega
      have at_bit : (n - shift) % 32 = 32 - shift % 32 + n % 32 := by omega
      rw [bit_of_fin a at_limb, at_bit, set]
    · refine ⟨by omega, ?_⟩
      have at_limb : (n - shift) / 32 = i.val := by omega
      have at_bit : (n - shift) % 32 = n % 32 - shift % 32 := by omega
      rw [bit_of_fin a at_limb, at_bit, set]
  · rintro ⟨le, set⟩
    have inside : (n - shift) / 32 < w := by omega
    rw [bit, limb_of_lt a inside] at set
    refine ⟨⟨(n - shift) / 32, inside⟩, ?_⟩
    by_cases high : shift % 32 ≤ n % 32
    · have at_bit : n % 32 - shift % 32 = (n - shift) % 32 := by omega
      refine .inr ⟨?_, ⟨?_, ?_⟩, ?_⟩
      · dsimp only
        omega
      · omega
      · omega
      · rw [at_bit, set]
    · have at_bit : 32 - shift % 32 + n % 32 = (n - shift) % 32 := by omega
      refine .inl ⟨⟨?_, ?_⟩, ?_⟩
      · dsimp only
        omega
      · omega
      · rw [at_bit, set]

theorem bit_shiftRight (a : Limbs w) (shift n : Nat) :
    (a.shiftRight shift).bit n = a.bit (n + shift) := by
  by_cases h : n < 32 * w
  · have lt : n / 32 < w := by omega
    rw [bit, limb_of_lt _ lt, shiftRight, getLsbD_foldl (getLsbD_rightTurn a _ _), zero,
      BitVec.getLsbD_zero, Bool.false_or, Bool.eq_iff_iff, List.any_eq_true]
    simp only [rightPart, Bool.or_eq_true, Bool.and_eq_true, decide_eq_true_eq, List.mem_finRange,
      true_and, BitVec.getLsbD_ushiftRight, BitVec.getLsbD_shiftLeft, Bool.not_eq_true',
      decide_eq_false_iff_not]
    constructor
    · rintro ⟨i, ⟨⟨next, part⟩, ⟨low, high⟩, set⟩ | ⟨same, set⟩⟩
      · have at_limb : (n + shift) / 32 = i.val := by omega
        have at_bit : (n + shift) % 32 = n % 32 - (32 - shift % 32) := by omega
        rw [bit_of_fin a at_limb, at_bit, set]
      · have inside := BitVec.lt_of_getLsbD set
        have at_limb : (n + shift) / 32 = i.val := by omega
        have at_bit : (n + shift) % 32 = shift % 32 + n % 32 := by omega
        rw [bit_of_fin a at_limb, at_bit, set]
    · intro set
      by_cases inside : (n + shift) / 32 < w
      · rw [bit, limb_of_lt a inside] at set
        refine ⟨⟨(n + shift) / 32, inside⟩, ?_⟩
        by_cases carried : 32 ≤ shift % 32 + n % 32
        · have at_bit : n % 32 - (32 - shift % 32) = (n + shift) % 32 := by omega
          refine .inl ⟨⟨?_, ?_⟩, ⟨?_, ?_⟩, ?_⟩
          · dsimp only
            omega
          · omega
          · omega
          · omega
          · rw [at_bit, set]
        · have at_bit : shift % 32 + n % 32 = (n + shift) % 32 := by omega
          refine .inr ⟨?_, ?_⟩
          · dsimp only
            omega
          · rw [at_bit, set]
      · rw [bit, limb_of_le a (by omega), BitVec.getLsbD_zero] at set
        cases set
  · rw [bit_of_le _ (by omega), bit_of_le _ (by omega)]

/-- Up by some bits, the highest falling off. -/
theorem value_shiftLeft (a : Limbs w) (shift : Nat) :
    (a.shiftLeft shift).value = a.value * 2 ^ shift % 2 ^ (32 * w) := by
  refine value_eq_of_bit fun n => ?_
  rw [Nat.testBit_mod_two_pow, ← Nat.shiftLeft_eq, Nat.testBit_shiftLeft, testBit_value]
  by_cases h : n < 32 * w
  · rw [bit_shiftLeft a shift h, decide_eq_true h, Bool.true_and]
  · rw [bit_of_le _ (by omega), decide_eq_false h, Bool.false_and]

/-- Down by some bits, the lowest falling off. -/
theorem value_shiftRight (a : Limbs w) (shift : Nat) :
    (a.shiftRight shift).value = a.value / 2 ^ shift := by
  refine value_eq_of_bit fun n => ?_
  rw [bit_shiftRight, ← Nat.shiftRight_eq_div_pow, Nat.testBit_shiftRight, testBit_value,
    Nat.add_comm]

/-! ### The highest bit -/

theorem topBit_spec (word : BitVec 32) : ∀ n : Nat, topBit word n ≤ n ∧
    (∀ i, topBit word n < i → i ≤ n → word.getLsbD i = false) ∧
    (topBit word n ≠ 0 → word.getLsbD (topBit word n) = true) := by
  intro n
  induction n with
  | zero => exact ⟨le_rfl, fun i above below => by omega, fun some => absurd rfl some⟩
  | succ n ih =>
      rw [topBit]
      split
      · rename_i set
        exact ⟨le_rfl, fun i above below => by omega, fun _ => set⟩
      · rename_i unset
        refine ⟨by omega, fun i above below => ?_, ih.2.2⟩
        by_cases top : i = n + 1
        · rw [top]
          exact Bool.eq_false_iff.mpr unset
        · exact ih.2.1 i above (by omega)

/-- The walk finds the length of the number. -/
theorem bits_eq_size (a : Limbs w) : a.bits = a.value.size := by
  suffices walk : ∀ pos, (∀ n, 32 * pos ≤ n → a.bit n = false) → a.bitsFrom pos = a.value.size from
    walk w fun n le => bit_of_le a le
  intro pos
  induction pos with
  | zero =>
      intro clear
      have zero : a.value = 0 := value_eq_of_bit fun i => by
        rw [clear i (by omega), Nat.zero_testBit]
      rw [bitsFrom, zero, Nat.size_zero]
  | succ pos ih =>
      intro clear
      have at_limb {i : Nat} (lt : i < 32) : a.bit (32 * pos + i) = (a.limb pos).getLsbD i := by
        rw [bit, show (32 * pos + i) / 32 = pos by omega, show (32 * pos + i) % 32 = i by omega]
      rw [bitsFrom]
      split
      · rename_i nonzero
        obtain ⟨le, unset, set⟩ := topBit_spec (a.limb pos) 31
        generalize topBit (a.limb pos) 31 = top at le unset set
        have highest : (a.limb pos).getLsbD top = true := by
          by_cases low : top = 0
          · -- a word that is not zero and has no other bit
            by_contra unset0
            refine nonzero (BitVec.eq_of_getLsbD_eq fun i lt => ?_)
            rw [BitVec.getLsbD_zero]
            by_cases here : i = top
            · rw [here]
              exact Bool.eq_false_iff.mpr unset0
            · exact unset i (by omega) (by omega)
          · exact set low
        refine le_antisymm ?_ ?_
        · refine Nat.succ_le_of_lt (Nat.lt_size.mpr ?_)
          refine Nat.ge_two_pow_of_testBit ?_
          rw [testBit_value, at_limb (by omega), highest]
        · refine Nat.size_le.mpr (Nat.lt_pow_two_of_testBit _ fun n above => ?_)
          rw [testBit_value]
          by_cases inside : n < 32 * (pos + 1)
          · rw [show n = 32 * pos + (n - 32 * pos) by omega, at_limb (by omega)]
            exact unset _ (by omega) (by omega)
          · exact clear n (by omega)
      · rename_i blank
        refine ih fun n le => ?_
        by_cases inside : n < 32 * (pos + 1)
        · rw [show n = 32 * pos + (n - 32 * pos) by omega, at_limb (by omega), not_not.mp blank]
          exact BitVec.getLsbD_zero
        · exact clear n (by omega)

/-! ### Comparing -/

/-- The low limbs with one more. -/
theorem value_mod_succ (a : Limbs w) (pos : Nat) : a.value % 2 ^ (32 * (pos + 1)) =
    2 ^ (32 * pos) * (a.limb pos).toNat + a.value % 2 ^ (32 * pos) := by
  refine Nat.eq_of_testBit_eq fun n => ?_
  rw [Nat.testBit_two_pow_mul_add _ (Nat.mod_lt _ (Nat.two_pow_pos _)), Nat.testBit_mod_two_pow,
    Nat.testBit_mod_two_pow, testBit_value]
  by_cases low : n < 32 * pos
  · rw [if_pos low, decide_eq_true low, decide_eq_true (by omega)]
  · rw [if_neg low]
    by_cases inside : n < 32 * (pos + 1)
    · rw [decide_eq_true inside, Bool.true_and, bit, show n / 32 = pos by omega,
        show n % 32 = n - 32 * pos by omega]
      rfl
    · rw [decide_eq_false inside, Bool.false_and]
      exact ((a.limb pos).getLsbD_of_ge _ (by omega)).symm

/-- The first limb that differs, from the top, decides. -/
theorem compareTo_spec (a b : Limbs w) :
    (a.compareTo b < 0 ↔ a.value < b.value) ∧ (0 < a.compareTo b ↔ b.value < a.value) := by
  have whole (a : Limbs w) : a.value % 2 ^ (32 * w) = a.value := Nat.mod_eq_of_lt a.value_lt
  suffices walk : ∀ pos, (a.compareFrom b pos < 0 ↔
        a.value % 2 ^ (32 * pos) < b.value % 2 ^ (32 * pos)) ∧
      (0 < a.compareFrom b pos ↔ b.value % 2 ^ (32 * pos) < a.value % 2 ^ (32 * pos)) by
    have top := walk w
    rwa [whole, whole] at top
  intro pos
  induction pos with
  | zero => simp [compareFrom, Nat.mod_one]
  | succ pos ih =>
      have lowA : a.value % 2 ^ (32 * pos) < 2 ^ (32 * pos) := Nat.mod_lt _ (Nat.two_pow_pos _)
      have lowB : b.value % 2 ^ (32 * pos) < 2 ^ (32 * pos) := Nat.mod_lt _ (Nat.two_pow_pos _)
      rw [value_mod_succ, value_mod_succ, compareFrom]
      generalize a.value % 2 ^ (32 * pos) = x at *
      generalize b.value % 2 ^ (32 * pos) = y at *
      generalize 2 ^ (32 * pos) = m at *
      have scale {p q : Nat} (lt : p < q) : m * p + m ≤ m * q := by
        rw [← Nat.mul_succ]
        exact Nat.mul_le_mul_left m lt
      split
      · rename_i less
        have step := scale (BitVec.lt_def.mp less)
        constructor
        · exact ⟨fun _ => by omega, fun _ => by decide⟩
        · exact ⟨fun up => absurd up (by decide), fun lt => by omega⟩
      · split
        · rename_i _ greater
          have step := scale (BitVec.lt_def.mp greater)
          constructor
          · exact ⟨fun down => absurd down (by decide), fun lt => by omega⟩
          · exact ⟨fun _ => by omega, fun _ => by decide⟩
        · rename_i notLess notGreater
          have same : (a.limb pos).toNat = (b.limb pos).toNat := by
            rw [BitVec.lt_def] at notLess notGreater
            omega
          rw [same, Nat.add_lt_add_iff_left, Nat.add_lt_add_iff_left]
          exact ih

/-- A smaller number has no greater highest limb. -/
theorem last_le_of_value_le {a b : Limbs (w + 1)} (le : a.value ≤ b.value) :
    (a (Fin.last w)).toNat ≤ (b (Fin.last w)).toNat := by
  have split (a : Limbs (w + 1)) : a.value =
      2 ^ (32 * w) * (a (Fin.last w)).toNat + a.value % 2 ^ (32 * w) := by
    have whole := value_mod_succ a w
    rwa [Nat.mod_eq_of_lt a.value_lt, limb_of_lt a (Nat.lt_succ_self w)] at whole
  have low := Nat.mod_lt b.value (Nat.two_pow_pos (32 * w))
  refine Nat.le_of_not_lt fun less => ?_
  have step := Nat.mul_le_mul_left (2 ^ (32 * w)) (Nat.succ_le_of_lt less)
  rw [Nat.mul_succ] at step
  have wholeA := split a
  have wholeB := split b
  omega

end Limbs
