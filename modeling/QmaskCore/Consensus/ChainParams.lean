import Mathlib.Algebra.BigOperators.Intervals
import Mathlib.Algebra.Order.BigOperators.Group.Finset
import QmaskCore.Params

/-!
`NetParams`: the constants of the network and the functions beside them.

`getBlockSubsidy` halves the reward every `halvingInterval` blocks, and
`sum_subsidies_le` is the limit the sum of all rewards stays under.
-/

namespace QmaskCore

namespace NetParams

def genesisTimestamp : UInt64 := 1786724267
def coin : Int64 := 100000000
def maxMoney : Int64 := 30000000 * coin
def initialSubsidy : Int64 := 77 * coin
def halvingInterval : UInt64 := 194804
def lastSubsidyHeight : UInt64 := 33 * halvingInterval

def powLimitCompact : UInt32 := 0x1d00ffff
def difficultyAdjustmentInterval : UInt32 := 2016
def powTargetTimespan : UInt64 := 2016 * 600
def powMinTimespanPercent : UInt32 := 80
def powMaxTimespanPercent : UInt32 := 400

def coinbaseMaturity : UInt32 := 50
def maxBlockSize : UInt32 := 6 * 1024 * 1024
def maxOpReturnSize : UInt32 := 300

def minFeePerByte : Int64 := 1
def minTxFee : Int64 := 1000
def dustThreshold : Int64 := 1000
def noiseLeafCount : UInt32 := 1048576

/-- `GetBlockSubsidy`: an arithmetic shift, of a reward that is not negative. -/
def getBlockSubsidy (blockHeight : UInt64) : UInt64 :=
  let halvings := blockHeight / halvingInterval
  if 64 ≤ halvings then 0 else (initialSubsidy >>> halvings.toInt64).toUInt64

def checkMoneyRange (nMoneyTotal : UInt64) : Bool := nMoneyTotal ≤ maxMoney.toUInt64

/-! ### The sum of the rewards -/

theorem toNat_getBlockSubsidy (blockHeight : UInt64) : (getBlockSubsidy blockHeight).toNat =
    if 64 ≤ blockHeight.toNat / 194804 then 0
    else 7700000000 / 2 ^ (blockHeight.toNat / 194804) := by
  have epoch : (blockHeight / halvingInterval).toNat = blockHeight.toNat / 194804 :=
    UInt64.toNat_div ..
  have past : 64 ≤ blockHeight / halvingInterval ↔ 64 ≤ blockHeight.toNat / 194804 := by
    rw [UInt64.le_iff_toNat_le, epoch]
    rfl
  rw [getBlockSubsidy]
  simp only [past]
  split
  · rfl
  · rename_i running
    have halved : ∀ n : Fin 64, (initialSubsidy >>> (UInt64.ofNat n).toInt64).toUInt64.toNat =
        7700000000 / 2 ^ n.val := by
      decide
    have same : blockHeight / halvingInterval = UInt64.ofNat (blockHeight.toNat / 194804) := by
      rw [← epoch, UInt64.ofNat_toNat]
    rw [same]
    exact halved ⟨_, Nat.lt_of_not_le running⟩

/-- The first height without a reward, despite the name. -/
theorem getBlockSubsidy_eq_zero_iff (blockHeight : UInt64) :
    getBlockSubsidy blockHeight = 0 ↔ lastSubsidyHeight ≤ blockHeight := by
  have epoch : lastSubsidyHeight ≤ blockHeight ↔ 33 ≤ blockHeight.toNat / 194804 := by
    rw [Nat.le_div_iff_mul_le (by decide), UInt64.le_iff_toNat_le]
    rfl
  rw [← UInt64.toNat_inj, toNat_getBlockSubsidy, epoch]
  constructor
  · intro unpaid
    by_contra early
    have running : blockHeight.toNat / 194804 < 33 := Nat.lt_of_not_le early
    rw [if_neg (by omega)] at unpaid
    have paid : 2 ^ (blockHeight.toNat / 194804) ≤ 7700000000 :=
      (Nat.pow_le_pow_right (by decide) (Nat.le_of_lt_succ running)).trans (by decide)
    exact (Nat.div_pos paid (Nat.two_pow_pos _)).ne' unpaid
  · intro late
    split
    · rfl
    · exact Nat.div_eq_of_lt
        ((by decide : 7700000000 < 2 ^ 33).trans_le (Nat.pow_le_pow_right (by decide) late))

/-- What is paid at each height of an epoch, over whole epochs. -/
theorem sum_epochs (paid : Nat → Nat) (interval : Nat) : ∀ epochs : Nat,
    ∑ h ∈ Finset.range (interval * epochs), paid (h / interval) =
      interval * ∑ k ∈ Finset.range epochs, paid k
  | 0 => by simp
  | epochs + 1 => by
      rw [Nat.mul_succ, Finset.sum_range_add, sum_epochs paid interval epochs,
        Finset.sum_range_succ, Nat.mul_add]
      congr 1
      have same : ∀ h ∈ Finset.range interval,
          paid ((interval * epochs + h) / interval) = paid epochs := by
        intro h mem
        have inside := Finset.mem_range.mp mem
        rw [Nat.mul_add_div (Nat.zero_lt_of_lt inside), Nat.div_eq_of_lt inside, Nat.add_zero]
      rw [Finset.sum_congr rfl same, Finset.sum_const, Finset.card_range, Nat.nsmul_eq_mul]

/-- The reward of an epoch. -/
def epochSubsidy (epoch : Nat) : Nat := if 64 ≤ epoch then 0 else 7700000000 / 2 ^ epoch

theorem sum_epochSubsidy_le (epochs : Nat) :
    ∑ k ∈ Finset.range epochs, epochSubsidy k ≤ ∑ k ∈ Finset.range 64, epochSubsidy k := by
  have past : ∀ k ∈ Finset.range (max epochs 64), k ∉ Finset.range 64 → epochSubsidy k = 0 := by
    intro k _ outside
    exact if_pos (Nat.le_of_not_lt (mt Finset.mem_range.mpr outside))
  rw [Finset.sum_subset (Finset.range_mono (le_max_right epochs 64)) past]
  exact Finset.sum_le_sum_of_subset (Finset.range_mono (le_max_left epochs 64))

/-- All rewards together, however long the chain, stay under the limit of the money. -/
theorem sum_subsidies_le {n : Nat} (fits : n ≤ 2 ^ 64) :
    ∑ h ∈ Finset.range n, (getBlockSubsidy (UInt64.ofNat h)).toNat ≤ maxMoney.toInt.toNat := by
  have paid : ∀ h ∈ Finset.range n,
      (getBlockSubsidy (UInt64.ofNat h)).toNat = epochSubsidy (h / 194804) := by
    intro h mem
    have inside : h < 2 ^ 64 := (Finset.mem_range.mp mem).trans_le fits
    rw [toNat_getBlockSubsidy, UInt64.toNat_ofNat_of_lt' inside, epochSubsidy]
  have whole : n ≤ 194804 * (n / 194804 + 1) := by omega
  calc ∑ h ∈ Finset.range n, (getBlockSubsidy (UInt64.ofNat h)).toNat
      = ∑ h ∈ Finset.range n, epochSubsidy (h / 194804) := Finset.sum_congr rfl paid
    _ ≤ ∑ h ∈ Finset.range (194804 * (n / 194804 + 1)), epochSubsidy (h / 194804) :=
        Finset.sum_le_sum_of_subset (Finset.range_mono whole)
    _ = 194804 * ∑ k ∈ Finset.range (n / 194804 + 1), epochSubsidy k :=
        sum_epochs epochSubsidy 194804 _
    _ ≤ 194804 * ∑ k ∈ Finset.range 64, epochSubsidy k :=
        Nat.mul_le_mul_left _ (sum_epochSubsidy_le _)
    _ ≤ maxMoney.toInt.toNat := by decide

end NetParams

end QmaskCore
