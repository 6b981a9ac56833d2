import QmaskCore.Consensus.ChainParams
import QmaskCore.Crypto.ArithUint256
import QmaskCore.Lib.LimbArith

/-!
Proof of work: targets, the work they stand for, and the retarget.

`checkProofOfWork_iff`, `getBlockProof_eq` and `toNat_addChainWork` say what the
functions compute in numbers; `compareWork_spec` that works are compared as
numbers. `retarget_exact` gives the bits after an interval, and `retarget_inRange`
when a block can meet them.
-/

namespace QmaskCore

open ArithUint256 BigEndian Limbs

namespace Pow

/-- The target of compact bits. -/
def target (bits : UInt32) : Nat := (setCompact bits).1.value

/-- The bits denote a target: positive, neither negative nor too large. -/
structure Denotes (bits : UInt32) : Prop where
  positive : 0 < target bits
  notNegative : (setCompact bits).2.1 = false
  fits : (setCompact bits).2.2 = false

def bnPowLimit : ArithUint256 := (setCompact NetParams.powLimitCompact).1

def checkProofOfWork (hash : Bytes32) (bits : UInt32) : Bool :=
  let (bnTarget, fNegative, fOverflow) := setCompact bits
  if fNegative || bnTarget.equalTo 0 || fOverflow || 0 < bnTarget.compareTo bnPowLimit then false
  else if 0 < (arithFromBytes32 hash).compareTo bnTarget then false
  else true

/-- The time the last interval took, within the bounds. The times of blocks are
far below the bounds of `int64_t`. -/
def limitedTimespan (lastBlockTime firstBlockTime : UInt64) : Int64 :=
  let idealTimespan := NetParams.powTargetTimespan
  let actualTimespan := lastBlockTime.toInt64 - firstBlockTime.toInt64
  let minTimespan := (idealTimespan * NetParams.powMinTimespanPercent.toUInt64).toInt64 / 100
  let maxTimespan := (idealTimespan * NetParams.powMaxTimespanPercent.toUInt64).toInt64 / 100
  let actualTimespan := if actualTimespan < minTimespan then minTimespan else actualTimespan
  if maxTimespan < actualTimespan then maxTimespan else actualTimespan

def calculateNextWorkRequired (lastBits : UInt32) (lastBlockTime firstBlockTime : UInt64) :
    Except UintError UInt32 :=
  let actualTimespan := limitedTimespan lastBlockTime firstBlockTime
  let (bnNew, negative, overflow) := setCompact lastBits
  if negative || overflow || bnNew.equalTo 0 then .ok NetParams.powLimitCompact
  else do
    let bnNew := bnNew.scale actualTimespan.toUInt64.toUInt32.toBitVec
    let bnNew ← bnNew.divide (ofWord NetParams.powTargetTimespan.toBitVec)
    let bnNew := if 0 < bnNew.compareTo bnPowLimit then bnPowLimit else bnNew
    return bnNew.getCompact false

def isRetargetHeight (height : UInt64) : Bool :=
  if height = 0 then false
  else height % NetParams.difficultyAdjustmentInterval.toUInt64 = 0

def getBlockProof (bits : UInt32) : Except UintError Bytes32 :=
  let (bnTarget, fNegative, fOverflow) := setCompact bits
  if fNegative || fOverflow || bnTarget.equalTo 0 then .ok 0
  else do
    let quotient ← bnTarget.complement.divide (bnTarget.add (ofWord 1))
    return arithToBytes32 (quotient.add (ofWord 1))

def addChainWork (parentWork : Bytes32) (bits : UInt32) : Except UintError Bytes32 := do
  let total := arithFromBytes32 parentWork
  let proof ← getBlockProof bits
  return arithToBytes32 (total.add (arithFromBytes32 proof))

def compareWork (a b : Bytes32) : Int := memcmp a.toBytes b.toBytes

def compactToTarget (bits : UInt32) : Bytes32 :=
  let (bnTarget, fNegative, fOverflow) := setCompact bits
  if fNegative || fOverflow || bnTarget.equalTo 0 then 0 else arithToBytes32 bnTarget

/-! ### Targets -/

theorem equalTo_zero_iff (bits : UInt32) : (setCompact bits).1.equalTo 0 = true ↔ target bits = 0 :=
  equalTo_iff (setCompact bits).1 0

theorem denotes_iff (bits : UInt32) : Denotes bits ↔ ((setCompact bits).2.1 ||
    (setCompact bits).2.2 || (setCompact bits).1.equalTo 0) = false := by
  have zero : (setCompact bits).1.equalTo 0 = false ↔ 0 < target bits := by
    rw [← Bool.not_eq_true, equalTo_zero_iff, Nat.pos_iff_ne_zero]
  simp only [Bool.or_eq_false_iff, zero]
  exact ⟨fun d => ⟨⟨d.notNegative, d.fits⟩, d.positive⟩, fun ⟨⟨n, f⟩, p⟩ => ⟨p, n, f⟩⟩

theorem value_bnPowLimit : bnPowLimit.value = 0xffff * 2 ^ 208 := by
  rw [bnPowLimit, value_setCompact]
  decide

/-- The target is one a block may have. -/
structure InRange (bits : UInt32) : Prop extends Denotes bits where
  limited : target bits ≤ 0xffff * 2 ^ 208

/-- A hash passes when its number is at most the target, and the target is in range. -/
theorem checkProofOfWork_iff (hash : Bytes32) (bits : UInt32) :
    checkProofOfWork hash bits = true ↔ InRange bits ∧ hash.toNat ≤ target bits := by
  have limited : 0 < (setCompact bits).1.compareTo bnPowLimit ↔ 0xffff * 2 ^ 208 < target bits := by
    rw [compareTo_pos_iff, value_bnPowLimit, target]
  have above : 0 < (arithFromBytes32 hash).compareTo (setCompact bits).1 ↔
      target bits < hash.toNat := by
    rw [compareTo_pos_iff, value_arithFromBytes32, target]
  have rejects : ((setCompact bits).2.1 || (setCompact bits).1.equalTo 0 || (setCompact bits).2.2 ||
      decide (0 < (setCompact bits).1.compareTo bnPowLimit)) = false ↔ InRange bits := by
    rw [Bool.or_right_comm (setCompact bits).2.1, Bool.or_eq_false_iff, ← denotes_iff,
      decide_eq_false_iff_not, limited, Nat.not_lt]
    exact ⟨fun ⟨d, l⟩ => ⟨d, l⟩, fun r => ⟨r.toDenotes, r.limited⟩⟩
  rw [checkProofOfWork]
  simp only [above]
  split
  · rename_i rejected
    refine ⟨fun passed => absurd passed Bool.false_ne_true, fun ⟨range, _⟩ => ?_⟩
    rw [rejects.mpr range] at rejected
    exact absurd rejected Bool.false_ne_true
  · rename_i kept
    have range := rejects.mp (Bool.eq_false_iff.mpr kept)
    split
    · rename_i large
      exact ⟨fun passed => absurd passed Bool.false_ne_true, fun ⟨_, small⟩ => by omega⟩
    · rename_i small
      exact ⟨fun _ => ⟨range, Nat.le_of_not_lt small⟩, fun _ => rfl⟩

/-! ### Work -/

/-- The work of the bits: the hashes it takes on average to find one at or below the target. -/
def work (bits : UInt32) : Nat :=
  if (setCompact bits).2.1 || (setCompact bits).2.2 || (setCompact bits).1.equalTo 0 then 0
  else 2 ^ 256 / (target bits + 1)

theorem work_of_denotes {bits : UInt32} (denotes : Denotes bits) :
    work bits = 2 ^ 256 / (target bits + 1) := by
  rw [work, if_neg (Bool.eq_false_iff.mp ((denotes_iff bits).mp denotes))]

theorem work_of_not_denotes {bits : UInt32} (none : ¬ Denotes bits) : work bits = 0 := by
  rw [work, if_pos (Bool.not_eq_false _ ▸ mt (denotes_iff bits).mpr none)]

theorem work_lt (bits : UInt32) : work bits < 2 ^ 256 := by
  by_cases denotes : Denotes bits
  · rw [work_of_denotes denotes]
    have positive := denotes.positive
    exact Nat.div_lt_self (Nat.two_pow_pos _) (by omega)
  · rw [work_of_not_denotes denotes]
    exact Nat.two_pow_pos _

/-- No target a block may have is met by fewer hashes on average. -/
theorem le_work {bits : UInt32} (range : InRange bits) : 4295032833 ≤ work bits := by
  have limited := range.limited
  rw [work_of_denotes range.toDenotes, Nat.le_div_iff_mul_le (Nat.succ_pos _)]
  omega

/-- A target is small or ends in a zero byte, so it is not the greatest number there is. -/
theorem target_succ_lt (bits : UInt32) : target bits + 1 < 2 ^ 256 := by
  have mantissa : bits.toNat % 2 ^ 23 < 2 ^ 23 := Nat.mod_lt _ (Nat.two_pow_pos _)
  rw [target, value_setCompact]
  generalize bits.toNat % 2 ^ 23 = m at mantissa
  generalize bits.toNat / 2 ^ 24 = size
  by_cases small : size ≤ 3
  · have below : Compact.decode size m ≤ m := by
      rw [Compact.decode, show size - 3 = 0 by omega, Nat.pow_zero, Nat.mul_one]
      exact Nat.div_le_self _ _
    have kept := Nat.mod_le (Compact.decode size m) (2 ^ 256)
    omega
  · have bytes : 256 ∣ Compact.decode size m := by
      rw [Compact.decode, show size - 3 = size - 4 + 1 by omega, Nat.pow_succ, ← Nat.mul_assoc]
      exact Nat.dvd_mul_left _ _
    have low : 256 ∣ Compact.decode size m % 2 ^ 256 :=
      (Nat.dvd_mod_iff (by decide : 256 ∣ 2 ^ 256)).mpr bytes
    have below := Nat.mod_lt (Compact.decode size m) (Nat.two_pow_pos 256)
    omega

/-- One less than the target's complement, divided and counted up, is the whole quotient. -/
theorem work_quotient {t : Nat} (small : t + 1 < 2 ^ 256) :
    (2 ^ 256 - 1 - t) / (t + 1) + 1 = 2 ^ 256 / (t + 1) := by
  rw [Nat.div_eq_sub_div (Nat.succ_pos t) small.le]
  congr 2
  omega

theorem getBlockProof_eq (bits : UInt32) :
    ∃ proof : Bytes32, getBlockProof bits = .ok proof ∧ proof.toNat = work bits := by
  have bounded := work_lt bits
  rw [work] at bounded
  rw [getBlockProof, work]
  simp only
  split
  · exact ⟨0, rfl, rfl⟩
  · rename_i given
    rw [if_neg given] at bounded
    have small := target_succ_lt bits
    have one : ((setCompact bits).1.add (ofWord 1)).value = target bits + 1 := by
      rw [value_add, value_ofWord]
      exact Nat.mod_eq_of_lt small
    have rest : (setCompact bits).1.complement.value = 2 ^ 256 - 1 - target bits := by
      have whole := value_complement (setCompact bits).1
      change _ + target bits + 1 = 2 ^ 256 at whole
      omega
    obtain ⟨quotient, divided, exact⟩ :=
      value_divide (setCompact bits).1.complement ((setCompact bits).1.add (ofWord 1)) (by omega)
    rw [rest, one] at exact
    have whole := work_quotient small
    rw [divided]
    refine ⟨_, rfl, ?_⟩
    rw [toNat_arithToBytes32, value_add, value_ofWord, exact]
    change ((2 ^ 256 - 1 - target bits) / (target bits + 1) + 1) % 2 ^ 256 = _
    rw [whole, Nat.mod_eq_of_lt bounded]

/-- The work of a chain grows by that of the block, what exceeds 256 bits falling off. -/
theorem addChainWork_eq (parentWork : Bytes32) (bits : UInt32) :
    ∃ total : Bytes32, addChainWork parentWork bits = .ok total ∧
      total.toNat = (parentWork.toNat + work bits) % 2 ^ 256 := by
  obtain ⟨proof, found, exact⟩ := getBlockProof_eq bits
  rw [addChainWork, found]
  refine ⟨_, rfl, ?_⟩
  rw [toNat_arithToBytes32, value_add, value_arithFromBytes32, value_arithFromBytes32, exact]

theorem compareWork_spec (a b : Bytes32) :
    (compareWork a b < 0 ↔ a.toNat < b.toNat) ∧ (0 < compareWork a b ↔ b.toNat < a.toNat) := by
  have spelled (h : Bytes32) : ofBE h.toBytes = h.toNat := by
    rw [← value_arithFromBytes32]
    exact (value_words (w := 8) h.length_toBytes).symm
  have same : a.toBytes.length = b.toBytes.length :=
    a.length_toBytes.trans b.length_toBytes.symm
  have order := memcmp_spec same
  rwa [spelled, spelled] at order

/-! ### The retarget -/

theorem limitedTimespan_eq (last first : UInt64) : limitedTimespan last first =
    let actual := last.toInt64 - first.toInt64
    let actual := if actual < 967680 then 967680 else actual
    if 4838400 < actual then 4838400 else actual := by
  have lowest : (NetParams.powTargetTimespan * NetParams.powMinTimespanPercent.toUInt64).toInt64 /
      100 = 967680 := by decide
  have highest : (NetParams.powTargetTimespan * NetParams.powMaxTimespanPercent.toUInt64).toInt64 /
      100 = 4838400 := by decide
  simp only [limitedTimespan, lowest, highest]

theorem toInt_toInt64 {time : UInt64} (dated : time.toNat < 2 ^ 63) :
    time.toInt64.toInt = time.toNat := by
  have small : 2 * time.toBitVec.toNat < 2 ^ 64 := by
    rw [UInt64.toNat_toBitVec]
    omega
  exact BitVec.toInt_eq_toNat_of_lt small

/-- Whatever the times are, the factor is within the bounds. -/
theorem limitedTimespan_bounds (last first : UInt64) :
    967680 ≤ (limitedTimespan last first).toInt ∧ (limitedTimespan last first).toInt ≤ 4838400 := by
  have min : (967680 : Int64).toInt = 967680 := by decide
  have max : (4838400 : Int64).toInt = 4838400 := by decide
  rw [limitedTimespan_eq]
  dsimp only
  generalize last.toInt64 - first.toInt64 = elapsed
  by_cases short : elapsed < 967680
  · rw [if_pos short, if_neg (by decide), min]
    exact ⟨le_rfl, by decide⟩
  · rw [if_neg short]
    rw [Int64.lt_iff_toInt_lt, min] at short
    by_cases long : 4838400 < elapsed
    · rw [if_pos long, max]
      exact ⟨by decide, le_rfl⟩
    · rw [if_neg long]
      rw [Int64.lt_iff_toInt_lt, max] at long
      omega

/-- The seconds the retarget takes for the last interval. -/
def span (lastBlockTime firstBlockTime : UInt64) : Nat :=
  (limitedTimespan lastBlockTime firstBlockTime).toInt.toNat

theorem span_bounds (last first : UInt64) :
    967680 ≤ span last first ∧ span last first ≤ 4838400 := by
  have bounds := limitedTimespan_bounds last first
  rw [span]
  omega

/-- For times a block can have, it is the time between the two blocks, but four
fifths of the ideal at least and four times it at most. -/
theorem span_eq {last first : UInt64} (dated : last.toNat < 2 ^ 63)
    (datedFirst : first.toNat < 2 ^ 63) :
    span last first = max 967680 (min 4838400 (last.toNat - first.toNat)) := by
  have elapsed : (last.toInt64 - first.toInt64).toInt = (last.toNat : Int) - first.toNat := by
    rw [Int64.toInt_sub, toInt_toInt64 dated, toInt_toInt64 datedFirst]
    exact Int.bmod_eq_of_le (by omega) (by omega)
  have min : (967680 : Int64).toInt = 967680 := by decide
  have max : (4838400 : Int64).toInt = 4838400 := by decide
  rw [span, limitedTimespan_eq]
  dsimp only
  by_cases short : last.toInt64 - first.toInt64 < 967680
  · rw [if_pos short, if_neg (by decide), min]
    rw [Int64.lt_iff_toInt_lt, elapsed, min] at short
    omega
  · rw [if_neg short]
    rw [Int64.lt_iff_toInt_lt, elapsed, min] at short
    by_cases long : 4838400 < last.toInt64 - first.toInt64
    · rw [if_pos long, max]
      rw [Int64.lt_iff_toInt_lt, elapsed, max] at long
      omega
    · rw [if_neg long, elapsed]
      rw [Int64.lt_iff_toInt_lt, elapsed, max] at long
      omega

/-- The factor of the retarget fits the word it is cast to. -/
theorem toNat_factor (last first : UInt64) :
    (limitedTimespan last first).toUInt64.toUInt32.toBitVec.toNat = span last first := by
  have bounds := limitedTimespan_bounds last first
  have small := span_bounds last first
  have positive : 0 ≤ limitedTimespan last first := by
    rw [Int64.le_iff_toInt_le]
    exact (by decide : (0 : Int64).toInt ≤ 967680).trans bounds.1
  have whole : (limitedTimespan last first).toUInt64.toNat = span last first :=
    Int64.toNat_toUInt64_of_le positive
  rw [UInt32.toNat_toBitVec, UInt64.toNat_toUInt32, whole]
  exact Nat.mod_eq_of_lt (by omega)

/-- The bits a number is written with denote what is left of it. -/
theorem target_getCompact (x : ArithUint256) :
    target (x.getCompact false) = Compact.truncate x.value :=
  value_setCompact_getCompact x

theorem truncate_eq_zero_iff (x : Nat) : Compact.truncate x = 0 ↔ x = 0 := by
  rw [← Nat.size_eq_zero, Compact.size_truncate, Nat.size_eq_zero]

theorem denotes_getCompact_iff (x : ArithUint256) : Denotes (x.getCompact false) ↔ x.value ≠ 0 := by
  have kept := target_getCompact x
  have zero := truncate_eq_zero_iff x.value
  refine ⟨fun denotes => ?_, fun some => ⟨?_, setCompact_getCompact_negative x,
    setCompact_getCompact_overflow x⟩⟩
  · have positive := denotes.positive
    omega
  · omega

/-- What the retarget makes of a target, before it is written as bits. -/
def retarget (old seconds : Nat) : Nat :=
  min (0xffff * 2 ^ 208) (old * seconds % 2 ^ 256 / 1209600)

theorem calculateNextWorkRequired_eq {lastBits : UInt32} (denotes : Denotes lastBits)
    (last first : UInt64) :
    ∃ x : ArithUint256, calculateNextWorkRequired lastBits last first = .ok (x.getCompact false) ∧
      x.value = retarget (target lastBits) (span last first) := by
  have given := (denotes_iff lastBits).mp denotes
  have ideal : (ofWord NetParams.powTargetTimespan.toBitVec : ArithUint256).value = 1209600 := by
    rw [value_ofWord]
    rfl
  obtain ⟨quotient, divided, exact⟩ := value_divide
    ((setCompact lastBits).1.scale (limitedTimespan last first).toUInt64.toUInt32.toBitVec)
    (ofWord NetParams.powTargetTimespan.toBitVec) (by rw [ideal]; decide)
  rw [value_scale, toNat_factor, ideal] at exact
  refine ⟨if 0 < quotient.compareTo bnPowLimit then bnPowLimit else quotient, ?_, ?_⟩
  · rw [calculateNextWorkRequired]
    simp only [given, Bool.false_eq_true, if_false]
    rw [divided]
    rfl
  · have large : 0 < quotient.compareTo bnPowLimit ↔ 0xffff * 2 ^ 208 < quotient.value := by
      rw [compareTo_pos_iff, value_bnPowLimit]
    rw [retarget, target]
    change quotient.value = (setCompact lastBits).1.value * span last first % 2 ^ 256 / _ at exact
    rw [← exact]
    simp only [large]
    split
    · rw [value_bnPowLimit]
      omega
    · omega

theorem calculateNextWorkRequired_of_not_denotes {lastBits : UInt32} (none : ¬ Denotes lastBits)
    (last first : UInt64) :
    calculateNextWorkRequired lastBits last first = .ok NetParams.powLimitCompact := by
  have rejected := Bool.not_eq_false _ ▸ mt (denotes_iff lastBits).mpr none
  rw [calculateNextWorkRequired]
  simp only [rejected, if_true]

/-- Nothing is lost above 256 bits when the target is in range. -/
theorem retarget_of_le {old seconds : Nat} (limited : old ≤ 0xffff * 2 ^ 208)
    (bounded : seconds ≤ 4838400) :
    retarget old seconds = min (0xffff * 2 ^ 208) (old * seconds / 1209600) := by
  have product : old * seconds ≤ 0xffff * 2 ^ 208 * 4838400 := Nat.mul_le_mul limited bounded
  rw [retarget, Nat.mod_eq_of_lt (product.trans_lt (by decide))]

theorem retarget_mono {old seconds more : Nat} (limited : old ≤ 0xffff * 2 ^ 208)
    (bounded : more ≤ 4838400) (le : seconds ≤ more) : retarget old seconds ≤ retarget old more := by
  rw [retarget_of_le limited bounded, retarget_of_le limited (le.trans bounded)]
  exact min_le_min_left _ (Nat.div_le_div_right (Nat.mul_le_mul_left old le))

/-- A target of one stays above zero only when the interval took its time. -/
theorem retarget_eq_zero_iff {old seconds : Nat} (limited : old ≤ 0xffff * 2 ^ 208)
    (positive : 0 < old) (least : 967680 ≤ seconds) (bounded : seconds ≤ 4838400) :
    retarget old seconds = 0 ↔ old = 1 ∧ seconds < 1209600 := by
  rw [retarget_of_le limited bounded]
  have quotient : old * seconds / 1209600 = 0 ↔ old * seconds < 1209600 := by
    rw [Nat.div_eq_zero_iff]
    omega
  have some : min (0xffff * 2 ^ 208) (old * seconds / 1209600) = 0 ↔
      old * seconds / 1209600 = 0 := by
    omega
  rw [some, quotient]
  constructor
  · intro small
    have one : old = 1 := by
      by_contra more
      have double : 2 * seconds ≤ old * seconds := Nat.mul_le_mul_right seconds (by omega)
      omega
    rw [one, Nat.one_mul] at small
    exact ⟨one, small⟩
  · rintro ⟨rfl, small⟩
    rwa [Nat.one_mul]

/-- The bits of a retarget can be met by a block, unless the target was one already
and the interval was short. -/
theorem inRange_retarget_iff {lastBits : UInt32} (range : InRange lastBits) (last first : UInt64) :
    ∃ bits, calculateNextWorkRequired lastBits last first = .ok bits ∧
      (InRange bits ↔ ¬ (target lastBits = 1 ∧ span last first < 1209600)) := by
  obtain ⟨least, most⟩ := span_bounds last first
  obtain ⟨x, written, value⟩ := calculateNextWorkRequired_eq range.toDenotes last first
  refine ⟨_, written, ?_⟩
  rw [← retarget_eq_zero_iff range.limited range.positive least most, ← value, ← ne_eq,
    ← denotes_getCompact_iff]
  refine ⟨InRange.toDenotes, fun denotes => ⟨denotes, ?_⟩⟩
  rw [target_getCompact, value, retarget_of_le range.limited most]
  exact (Compact.truncate_le _).trans (min_le_left _ _)

/-- **The retarget.** After an interval the target is scaled by the time it took,
that time limited to between four fifths of the ideal and four times it, kept at
or below the network's limit and written as bits. It falls to no less than four
fifths and rises to no more than four times, up to the bytes bits do not keep; an
interval that took longer never makes it smaller. A block can meet it, unless it
was one already and the interval was short. Nothing is divided by zero. -/
theorem retarget_exact {lastBits : UInt32} (range : InRange lastBits) {last first : UInt64}
    (dated : last.toNat < 2 ^ 63) (datedFirst : first.toNat < 2 ^ 63) :
    let seconds := max 967680 (min 4838400 (last.toNat - first.toNat))
    ∃ bits, calculateNextWorkRequired lastBits last first = .ok bits ∧
      target bits = Compact.truncate
        (min (0xffff * 2 ^ 208) (target lastBits * seconds / 1209600)) ∧
      (InRange bits ↔ ¬ (target lastBits = 1 ∧ seconds < 1209600)) ∧
      Compact.truncate (4 * target lastBits / 5) ≤ target bits ∧
      target bits ≤ 4 * target lastBits ∧
      ∀ later : UInt64, last ≤ later → later.toNat < 2 ^ 63 →
        ∃ easier, calculateNextWorkRequired lastBits later first = .ok easier ∧
          target bits ≤ target easier := by
  have exact := span_eq dated datedFirst
  obtain ⟨least, most⟩ := span_bounds last first
  obtain ⟨x, written, value⟩ := calculateNextWorkRequired_eq range.toDenotes last first
  obtain ⟨_, same, inRange⟩ := inRange_retarget_iff range last first
  cases written.symm.trans same
  rw [retarget_of_le range.limited most] at value
  rw [← exact]
  refine ⟨_, written, ?_, inRange, ?_, ?_, fun later after dated' => ?_⟩
  · rw [target_getCompact, value]
  · rw [target_getCompact, value]
    refine Compact.truncate_mono (le_min ?_ ?_)
    · have limited := range.limited
      omega
    · have scaled := Nat.mul_le_mul_left (target lastBits) least
      omega
  · rw [target_getCompact, value]
    refine (Compact.truncate_le _).trans ((min_le_right _ _).trans ?_)
    have scaled := Nat.mul_le_mul_left (target lastBits) most
    omega
  · obtain ⟨y, written', value'⟩ := calculateNextWorkRequired_eq range.toDenotes later first
    refine ⟨_, written', ?_⟩
    have longer : span last first ≤ span later first := by
      have le := UInt64.le_iff_toNat_le.mp after
      rw [exact, span_eq dated' datedFirst]
      omega
    rw [target_getCompact, target_getCompact, value, value',
      ← retarget_of_le range.limited most]
    exact Compact.truncate_mono (retarget_mono range.limited (span_bounds later first).2 longer)

theorem target_powLimitCompact : target NetParams.powLimitCompact = 0xffff * 2 ^ 208 :=
  value_bnPowLimit

theorem inRange_powLimitCompact : InRange NetParams.powLimitCompact where
  positive := by
    rw [target_powLimitCompact]
    decide
  notNegative := by decide
  fits := by decide
  limited := target_powLimitCompact.le

theorem retarget_exact_powLimit :
    let seconds := max 967680 (min 4838400 ((1900000 : UInt64).toNat - (100000 : UInt64).toNat))
    ∃ bits, calculateNextWorkRequired NetParams.powLimitCompact 1900000 100000 = .ok bits ∧
      target bits = Compact.truncate
        (min (0xffff * 2 ^ 208) (target NetParams.powLimitCompact * seconds / 1209600)) ∧
      (InRange bits ↔ ¬ (target NetParams.powLimitCompact = 1 ∧ seconds < 1209600)) ∧
      Compact.truncate (4 * target NetParams.powLimitCompact / 5) ≤ target bits ∧
      target bits ≤ 4 * target NetParams.powLimitCompact ∧
      ∀ later : UInt64, 1900000 ≤ later → later.toNat < 2 ^ 63 →
        ∃ easier, calculateNextWorkRequired NetParams.powLimitCompact later 100000 = .ok easier ∧
          target bits ≤ target easier :=
  retarget_exact inRange_powLimitCompact (by decide) (by decide)

end Pow

end QmaskCore
