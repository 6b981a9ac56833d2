import Mathlib.Algebra.Order.BigOperators.Group.List
import QmaskCore.Storage.Coins

/-!
What the node takes from outside the modelled sources.

`chainparams.h`, `pow.h` and `transaction.h` declare constants and functions
whose definitions this tree does not hold, and the digest is a library's.
All of them are fields of `Params`, so every result holds whatever they are.
A result that needs one of them to behave as its header documents says so
with a predicate of this module: `Params.ValueOutExact`,
`Params.MoneyRangeComplete`, `Transaction.CoinbaseShape`.
-/

namespace QmaskCore

/-- An entry of `MAINNET_CHECKPOINTS`, its hash already decoded from hex. -/
structure Checkpoint where
  height : UInt64
  blockHash : Bytes32
deriving DecidableEq

structure Params where
  -- `NetParams`
  genesisTimestamp : UInt64
  maxMoney : Int64
  powLimitCompact : UInt32
  difficultyAdjustmentInterval : UInt32
  coinbaseMaturity : UInt32
  maxBlockSize : UInt32
  maxOpReturnSize : UInt32
  minFeePerByte : Int64
  minTxFee : Int64
  dustThreshold : Int64
  noiseLeafCount : UInt32
  noiseProofsPerInput : UInt32
  checkpoints : List Checkpoint
  genesisHash : Bytes32
  buildGenesisBlock : Block
  getBlockSubsidy : UInt64 → UInt64
  checkMoneyRange : UInt64 → Bool
  -- `PNC`
  checkProofOfWork : Bytes32 → UInt32 → Bool
  isRetargetHeight : UInt64 → Bool
  calculateNextWorkRequired : UInt32 → UInt64 → UInt64 → UInt32
  addChainWork : Bytes32 → UInt32 → Bytes32
  compareWork : Bytes32 → Bytes32 → Int
  -- the digest and the methods of `Transaction`
  sha256 : List UInt8 → Bytes32
  getValueOut : Transaction → Int64
  getSerializedSize : Transaction → Nat
  verifySignature : Transaction → Nat → TxOutput → Bool
  /-- The order in which the coin cache, an unordered map, is walked. -/
  cacheOrder : List OutPoint → List OutPoint
  cacheOrder_perm : ∀ keys, (cacheOrder keys).Perm keys

/-- What a transaction pays out, as a number that cannot overflow. -/
def Transaction.totalOut (tx : Transaction) : Int := (tx.outputs.map (·.value.toInt)).sum

theorem Transaction.totalOut_nonneg {tx : Transaction} (nonneg : ∀ out ∈ tx.outputs, 0 ≤ out.value) :
    0 ≤ tx.totalOut := by
  apply List.sum_nonneg
  intro v mem
  obtain ⟨out, memOut, rfl⟩ := List.mem_map.mp mem
  exact Int64.le_iff_toInt_le.mp (nonneg out memOut)

/-- `GetValueOut` is the exact sum of the outputs, and answers with a negative
number, which every caller tests for, when an output is negative or the sum
does not fit. -/
structure Params.ValueOutExact (P : Params) : Prop where
  exact : ∀ tx : Transaction, (∀ out ∈ tx.outputs, 0 ≤ out.value) → tx.totalOut < 2 ^ 63 →
    (P.getValueOut tx).toInt = tx.totalOut
  fails : ∀ tx : Transaction, (∃ out ∈ tx.outputs, out.value < 0) ∨ 2 ^ 63 ≤ tx.totalOut →
    P.getValueOut tx < 0

/-- `CheckMoneyRange` lets through every amount up to `MAX_MONEY`. -/
def Params.MoneyRangeComplete (P : Params) : Prop :=
  ∀ n : UInt64, (n.toNat : Int) ≤ P.maxMoney.toInt → P.checkMoneyRange n = true

/-- A coinbase spends nothing that can exist: one of its inputs has the null index. -/
def Transaction.CoinbaseShape (tx : Transaction) : Prop :=
  tx.isCoinbase = true → ∃ input ∈ tx.inputs, input.outputIndex = 0xFFFFFFFF

namespace Params

variable {P : Params}

/-- When `GetValueOut` does not report a failure, no output is negative and the
answer is the sum. -/
theorem ValueOutExact.of_nonneg (exact : P.ValueOutExact) {tx : Transaction}
    (ok : 0 ≤ P.getValueOut tx) :
    (∀ out ∈ tx.outputs, 0 ≤ out.value) ∧ (P.getValueOut tx).toInt = tx.totalOut := by
  have sound : ∀ out ∈ tx.outputs, 0 ≤ out.value := by
    intro out mem
    by_contra negative
    exact absurd (exact.fails tx (.inl ⟨out, mem, Int64.not_le.mp negative⟩)) (Int64.not_lt.mpr ok)
  have fits : tx.totalOut < 2 ^ 63 := by
    by_contra large
    exact absurd (exact.fails tx (.inr (not_lt.mp large))) (Int64.not_lt.mpr ok)
  exact ⟨sound, exact.exact tx sound fits⟩

end Params

/-- Bytes a block takes on disk and on the wire. -/
def Block.getSerializedSize (P : Params) (b : Block) : Nat :=
  BlockHeader.serializedSize + 4 + (b.transactions.map fun tx => 4 + P.getSerializedSize tx).sum

end QmaskCore
