import QmaskCore.Params

/-!
A small network, for concrete runs.

`smallNetwork` gives every parameter of the node a value that can be computed
with: the digest keeps the last 32 bytes, every proof of work passes, work is
counted in blocks. `valueOutExact_smallNetwork` and
`moneyRangeComplete_smallNetwork` say it behaves as the results that have these
hypotheses ask. `mint` and `pay` build transactions on it.
-/

namespace QmaskCore

namespace SmallNetwork

def getValueOut (tx : Transaction) : Int64 :=
  if (∃ out ∈ tx.outputs, out.value < 0) ∨ 2 ^ 63 ≤ tx.totalOut then -1
  else Int64.ofInt tx.totalOut

/-- A coinbase with one output. -/
def mint (hash : Bytes32) (value : Int64) : Transaction where
  inputs := [⟨0, 0xFFFFFFFF, 0, 0, 0, []⟩]
  outputs := [.payTo value 1]
  hash
  isCoinbase := true
  inputs_le := by simp [Transaction.maxInputs]
  outputs_le := by simp [Transaction.maxOutputs]

/-- The only leaf of a KPS, bound to a transaction. -/
def proof (kps hash : Bytes32) : List UInt8 :=
  writeLE32 0 ++ kps.toBytes ++ hash.toBytes ++ writeLE32 0

/-- A payment of one coin to one output, with the KPS whose leaf it reveals. -/
def pay (hash source kps : Bytes32) (value : Int64) : Transaction where
  inputs := [⟨source, 0, 0, 0, kps, proof kps hash⟩]
  outputs := [.payTo value 1]
  hash
  isCoinbase := false
  inputs_le := by simp [Transaction.maxInputs]
  outputs_le := by simp [Transaction.maxOutputs]

theorem fits_mint (hash : Bytes32) (value : Int64) :
    [mint hash value].length ≤ Block.maxTransactions := by
  simp [Block.maxTransactions]

theorem fits_two : [mint 2 10].length ≤ Block.maxTransactions := fits_mint 2 10

theorem fits_three : [mint 3 10].length ≤ Block.maxTransactions := fits_mint 3 10

theorem fits_four : [mint 4 10].length ≤ Block.maxTransactions := fits_mint 4 10

/-- A block on a parent, with the roots of its transactions. -/
def mine (prevBlockHash : Bytes32) (height nonce : UInt32) (transactions : List Transaction)
    (fits : transactions.length ≤ Block.maxTransactions) : Block :=
  let bare : Block := ⟨⟨1, prevBlockHash, 0, 0, 10 + height.toUInt64, height, 1, nonce⟩,
    transactions, fits⟩
  { bare with
    header := { bare.header with
      merkleRoot := bare.computeMerkleRoot Bytes32.ofBytes
      leafRoot := bare.computeLeafRoot Bytes32.ofBytes } }

def genesis : Block := mine 0 0 0 [mint 1 50] (by decide)

end SmallNetwork

open SmallNetwork in
def smallNetwork : Params where
  genesisTimestamp := 10
  maxMoney := 1000
  powLimitCompact := 1
  difficultyAdjustmentInterval := 10
  coinbaseMaturity := 1
  maxBlockSize := 1000
  maxOpReturnSize := 80
  minFeePerByte := 0
  minTxFee := 0
  dustThreshold := 0
  noiseLeafCount := 1
  noiseProofsPerInput := 1
  checkpoints := []
  genesisHash := genesis.getHash Bytes32.ofBytes
  buildGenesisBlock := genesis
  getBlockSubsidy _ := 10
  checkMoneyRange value := value ≤ 1000
  checkProofOfWork _ _ := true
  isRetargetHeight _ := false
  calculateNextWorkRequired bits _ _ := bits
  addChainWork work bits := work + BitVec.ofNat 256 bits.toNat
  compareWork a b := (a.toNat : Int) - b.toNat
  sha256 := Bytes32.ofBytes
  getValueOut
  getSerializedSize _ := 100
  verifySignature _ _ _ := true
  cacheOrder := id
  cacheOrder_perm := .refl

theorem valueOutExact_smallNetwork : smallNetwork.ValueOutExact where
  exact tx nonneg fits := by
    change (SmallNetwork.getValueOut tx).toInt = _
    have sound : ¬ ((∃ out ∈ tx.outputs, out.value < 0) ∨ 2 ^ 63 ≤ tx.totalOut) := by
      rintro (⟨out, mem, negative⟩ | large)
      · exact Int64.not_le.mpr negative (nonneg out mem)
      · omega
    have positive := Transaction.totalOut_nonneg nonneg
    rw [SmallNetwork.getValueOut, if_neg sound]
    exact Int64.toInt_ofInt_of_le (by omega) (by omega)
  fails tx broken := by
    change SmallNetwork.getValueOut tx < 0
    rw [SmallNetwork.getValueOut, if_pos broken]
    decide

theorem moneyRangeComplete_smallNetwork : smallNetwork.MoneyRangeComplete := by
  intro n small
  have limit : smallNetwork.maxMoney.toInt = 1000 := rfl
  rw [limit] at small
  have below : n.toNat ≤ 1000 := by omega
  exact decide_eq_true (UInt64.le_iff_toNat_le.mpr below)

end QmaskCore
