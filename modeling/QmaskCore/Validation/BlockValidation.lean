import QmaskCore.Validation.TxValidation

/-!
`BlockValidation`: the rules a block must satisfy.

`checkBlock` needs the block and the clock; `checkBlockTransactionsWithUTXO`
reads a store of coins. `validateBlock` runs both, as `AcceptBlock` does for
every block that arrives.
-/

namespace QmaskCore

open Checks

inductive BlockValidationResult where
  | valid
  | invalidHeader
  | invalidMerkleRoot
  | invalidTimestamp
  | invalidHeight
  | invalidPrevHash
  | invalidPow
  | invalidCoinbase
  | invalidTransaction
  | invalidTooLarge
  | invalidDuplicateTx
  | invalidGenesis
deriving DecidableEq, Repr

/-- What `SetInvalid` leaves behind. -/
structure BlockValidationState where
  result : BlockValidationResult
  reason : String
deriving DecidableEq

namespace BlockValidation

abbrev Check := Except BlockValidationState Unit

/-- `now` is the clock in seconds. -/
def checkBlockHeader (P : Params) (now : UInt64) (header : BlockHeader) : Check := do
  rejectIf (header.version = 0) ⟨.invalidHeader, "Block version is zero"⟩
  rejectIf (header.timestamp < P.genesisTimestamp)
    ⟨.invalidHeader, "Block timestamp precedes the genesis block"⟩
  rejectIf (header.timestamp = 0) ⟨.invalidTimestamp, "Block timestamp is zero"⟩
  rejectIf (now + 7200 < header.timestamp)
    ⟨.invalidTimestamp, "Block timestamp too far in the future"⟩
  rejectIf (header.merkleRoot = 0) ⟨.invalidMerkleRoot, "Block merkle root is zero"⟩
  rejectIf (P.checkProofOfWork (header.getHash P.sha256) header.bits = false)
    ⟨.invalidPow, "Proof of work does not satisfy the declared target"⟩

def checkBlockSize (P : Params) (block : Block) : Check :=
  rejectIf (P.maxBlockSize.toNat < block.getSerializedSize P)
    ⟨.invalidTooLarge, "Block size " ++ toString (block.getSerializedSize P) ++
      " exceeds maximum " ++ toString P.maxBlockSize.toNat⟩

def checkMerkleRoot (P : Params) (block : Block) : Check :=
  rejectIf (block.computeMerkleRoot P.sha256 ≠ block.header.merkleRoot)
    ⟨.invalidMerkleRoot, "Merkle root mismatch"⟩

/-- The transactions behind the first: none is a coinbase and each is valid by itself. -/
def checkPaymentsFrom (P : Params) : Nat → List Transaction → Check
  | _, [] => .ok ()
  | i, tx :: txs => do
      rejectIf (tx.isCoinbase = true)
        ⟨.invalidCoinbase, "Only first transaction can be coinbase"⟩
      onError (fun txState : TxValidationState =>
          ⟨.invalidTransaction, "Transaction " ++ toString i ++ " invalid: " ++ txState.reason⟩)
        (TxValidation.checkTransaction P tx)
      checkPaymentsFrom P (i + 1) txs

def checkBlockTransactions (P : Params) (block : Block) : Check :=
  match block.transactions with
  | [] => .error ⟨.invalidTransaction, "Block has no transactions"⟩
  | first :: payments => do
      rejectIf (first.isCoinbase = false)
        ⟨.invalidCoinbase, "First transaction must be coinbase"⟩
      checkPaymentsFrom P 1 payments

/-- The first position whose hash occurred before is reported. -/
def checkHashesFrom : Nat → List Bytes32 → List Transaction → Check
  | _, _, [] => .ok ()
  | i, txHashes, tx :: txs => do
      rejectIf (tx.hash ∈ txHashes)
        ⟨.invalidDuplicateTx, "Duplicate transaction at index " ++ toString i⟩
      checkHashesFrom (i + 1) (txHashes ++ [tx.hash]) txs

def checkDuplicateTransactions (block : Block) : Check := checkHashesFrom 0 [] block.transactions

def checkBlock (P : Params) (now : UInt64) (block : Block) : Check := do
  checkBlockHeader P now block.header
  checkBlockSize P block
  checkMerkleRoot P block
  checkBlockTransactions P block
  checkDuplicateTransactions block

def checkBlockReveals (P : Params) (block : Block) : Check :=
  rejectIf (block.computeLeafRoot P.sha256 ≠ block.header.leafRoot)
    ⟨.invalidMerkleRoot, "Leaf root does not match the noise proofs in this block"⟩

/-- What the network's genesis block must look like. -/
def checkGenesisBlock (P : Params) (block : Block) : Check :=
  match block.transactions with
  | [] => .error ⟨.invalidGenesis, "Genesis block has no transactions"⟩
  | first :: _ => do
      rejectIf (first.isCoinbase = false)
        ⟨.invalidGenesis, "Genesis block first transaction is not coinbase"⟩
      rejectIf (block.header.height ≠ 0) ⟨.invalidGenesis, "Genesis block height must be zero"⟩
      rejectIf (block.header.prevBlockHash ≠ 0)
        ⟨.invalidGenesis, "Genesis block prev hash must be zero"⟩
      rejectIf (block.header.timestamp ≠ P.genesisTimestamp)
        ⟨.invalidGenesis, "Genesis block timestamp mismatch"⟩

/-! ### Against the coins -/

/-- The error a transaction's own check turns into. -/
def inTransaction (i : Nat) (what : String) (txState : TxValidationState) : BlockValidationState :=
  ⟨.invalidTransaction, "Transaction " ++ toString i ++ what ++ txState.reason⟩

/-- The unsigned total of the inputs, for the accounting of fees. -/
def feeInputsFrom (view : CoinsView) (i : Nat) :
    UInt64 → List TxInput → Except BlockValidationState UInt64
  | txIn, [] => .ok txIn
  | txIn, input :: inputs =>
      match view.getCoin input.outpoint with
      | none => .error ⟨.invalidTransaction, "Transaction " ++ toString i ++
          " input missing during fee accounting"⟩
      | some coin => do
          rejectIf (txIn + coin.value.toUInt64 < txIn)
            ⟨.invalidTransaction, "Input value overflow during fee accounting"⟩
          feeInputsFrom view i (txIn + coin.value.toUInt64) inputs

/-- The unsigned total of the outputs. -/
def feeOutputs (tx : Transaction) : UInt64 :=
  tx.outputs.foldl (fun txOut out => txOut + out.value.toUInt64) 0

/-- The transactions behind the coinbase, with the outpoints spent and the
leaves claimed by those before. -/
def checkPaymentsWithUTXOFrom (P : Params) (view : CoinsView) (currentHeight : UInt32) :
    Nat → List OutPoint → List NoiseLeafKey → List Transaction → Check
  | _, _, _, [] => .ok ()
  | i, blockOutpoints, blockLeaves, tx :: txs => do
      rejectIf (¬ (blockOutpoints ++ tx.inputs.map (·.outpoint)).Nodup)
        ⟨.invalidTransaction, "Transaction " ++ toString i ++
          " spends an output already spent within this block"⟩
      onError (inTransaction i " UTXO check failed: ")
        (TxValidation.checkTransactionWithUTXO P view currentHeight tx)
      let blockLeaves ← onError (inTransaction i " signature verification failed: ")
        (TxValidation.verifyTransactionSignatures P view tx blockLeaves)
      let txIn ← feeInputsFrom view i 0 tx.inputs
      rejectIf (txIn < feeOutputs tx)
        ⟨.invalidTransaction, "Transaction " ++ toString i ++ " outputs exceed inputs"⟩
      checkPaymentsWithUTXOFrom P view currentHeight (i + 1)
        (blockOutpoints ++ tx.inputs.map (·.outpoint)) blockLeaves txs

/-- The coinbase may pay out the subsidy and the fees. The source declares the
total of fees and never adds to it. -/
def checkReward (P : Params) (currentHeight : UInt32) (coinbase : Transaction) : Check := do
  let totalFees : UInt64 := 0
  let subsidy := P.getBlockSubsidy currentHeight.toUInt64
  let allowed := subsidy + totalFees
  rejectIf (allowed < subsidy) ⟨.invalidCoinbase, "Block reward overflow (subsidy + fees)"⟩
  let coinbaseOut := P.getValueOut coinbase
  rejectIf (coinbaseOut < 0) ⟨.invalidCoinbase, "Coinbase output value is negative"⟩
  rejectIf (allowed < coinbaseOut.toUInt64)
    ⟨.invalidCoinbase, "Coinbase output " ++ toString coinbaseOut.toInt ++
      " exceeds allowed subsidy plus fees " ++ toString allowed.toNat⟩

def checkBlockTransactionsWithUTXO (P : Params) (view : CoinsView) (currentHeight : UInt32)
    (block : Block) : Check :=
  match block.transactions with
  -- The source indexes the first transaction; `checkBlock` has refused a block without one.
  | [] => .error ⟨.invalidCoinbase, "First transaction is not coinbase"⟩
  | coinbase :: payments => do
      checkPaymentsWithUTXOFrom P view currentHeight 1 [] [] payments
      checkReward P currentHeight coinbase

def validateBlock (P : Params) (now : UInt64) (view : CoinsView) (height : UInt32) (block : Block) :
    Check := do
  checkBlock P now block
  checkBlockReveals P block
  checkBlockTransactionsWithUTXO P view height block

end BlockValidation

end QmaskCore
