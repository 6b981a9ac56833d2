import QmaskCore.Lib.Checks
import QmaskCore.Storage.CoinDB

/-!
`TxValidation`: the rules one transaction must satisfy.

`checkTransaction` needs the transaction alone; `checkTransactionWithUTXO`
and `verifyTransactionSignatures` read a store of coins through `CoinsView`.
A rule that fails answers with the result code and the text of the source.
-/

namespace QmaskCore

open Checks

inductive TxValidationResult where
  | valid
  | invalidEmptyInputs
  | invalidEmptyOutputs
  | invalidTooLarge
  | invalidDustOutput
  | invalidNegativeValue
  | invalidValueOverflow
  | invalidCoinbaseSize
  | invalidDoubleSpend
  | invalidMissingInput
  | invalidInsufficientFee
  | invalidBadSignature
  | invalidCoinbaseMaturity
  | invalidMoneyRange
  | invalidNoiseProof
  | invalidScript
deriving DecidableEq, Repr

/-- What `SetInvalid` leaves behind. -/
structure TxValidationState where
  result : TxValidationResult
  reason : String
deriving DecidableEq

namespace TxValidation

abbrev Check := Except TxValidationState Unit

/-- Addition that reports an overflow. -/
def safeAdd (a b : Int64) : Option Int64 :=
  if 0 < b ∧ Int64.maxValue - b < a then none
  else if b < 0 ∧ a < Int64.minValue - b then none
  else some (a + b)

def checkMoneyRange (P : Params) (value : Int64) : Check := do
  rejectIf (value < 0) ⟨.invalidNegativeValue, "Transaction output value is negative"⟩
  rejectIf (P.maxMoney < value)
    ⟨.invalidMoneyRange, "Transaction output value exceeds MAX_MONEY"⟩

/-- The script must be a payment, or a data carrier whose payload is small enough. -/
def checkScript (P : Params) (out : TxOutput) (i : Nat) : Check :=
  match solver out.scriptPubKey with
  | (.pubkeyHash, _) => .ok ()
  | (.nullData, solutions) =>
      rejectIf (P.maxOpReturnSize.toNat < (solutions.headD []).length)
        ⟨.invalidScript, "OP_RETURN payload exceeds " ++ toString P.maxOpReturnSize.toNat ++
          " bytes at index " ++ toString i⟩
  | (.nonstandard, _) =>
      .error ⟨.invalidScript, "Nonstandard scriptPubKey at index " ++ toString i⟩

/-- The loop over the outputs, with the total so far. -/
def checkOutputsFrom (P : Params) (tx : Transaction) : Nat → Int64 → List TxOutput → Check
  | _, _, [] => .ok ()
  | i, totalOut, out :: outs => do
      checkMoneyRange P out.value
      checkScript P out i
      rejectIf (tx.isCoinbase = false ∧ (solver out.scriptPubKey).1 = .pubkeyHash ∧
          out.value < P.dustThreshold)
        ⟨.invalidDustOutput, "Transaction output below dust threshold"⟩
      match safeAdd totalOut out.value with
      | none => .error ⟨.invalidValueOverflow, "Transaction output value overflow"⟩
      | some newTotal => do
          rejectIf (P.maxMoney < newTotal)
            ⟨.invalidMoneyRange, "Total output value exceeds MAX_MONEY"⟩
          checkOutputsFrom P tx (i + 1) newTotal outs

def checkTxOutputs (P : Params) (tx : Transaction) : Check := do
  rejectIf (tx.outputs = []) ⟨.invalidEmptyOutputs, "Transaction has no outputs"⟩
  checkOutputsFrom P tx 0 0 tx.outputs

def checkTxInputs (tx : Transaction) : Check := do
  rejectIf (tx.inputs = []) ⟨.invalidEmptyInputs, "Transaction has no inputs"⟩
  if tx.isCoinbase then .ok ()
  else do
    rejectIf (¬ (tx.inputs.map (·.outpoint)).Nodup)
      ⟨.invalidDoubleSpend, "Duplicate input - transaction spends the same output twice"⟩
    rejectIf (∃ input ∈ tx.inputs, input.prevTxHash = 0)
      ⟨.invalidEmptyInputs, "Non-coinbase input has null prevout hash"⟩

def checkTxSize (P : Params) (tx : Transaction) : Check :=
  rejectIf (Transaction.maxTxSize < P.getSerializedSize tx)
    ⟨.invalidTooLarge, "Transaction exceeds maximum size"⟩

/-- A running total of values, failing with `error` when it overflows. -/
def totalFrom (error : TxValidationState) :
    Int64 → List TxOutput → Except TxValidationState Int64
  | total, [] => .ok total
  | total, out :: outs =>
      match safeAdd total out.value with
      | none => .error error
      | some newTotal => totalFrom error newTotal outs

def checkCoinbase (tx : Transaction) : Check :=
  if tx.isCoinbase then do
    rejectIf (tx.inputs.length ≠ 1)
      ⟨.invalidCoinbaseSize, "Coinbase must have exactly one input"⟩
    rejectIf (tx.outputs = []) ⟨.invalidEmptyOutputs, "Coinbase has no outputs"⟩
    let _ ← totalFrom ⟨.invalidValueOverflow, "Coinbase output value overflow"⟩ 0 tx.outputs
    .ok ()
  else .ok ()

def checkTransaction (P : Params) (tx : Transaction) : Check := do
  checkTxSize P tx
  checkTxInputs tx
  checkTxOutputs P tx
  if tx.isCoinbase then checkCoinbase tx else .ok ()

/-! ### Against the coins -/

/-- The loop over the inputs: the coin exists, is mature and in range, and the
total stays in range. -/
def checkInputsFrom (P : Params) (view : CoinsView) (currentHeight : UInt32) :
    Int64 → List TxInput → Except TxValidationState Int64
  | totalIn, [] => .ok totalIn
  | totalIn, input :: inputs =>
      match view.getCoin input.outpoint with
      | none => .error ⟨.invalidMissingInput, "Input not found in UTXO set"⟩
      | some coin => do
          rejectIf (coin.isSpent = true)
            ⟨.invalidDoubleSpend, "Input already spent - double spend detected"⟩
          rejectIf (coin.isCoinbase = true ∧ currentHeight < coin.height + P.coinbaseMaturity)
            ⟨.invalidCoinbaseMaturity, "Coinbase output not yet mature"⟩
          checkMoneyRange P coin.value
          match safeAdd totalIn coin.value with
          | none => .error ⟨.invalidValueOverflow, "Input value overflow"⟩
          | some newTotal => do
              rejectIf (P.maxMoney < newTotal)
                ⟨.invalidMoneyRange, "Total input value exceeds MAX_MONEY"⟩
              checkInputsFrom P view currentHeight newTotal inputs

/-- `GetMinimumFee`: by size, at least the flat minimum. -/
def getMinimumFee (P : Params) (tx : Transaction) : Int64 :=
  let sizeAsInt := Int64.ofNat (P.getSerializedSize tx)
  let sizeFee :=
    if P.minFeePerByte ≠ 0 ∧ Int64.maxValue / P.minFeePerByte < sizeAsInt then Int64.maxValue
    else sizeAsInt * P.minFeePerByte
  if P.minTxFee < sizeFee then sizeFee else P.minTxFee

def checkTransactionWithUTXO (P : Params) (view : CoinsView) (currentHeight : UInt32)
    (tx : Transaction) : Check := do
  checkTransaction P tx
  if tx.isCoinbase then .ok ()
  else do
    let totalIn ← checkInputsFrom P view currentHeight 0 tx.inputs
    let totalOut ← totalFrom ⟨.invalidValueOverflow, "Output value overflow"⟩ 0 tx.outputs
    rejectIf (totalIn < totalOut)
      ⟨.invalidInsufficientFee, "Input value less than output value"⟩
    rejectIf (totalIn - totalOut < getMinimumFee P tx)
      ⟨.invalidInsufficientFee, "Transaction fee " ++ toString (totalIn - totalOut).toInt ++
        " below minimum " ++ toString (getMinimumFee P tx).toInt ++ " for size " ++
        toString (P.getSerializedSize tx)⟩

/-! ### Signatures and noise proofs -/

/-- The text of a noise proof failure, which names the input. -/
def noiseError (i : Nat) (what : String) : TxValidationState :=
  ⟨.invalidNoiseProof, "Input " ++ toString i ++ what⟩

/-- The proofs of one input, one for each leaf the transaction calls for. What
is returned is the bytes behind them and the leaves claimed so far. -/
def verifyProofsFrom (P : Params) (view : CoinsView) (tx : Transaction) (input : TxInput) (i : Nat) :
    List UInt32 → List UInt8 → List NoiseLeafKey →
      Except TxValidationState (List UInt8 × List NoiseLeafKey)
  | [], rest, leafScope => .ok (rest, leafScope)
  | wanted :: more, rest, leafScope =>
      match NoiseProof.deserialize rest with
      | none => .error (noiseError i " has a malformed noise proof")
      | some (proof, rest) => do
          rejectIf (proof.leafIndex ≠ wanted)
            (noiseError i " carries a leaf the transaction does not call for")
          rejectIf (NoiseFile.verifyProof P input.kps tx.hash proof P.noiseLeafCount = false)
            (noiseError i " has an invalid noise proof")
          rejectIf (⟨input.kps, proof.leafIndex⟩ ∈ leafScope)
            (noiseError i " reuses a leaf already claimed here")
          rejectIf (view.isNoiseLeafSpent ⟨input.kps, proof.leafIndex⟩ = true)
            (noiseError i " uses a leaf that is already spent")
          verifyProofsFrom P view tx input i more rest
            (leafScope ++ [⟨input.kps, proof.leafIndex⟩])

/-- The leaf indices the `i`-th input of the transaction must reveal. -/
def wantedLeaves (P : Params) (tx : Transaction) (input : TxInput) (i : Nat) : List UInt32 :=
  deriveLeafIndices P tx.hash input.kps (UInt32.ofNat i) P.noiseProofsPerInput P.noiseLeafCount

def verifyInput (P : Params) (view : CoinsView) (tx : Transaction) (input : TxInput) (i : Nat)
    (leafScope : List NoiseLeafKey) : Except TxValidationState (List NoiseLeafKey) :=
  match view.getCoin input.outpoint with
  | none => .error ⟨.invalidMissingInput, "Input not found during signature verification"⟩
  | some coin => do
      rejectIf (P.verifySignature tx i (.payTo coin.value coin.pubkeyHash) = false)
        ⟨.invalidBadSignature, "Invalid signature for input " ++ toString i⟩
      rejectIf (input.noiseProof = []) (noiseError i " carries no noise proof")
      rejectIf (¬ (wantedLeaves P tx input i).Nodup)
        (noiseError i " derives a repeated leaf index")
      let (rest, leafScope) ← verifyProofsFrom P view tx input i (wantedLeaves P tx input i)
        input.noiseProof leafScope
      rejectIf (rest ≠ []) (noiseError i " carries trailing bytes after its noise proofs")
      rejectIf (input.kps = 0) (noiseError i " has no KPS")
      .ok leafScope

def verifyInputsFrom (P : Params) (view : CoinsView) (tx : Transaction) :
    Nat → List TxInput → List NoiseLeafKey → Except TxValidationState (List NoiseLeafKey)
  | _, [], leafScope => .ok leafScope
  | i, input :: inputs, leafScope => do
      let leafScope ← verifyInput P view tx input i leafScope
      verifyInputsFrom P view tx (i + 1) inputs leafScope

/-- The leaves claimed by the whole block so far go in and come out. -/
def verifyTransactionSignatures (P : Params) (view : CoinsView) (tx : Transaction)
    (usedLeaves : List NoiseLeafKey) : Except TxValidationState (List NoiseLeafKey) :=
  if tx.isCoinbase then .ok usedLeaves
  else verifyInputsFrom P view tx 0 tx.inputs usedLeaves

end TxValidation

end QmaskCore
