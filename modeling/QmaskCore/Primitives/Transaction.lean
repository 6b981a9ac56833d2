import QmaskCore.Primitives.Script

/-!
Transactions, as `transaction.h` presents them.

The bodies of `Transaction`'s methods are not part of this tree, so a
transaction is a value: its inputs and outputs, the hash it answers with and
whether it answers as a coinbase. What else it can be asked (`GetValueOut`,
`GetSerializedSize`, `VerifySignature`) is a parameter of the node, in
`QmaskCore.Params`. The two counts `AddInput` and `AddOutput` enforce are part
of the value.
-/

namespace QmaskCore

structure TxInput where
  prevTxHash : Bytes32
  outputIndex : UInt32
  pubkey : Bytes32
  signature : Bytes64
  kps : Bytes32
  /-- The serialized noise proofs, empty for a coinbase input. -/
  noiseProof : List UInt8
deriving DecidableEq

structure TxOutput where
  value : Int64
  scriptPubKey : Script
deriving DecidableEq

/-- A payment output: the standard script for the hash. -/
def TxOutput.payTo (value : Int64) (pubkeyHash : Bytes32) : TxOutput :=
  ⟨value, createPayToPubkeyHash pubkeyHash⟩

def TxOutput.isUnspendable (out : TxOutput) : Bool := out.scriptPubKey.isUnspendable

namespace Transaction

def maxTxSize : Nat := 100000
def maxInputs : Nat := 1000
def maxOutputs : Nat := 1000

end Transaction

structure Transaction where
  inputs : List TxInput
  outputs : List TxOutput
  hash : Bytes32
  isCoinbase : Bool
  inputs_le : inputs.length ≤ Transaction.maxInputs
  outputs_le : outputs.length ≤ Transaction.maxOutputs
deriving DecidableEq

/-- An output's position survives the cast to the 32-bit index of an outpoint. -/
theorem Transaction.toNat_outputIndex (tx : Transaction) {i : Nat} (lt : i < tx.outputs.length) :
    (UInt32.ofNat i).toNat = i := by
  have bound := tx.outputs_le
  have small : Transaction.maxOutputs < UInt32.size := by decide
  exact UInt32.toNat_ofNat_of_lt' (by omega)

/-- The serialization of a transaction. -/
structure TxCodec where
  serialize : Transaction → List UInt8
  /-- `none` where the source throws. -/
  deserialize : List UInt8 → Option Transaction

/-- The transaction can be read back, and its length fits the 32-bit field it
is written to. -/
structure TxCodec.Carries (C : TxCodec) (tx : Transaction) : Prop where
  inverts : C.deserialize (C.serialize tx) = some tx
  fits : (C.serialize tx).length < 2 ^ 32

end QmaskCore
