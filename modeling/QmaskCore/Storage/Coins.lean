import QmaskCore.Primitives.Block

/-!
Coins: what an unspent output is worth, to whom, and under which name.

An `OutPoint` names an output, a `NoiseLeafKey` a one-time leaf of a KPS.
`Coin` is the record the coin database stores and `UTXOEntry` the same record
in the cache, with the flag that says the database has not seen it yet.
-/

namespace QmaskCore

structure OutPoint where
  txHash : Bytes32
  index : UInt32
deriving DecidableEq

structure NoiseLeafKey where
  kps : Bytes32
  leafIndex : UInt32
deriving DecidableEq

structure Coin where
  value : Int64
  pubkeyHash : Bytes32
  height : UInt32
  isCoinbase : Bool
  isSpent : Bool
deriving DecidableEq

/-- The coin an output of a connected transaction becomes. -/
def Coin.ofOutput (value : Int64) (pubkeyHash : Bytes32) (height : UInt32) (isCoinbase : Bool) :
    Coin :=
  ⟨value, pubkeyHash, height, isCoinbase, false⟩

/-- The coin put back by an undo. -/
def Coin.restored (c : Coin) : Coin := { c with isSpent := false }

theorem Coin.restored_of_unspent {c : Coin} (unspent : c.isSpent = false) : c.restored = c := by
  cases c
  simp_all [Coin.restored]

structure UTXOEntry where
  coin : Coin
  isDirty : Bool
  isNew : Bool
deriving DecidableEq

/-- The output an input spends. -/
def TxInput.outpoint (input : TxInput) : OutPoint := ⟨input.prevTxHash, input.outputIndex⟩

/-- The outpoint of a transaction's output, its position cast to 32 bits. -/
def Transaction.outpoint (tx : Transaction) (i : Nat) : OutPoint := ⟨tx.hash, UInt32.ofNat i⟩

/-- Distinct outputs of a transaction have distinct outpoints. -/
theorem Transaction.outpoint_inj (tx : Transaction) {i j : Nat} (hi : i < tx.outputs.length)
    (hj : j < tx.outputs.length) (same : tx.outpoint i = tx.outpoint j) : i = j := by
  have index : UInt32.ofNat i = UInt32.ofNat j := congrArg OutPoint.index same
  rw [← tx.toNat_outputIndex hi, ← tx.toNat_outputIndex hj, index]

end QmaskCore
