import QmaskCore.Storage.ChainState

/-!
What other parts of the node ask of `ChainState`.

`getBlockLocator`, `findForkPoint` and `getBlockHashesAfter` serve two nodes
that look for the last block they share; `getTransaction` finds a transaction by
its id. The functions are those of the source, one for one.
-/

namespace QmaskCore

namespace ChainState

/-- The loop of `GetBlockLocator`; `size` entries are listed already. The result
is `none` when the fuel runs out. -/
def locatorFrom (s : ChainState) : Nat → Nat → UInt32 → Nat → Option (List Bytes32)
  | 0, _, _, _ => none
  | fuel + 1, height, step, size =>
      match s.getBlockHashByHeightLocked height with
      | none => some []
      | some blockHash =>
          if height = 0 then some [blockHash]
          else
            let step := if 10 < size + 1 then step * 2 else step
            -- A height below zero counts as zero.
            (s.locatorFrom fuel (height - step.toNat) step (size + 1)).map (blockHash :: ·)

def getBlockLocator (s : ChainState) (fuel : Nat) : Option (List Bytes32) :=
  if s.mInitialized = false then some [] else s.locatorFrom fuel s.mBestChain.height 1 0

def findForkPoint (s : ChainState) (locator : List Bytes32) : Option Nat :=
  if s.mInitialized = false then none
  else
    locator.findSome? fun blockHash =>
      match s.readBlockIndex blockHash with
      | none => none
      | some entry =>
          if s.getBlockHashByHeightLocked entry.nHeight = some blockHash then some entry.nHeight
          else none

/-- The hashes met on a walk down, the newest first, and where it ends. -/
def walkDown (s : ChainState) : Nat → Bytes32 → Option (List Bytes32 × Bytes32)
  | 0, cursor => some ([], cursor)
  | n + 1, cursor =>
      match s.readBlockIndex cursor with
      | none => none
      | some entry => (s.walkDown n entry.hashPrev).map fun walked => (cursor :: walked.1, walked.2)

def getBlockHashesAfter (s : ChainState) (after : Bytes32) (max : Nat) : List Bytes32 :=
  if s.mInitialized = false ∨ max = 0 then []
  else if after = s.mBestChain.blockHash then []
  else
    match s.readBlockIndex after with
    | none => []
    | some entry =>
        let fromHeight := entry.nHeight
        if s.getBlockHashByHeightLocked fromHeight ≠ some after then []
        else if s.mBestChain.height ≤ fromHeight then []
        else if s.mChainByHeight.length = s.mBestChain.height + 1 then
          (s.mChainByHeight.drop (fromHeight + 1)).take max
        else
          match s.walkDown (s.mBestChain.height - fromHeight) s.mBestChain.blockHash with
          | none => []
          | some (reversed, cursor) => if cursor ≠ after then [] else reversed.reverse.take max

/-- The transaction with an id, the block it was found in and its height. -/
def getTransaction (P : Params) (s : ChainState) (txid : Bytes32) :
    Option (Transaction × Bytes32 × Nat) :=
  match s.mBlockData.readTxIndex txid with
  | none => none
  | some blockHash =>
      match s.readBlockIndex blockHash with
      | none => none
      | some entry =>
          match s.mBlockData.readBlock P entry.blockPos with
          | none => none
          | some block =>
              (block.transactions.find? (·.hash = txid)).map fun tx => (tx, blockHash, entry.nHeight)

end ChainState

end QmaskCore
