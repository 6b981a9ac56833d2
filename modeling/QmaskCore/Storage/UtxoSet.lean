import QmaskCore.Storage.CoinDB
import QmaskCore.Lib.AssocList

/-!
`UTXOSet`: the coin database behind its write-back cache.

The database keeps coins, spent leaves, the block it belongs to and, while a
commit is under way, the marker of that commit. In memory there are the coin
cache with its dirty flags and three leaf sets. `flushCache` brings the
database up to date in several batches. `mHistory` is not part of the
program: it lists the states the database went through, one for each write,
so that a crash between two writes can be stated.

The functions are those of the source, one for one. What they mean together
is in `QmaskCore.Storage.CoinStore`.
-/

namespace QmaskCore

/-! ### The database -/

structure UTXODB where
  coins : AList fun _ : OutPoint => Coin
  leaves : List NoiseLeafKey
  /-- `DB_UTXO_BEST` -/
  best : Option Bytes32
  /-- `DB_UTXO_HEADS`: the tips a commit goes to and comes from -/
  heads : Option (Bytes32 × Bytes32)
deriving DecidableEq

def UTXODB.empty : UTXODB := ⟨∅, [], none, none⟩

/-- One entry of a write batch. -/
inductive UTXOWrite where
  | writeCoin (outpoint : OutPoint) (coin : Coin)
  | eraseCoin (outpoint : OutPoint)
  | writeLeaf (key : NoiseLeafKey)
  | eraseLeaf (key : NoiseLeafKey)
  | writeBest (blockHash : Bytes32)
  | eraseBest
  | writeHeads (newTip oldTip : Bytes32)
  | eraseHeads
deriving DecidableEq

def UTXODB.write (db : UTXODB) : UTXOWrite → UTXODB
  | .writeCoin outpoint coin => { db with coins := db.coins.insert outpoint coin }
  | .eraseCoin outpoint => { db with coins := db.coins.erase outpoint }
  | .writeLeaf key => { db with leaves := db.leaves.insert key }
  | .eraseLeaf key => { db with leaves := db.leaves.filter (· ≠ key) }
  | .writeBest blockHash => { db with best := some blockHash }
  | .eraseBest => { db with best := none }
  | .writeHeads newTip oldTip => { db with heads := some (newTip, oldTip) }
  | .eraseHeads => { db with heads := none }

/-- `DBWrapper::WriteBatch`: all entries at once, in order. -/
def UTXODB.writeBatch (db : UTXODB) (batch : List UTXOWrite) : UTXODB := batch.foldl UTXODB.write db

/-! ### The set -/

structure UTXOSet where
  mDB : UTXODB
  mCache : AList fun _ : OutPoint => UTXOEntry
  mBestBlock : Bytes32
  mSpentLeafCache : List NoiseLeafKey
  mSpentLeafDirty : List NoiseLeafKey
  mErasedLeafDirty : List NoiseLeafKey
  mHistory : List UTXODB
deriving DecidableEq

namespace UTXOSet

/-- The constructor: an empty cache over the database found on disk. -/
def ofDisk (db : UTXODB) : UTXOSet := ⟨db, ∅, db.best.getD 0, [], [], [], []⟩

/-- A batch reaches the disk. -/
def writeBatch (u : UTXOSet) (batch : List UTXOWrite) : UTXOSet :=
  { u with mDB := u.mDB.writeBatch batch, mHistory := u.mHistory ++ [u.mDB.writeBatch batch] }

/-- An entry replaces whatever the cache holds under the outpoint. -/
def cacheEntry (u : UTXOSet) (outpoint : OutPoint) (entry : UTXOEntry) : UTXOSet :=
  { u with mCache := u.mCache.insert outpoint entry }

/-! ### Reading -/

def getCoin (u : UTXOSet) (outpoint : OutPoint) : Option Coin :=
  match u.mCache.lookup outpoint with
  | some entry => if entry.coin.isSpent then none else some entry.coin
  | none =>
      match u.mDB.coins.lookup outpoint with
      | none => none
      | some dbCoin => if dbCoin.isSpent then none else some dbCoin

def haveCoin (u : UTXOSet) (outpoint : OutPoint) : Bool :=
  match u.mCache.lookup outpoint with
  | some entry => !entry.coin.isSpent
  | none =>
      match u.mDB.coins.lookup outpoint with
      | none => false
      | some dbCoin => !dbCoin.isSpent

def isNoiseLeafSpent (u : UTXOSet) (key : NoiseLeafKey) : Bool :=
  if key ∈ u.mSpentLeafCache then true
  else if key ∈ u.mErasedLeafDirty then false
  else key ∈ u.mDB.leaves

def getBestBlock (u : UTXOSet) : Bytes32 := u.mBestBlock

def getHeadBlocks (u : UTXOSet) : Option (Bytes32 × Bytes32) := u.mDB.heads

/-- The walk shared by the balance and address queries: the cache first, then
the database for what the cache does not hold. -/
def walkCoins (u : UTXOSet) (wanted : Coin → Bool) : List (OutPoint × Coin) :=
  u.mCache.select (fun _ entry => !entry.coin.isSpent && wanted entry.coin) (·.coin) ++
    u.mDB.coins.select (fun outpoint coin =>
      !coin.isSpent && wanted coin && (u.mCache.lookup outpoint).isNone) id

def getBalance (u : UTXOSet) (pubkeyHash : Bytes32) : Int64 :=
  (u.walkCoins fun coin => coin.pubkeyHash = pubkeyHash).foldl
    (fun balance found => balance + found.2.value) 0

def getUTXOsForAddress (u : UTXOSet) (pubkeyHash : Bytes32) : List (OutPoint × Coin) :=
  u.walkCoins fun coin => coin.pubkeyHash = pubkeyHash

def getUTXOsForAddresses (u : UTXOSet) (pubkeyHashes : List Bytes32) : List (OutPoint × Coin) :=
  if pubkeyHashes.isEmpty then [] else u.walkCoins fun coin => coin.pubkeyHash ∈ pubkeyHashes

/-! ### Single coins and leaves -/

def spendCoin (u : UTXOSet) (outpoint : OutPoint) : Bool × UTXOSet :=
  match u.mCache.lookup outpoint with
  | some entry =>
      if entry.coin.isSpent then (false, u)
      else
        (true, u.cacheEntry outpoint
          { entry with coin := { entry.coin with isSpent := true }, isDirty := true })
  | none =>
      match u.mDB.coins.lookup outpoint with
      | none => (false, u)
      | some dbCoin =>
          if dbCoin.isSpent then (false, u)
          else (true, u.cacheEntry outpoint ⟨{ dbCoin with isSpent := true }, true, false⟩)

def addCoin (u : UTXOSet) (outpoint : OutPoint) (coin : Coin) : Bool × UTXOSet :=
  match u.mCache.lookup outpoint with
  | some entry =>
      if !entry.coin.isSpent then (false, u)
      else (true, u.cacheEntry outpoint ⟨coin, true, true⟩)
  | none =>
      match u.mDB.coins.lookup outpoint with
      | some dbCoin =>
          if !dbCoin.isSpent then (false, u)
          else (true, u.cacheEntry outpoint ⟨coin, true, true⟩)
      | none => (true, u.cacheEntry outpoint ⟨coin, true, true⟩)

def markNoiseLeafSpent (u : UTXOSet) (key : NoiseLeafKey) : UTXOSet :=
  { u with
    mSpentLeafCache := u.mSpentLeafCache.insert key
    mSpentLeafDirty := u.mSpentLeafDirty.insert key
    mErasedLeafDirty := u.mErasedLeafDirty.filter (· ≠ key) }

def unmarkNoiseLeafSpent (u : UTXOSet) (key : NoiseLeafKey) : UTXOSet :=
  { u with
    mSpentLeafCache := u.mSpentLeafCache.filter (· ≠ key)
    mSpentLeafDirty := u.mSpentLeafDirty.filter (· ≠ key)
    mErasedLeafDirty := u.mErasedLeafDirty.insert key }

def setBestBlock (u : UTXOSet) (blockHash : Bytes32) : UTXOSet := { u with mBestBlock := blockHash }

/-! ### Transactions -/

def view (u : UTXOSet) : CoinsView := ⟨u.getCoin, u.isNoiseLeafSpent⟩

/-- A coin gathered by `ApplyTransaction` is flagged spent in the cache. -/
def spendGathered (u : UTXOSet) (found : OutPoint × Coin) : UTXOSet :=
  match u.mCache.lookup found.1 with
  | some entry =>
      u.cacheEntry found.1
        { entry with coin := { entry.coin with isSpent := true }, isDirty := true }
  | none => u.cacheEntry found.1 ⟨{ found.2 with isSpent := true }, true, false⟩

/-- An output enters the cache, over whatever is there. -/
def addOutput (u : UTXOSet) (out : OutPoint × Coin) : UTXOSet :=
  u.cacheEntry out.1 ⟨out.2, true, true⟩

def applyTransaction (tx : Transaction) (height : UInt32) (isCoinbase : Bool) (u : UTXOSet) :
    Option (List Coin) × UTXOSet :=
  if isCoinbase then
    (some [], (tx.newCoins height isCoinbase).foldl addOutput u)
  else
    match gatherInputs u.view [] tx.inputs with
    | none => (none, u)
    | some (toSpend, toMark) =>
        let u := toSpend.foldl spendGathered u
        let u := toMark.foldl markNoiseLeafSpent u
        (some (toSpend.map (·.2)), (tx.newCoins height isCoinbase).foldl addOutput u)

/-- An output of an undone transaction leaves both stores, the database at once. -/
def eraseOutput (u : UTXOSet) (outpoint : OutPoint) : UTXOSet :=
  { u with mCache := u.mCache.erase outpoint }.writeBatch [.eraseCoin outpoint]

/-- The inputs get their coins back and their leaves are unmarked, input by
input, up to the first whose proofs do not parse. -/
def restoreInputs : List (TxInput × Coin) → UTXOSet → Bool × UTXOSet
  | [], u => (true, u)
  | (input, coin) :: rest, u =>
      let u := u.cacheEntry input.outpoint ⟨coin.restored, true, false⟩
      let u := input.leaves.1.foldl unmarkNoiseLeafSpent u
      if input.leaves.2 then restoreInputs rest u else (false, u)

def undoTransaction (tx : Transaction) (spentCoins : List Coin) (u : UTXOSet) : Bool × UTXOSet :=
  let u := tx.outpoints.foldl eraseOutput u
  if tx.isCoinbase then (true, u)
  else if spentCoins.length ≠ tx.inputs.length then (false, u)
  else restoreInputs (tx.inputs.zip spentCoins) u

def spendCoinIfPresent (u : UTXOSet) (outpoint : OutPoint) : UTXOSet :=
  match u.mCache.lookup outpoint with
  | some entry =>
      if entry.coin.isSpent then u
      else
        u.cacheEntry outpoint
          { entry with coin := { entry.coin with isSpent := true }, isDirty := true }
  | none =>
      match u.mDB.coins.lookup outpoint with
      | none => u
      | some dbCoin =>
          if dbCoin.isSpent then u
          else u.cacheEntry outpoint ⟨{ dbCoin with isSpent := true }, true, false⟩

/-- The leaves are marked one by one until one of them was seen before. -/
def replayLeaves :
    List NoiseLeafKey → List NoiseLeafKey → UTXOSet → Option (List NoiseLeafKey) × UTXOSet
  | seen, [], u => (some seen, u)
  | seen, key :: keys, u =>
      if key ∈ seen then (none, u) else replayLeaves (seen ++ [key]) keys (u.markNoiseLeafSpent key)

def replayInputs : List NoiseLeafKey → List TxInput → UTXOSet → Bool × UTXOSet
  | _, [], u => (true, u)
  | seen, input :: inputs, u =>
      let u := u.spendCoinIfPresent input.outpoint
      if input.noiseProof.isEmpty then replayInputs seen inputs u
      else
        match replayLeaves seen input.leaves.1 u with
        | (none, u) => (false, u)
        | (some seen, u) => if input.leaves.2 then replayInputs seen inputs u else (false, u)

def applyTransactionForReplay (tx : Transaction) (height : UInt32) (isCoinbase : Bool)
    (u : UTXOSet) : Bool × UTXOSet :=
  match if isCoinbase then (true, u) else replayInputs [] tx.inputs u with
  | (false, u) => (false, u)
  | (true, u) => (true, (tx.newCoins height isCoinbase).foldl addOutput u)

instance : CoinDB UTXOSet where
  view := view
  applyTransaction := applyTransaction
  undoTransaction := undoTransaction
  applyTransactionForReplay := applyTransactionForReplay

/-! ### Committing -/

def maxBatchSize : Nat := 16 * 1024 * 1024

/-- `sizeof(Coin) + sizeof(OutPoint)`. -/
def entrySize : Nat := 48 + 36

/-- The dirty entries go into batches, each sent off once it is large enough.
What is left in the batch at the end is returned with the set. -/
def flushEntries : List OutPoint → List UTXOWrite → Nat → UTXOSet → List UTXOWrite × UTXOSet
  | [], batch, _, u => (batch, u)
  | outpoint :: rest, batch, batchSize, u =>
      match u.mCache.lookup outpoint with
      | none => flushEntries rest batch batchSize u
      | some entry =>
          if !entry.isDirty then flushEntries rest batch batchSize u
          else
            let batch := batch ++
              [if entry.coin.isSpent then .eraseCoin outpoint else .writeCoin outpoint entry.coin]
            let u := u.cacheEntry outpoint { entry with isDirty := false }
            let batchSize := batchSize + entrySize
            if maxBatchSize ≤ batchSize then flushEntries rest [] 0 (u.writeBatch batch)
            else flushEntries rest batch batchSize u

/-- The tip the database was last committed at, from the marker when a commit
was interrupted. -/
def oldTip (u : UTXOSet) : Bytes32 :=
  match u.mDB.best with
  | some best => best
  | none =>
      match u.getHeadBlocks with
      | some (_, markedOld) => markedOld
      | none => 0

/-- The first batch of a commit: the marker replaces the best block. -/
def beginCommit (bestBlock : Bytes32) (u : UTXOSet) : UTXOSet :=
  u.writeBatch [.eraseBest, .writeHeads bestBlock u.oldTip]

/-- The last batch: the coins still unsent, the leaves, and the best block in
place of the marker. Only then are the flags in memory cleared. -/
def finishCommit (bestBlock : Bytes32) (batch : List UTXOWrite) (u : UTXOSet) : UTXOSet :=
  { u.writeBatch (batch ++ u.mSpentLeafDirty.map .writeLeaf ++
      u.mErasedLeafDirty.map .eraseLeaf ++ [.eraseHeads, .writeBest bestBlock]) with
    mSpentLeafDirty := []
    mErasedLeafDirty := []
    mCache := u.mCache.filter fun _ entry => !entry.coin.isSpent
    mBestBlock := bestBlock }

def flushCache (P : Params) (bestBlock : Bytes32) (u : UTXOSet) : UTXOSet :=
  let sent := flushEntries (P.cacheOrder u.mCache.keys) [] 0 (u.beginCommit bestBlock)
  sent.2.finishCommit bestBlock sent.1

def flush (P : Params) (u : UTXOSet) : UTXOSet := u.flushCache P u.mBestBlock

/-- `Sync` commits and then has the database write an empty batch. -/
def sync (P : Params) (u : UTXOSet) : UTXOSet := (u.flush P).writeBatch []

end UTXOSet

end QmaskCore
