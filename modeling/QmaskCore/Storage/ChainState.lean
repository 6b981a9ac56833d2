import Mathlib.Data.List.Sort
import QmaskCore.Storage.BlockData
import QmaskCore.Storage.UtxoSet
import QmaskCore.Storage.BlockApply
import QmaskCore.Validation.BlockValidation

/-!
`ChainState`: the active chain over the block data and the coins.

`connectBlockLocked` and `disconnectTipLocked` move the tip by one block,
`activateBestChainLocked` moves it to another branch and `acceptBlock` takes in
a block that arrives. `initializeState` opens a node, replaying what a crash left
undone. The functions are those of the source, one for one; loops over stored
blocks carry fuel, which the height of the block they start from always covers.

`mHistory` is not part of the program: it lists what was on disk after each
write, in the order of the program, so that a crash between two writes can be
stated.
-/

namespace QmaskCore

structure ChainTip where
  blockHash : Bytes32
  height : Nat
  timestamp : UInt64
  bits : UInt32
  chainWork : Bytes32
deriving DecidableEq

def ChainTip.none : ChainTip := ⟨0, 0, 0, 0, 0⟩

/-- The chain database. -/
structure ChainDB where
  /-- `DB_CHAIN_BEST` -/
  best : Option ChainTip
  /-- `DB_CHAIN_GENESIS` -/
  genesis : Option Bytes32
deriving DecidableEq

/-- Everything on disk. -/
structure Disk where
  chain : ChainDB
  blocks : BlockDisk
  utxo : UTXODB
deriving DecidableEq

def Disk.empty : Disk := ⟨⟨none, none⟩, .empty, .empty⟩

structure ChainState where
  mDB : ChainDB
  mBlockData : BlockData
  mUTXOSet : UTXOSet
  mBestChain : ChainTip
  mInitialized : Bool
  mChainByHeight : List Bytes32
  mSyncConnected : List Transaction
  mSyncDisconnected : List Transaction
  mSyncDisconnectedBytes : Nat
  mHistory : List Disk
deriving DecidableEq

namespace ChainState

def maxDisconnectedTxBytes : Nat := 20 * 1000 * 1000

def medianTimeSpan : Nat := 11

/-- The constructor: every database is opened as it is found. -/
def ofDisk (disk : Disk) : ChainState where
  mDB := disk.chain
  mBlockData := .ofDisk disk.blocks
  mUTXOSet := .ofDisk disk.utxo
  mBestChain := .none
  mInitialized := false
  mChainByHeight := []
  mSyncConnected := []
  mSyncDisconnected := []
  mSyncDisconnectedBytes := 0
  mHistory := []

def disk (s : ChainState) : Disk := ⟨s.mDB, s.mBlockData.disk, s.mUTXOSet.mDB⟩

/-! ### Working on the parts -/

def writeDB (s : ChainState) (f : ChainDB → ChainDB) : ChainState :=
  { s with mDB := f s.mDB, mHistory := s.mHistory ++ [{ s.disk with chain := f s.mDB }] }

/-- An operation on the block data; its writes join the history. -/
def onBlockData (s : ChainState) (f : BlockData → BlockData) : ChainState :=
  let d := f { s.mBlockData with mHistory := [] }
  { s with
    mBlockData := { d with mHistory := [] }
    mHistory := s.mHistory ++ d.mHistory.map fun blocks => { s.disk with blocks } }

/-- An operation on the coins; its writes join the history. -/
def onUTXOSet {α : Type} (s : ChainState) (f : UTXOSet → α × UTXOSet) : α × ChainState :=
  let out := f { s.mUTXOSet with mHistory := [] }
  (out.1, { s with
    mUTXOSet := { out.2 with mHistory := [] }
    mHistory := s.mHistory ++ out.2.mHistory.map fun utxo => { s.disk with utxo } })

/-- The coins are marked as belonging to a block and committed. -/
def commitAt (P : Params) (blockHash : Bytes32) (s : ChainState) : ChainState :=
  (s.onUTXOSet fun u => ((), (u.setBestBlock blockHash).flush P)).2

/-! ### Looking back from the tip -/

def readBlockIndex (s : ChainState) (blockHash : Bytes32) : Option BlockIndexEntry :=
  s.mBlockData.readBlockIndex blockHash

/-- The block a number of steps behind another. -/
def ancestor (s : ChainState) : Nat → Bytes32 → Option Bytes32
  | 0, cursor => some cursor
  | n + 1, cursor =>
      match s.readBlockIndex cursor with
      | none => none
      | some entry => s.ancestor n entry.hashPrev

def getBlockHashByHeightLocked (s : ChainState) (height : Nat) : Option Bytes32 :=
  if s.mInitialized = false then none
  else if s.mBestChain.height < height then none
  else if height = s.mBestChain.height then some s.mBestChain.blockHash
  else if height < s.mChainByHeight.length ∧
      s.mChainByHeight.length = s.mBestChain.height + 1 then
    s.mChainByHeight[height]?
  else s.ancestor (s.mBestChain.height - height) s.mBestChain.blockHash

/-- Up to `n` block times, from a block backwards. -/
def timesFrom (s : ChainState) : Nat → Bytes32 → List UInt64
  | 0, _ => []
  | n + 1, cursor =>
      match s.readBlockIndex cursor with
      | none => []
      | some entry =>
          entry.nTime :: if entry.hashPrev = 0 then [] else s.timesFrom n entry.hashPrev

def medianTime (P : Params) (times : List UInt64) : UInt64 :=
  (times.insertionSort (· ≤ ·)).getD (times.length / 2) P.genesisTimestamp

def getMedianTimePastLocked (P : Params) (s : ChainState) (blockHash : Bytes32) : UInt64 :=
  medianTime P (s.timesFrom medianTimeSpan blockHash)

def getExpectedBitsLocked (P : Params) (s : ChainState) (height : Nat) : UInt32 :=
  if s.mBestChain.height = 0 ∨ s.mBestChain.bits = 0 then P.powLimitCompact
  else if P.isRetargetHeight (UInt64.ofNat height) = false then s.mBestChain.bits
  else
    let lastHeight := s.mBestChain.height
    if lastHeight + 1 < P.difficultyAdjustmentInterval.toNat then s.mBestChain.bits
    else
      let firstHeight := lastHeight + 1 - P.difficultyAdjustmentInterval.toNat
      match s.getBlockHashByHeightLocked firstHeight with
      | none => s.mBestChain.bits
      | some firstHash =>
          match s.readBlockIndex firstHash with
          | none => s.mBestChain.bits
          | some firstEntry =>
              P.calculateNextWorkRequired s.mBestChain.bits s.mBestChain.timestamp firstEntry.nTime

def getNextBits (P : Params) (s : ChainState) : UInt32 :=
  s.getExpectedBitsLocked P (s.mBestChain.height + 1)

def getMedianTimePast (P : Params) (s : ChainState) : UInt64 :=
  if s.mInitialized = false ∨ s.mBestChain.height = 0 then 0
  else s.getMedianTimePastLocked P s.mBestChain.blockHash

/-- The walk from the tip down to height one. -/
def onChainFrom (s : ChainState) (blockHash : Bytes32) : Nat → Bytes32 → Bool
  | 0, _ => false
  | height + 1, cursor =>
      if cursor = blockHash then true
      else
        match s.readBlockIndex cursor with
        | none => false
        | some entry => s.onChainFrom blockHash height entry.hashPrev

def isOnActiveChainLocked (s : ChainState) (blockHash : Bytes32) : Bool :=
  s.onChainFrom blockHash s.mBestChain.height s.mBestChain.blockHash

/-! ### What the mempool is told -/

def queueConnectedLocked (block : Block) (s : ChainState) : ChainState :=
  { s with mSyncConnected := s.mSyncConnected ++ block.transactions.filter (!·.isCoinbase) }

/-- The oldest transactions leave while the rest takes too many bytes. -/
def evictDisconnected (P : Params) : List Transaction → Nat → List Transaction × Nat
  | [], bytes => ([], bytes)
  | tx :: txs, bytes =>
      if maxDisconnectedTxBytes < bytes then
        evictDisconnected P txs (bytes - P.getSerializedSize tx)
      else (tx :: txs, bytes)

def queueDisconnectedLocked (P : Params) (block : Block) (s : ChainState) : ChainState :=
  let txs := block.transactions.reverse.filter (!·.isCoinbase)
  let kept := evictDisconnected P (s.mSyncDisconnected ++ txs)
    (s.mSyncDisconnectedBytes + (txs.map P.getSerializedSize).sum)
  { s with mSyncDisconnected := kept.1, mSyncDisconnectedBytes := kept.2 }

/-- The transactions connected and those disconnected since the last call. -/
def takeMempoolSync (s : ChainState) : (List Transaction × List Transaction) × ChainState :=
  ((s.mSyncConnected, s.mSyncDisconnected.reverse),
    { s with mSyncConnected := [], mSyncDisconnected := [], mSyncDisconnectedBytes := 0 })

/-! ### Moving the tip -/

/-- Everything `ConnectBlockLocked` asks of a header before it touches the coins. -/
def extendsTip (P : Params) (block : Block) (s : ChainState) : Bool :=
  let hdr := block.header
  let newHeight := s.mBestChain.height + 1
  hdr.height.toNat = newHeight &&
    (if s.mBestChain.height = 0 then hdr.prevBlockHash = P.genesisHash
      else hdr.prevBlockHash = s.mBestChain.blockHash) &&
    (s.mBestChain.height = 0 ||
      s.getMedianTimePastLocked P s.mBestChain.blockHash < hdr.timestamp) &&
    hdr.bits = s.getExpectedBitsLocked P newHeight &&
    P.checkProofOfWork (hdr.getHash P.sha256) hdr.bits

/-- The tip becomes the block just stored. -/
def setTip (P : Params) (block : Block) (newHeight : Nat) (chainWork : Bytes32) (s : ChainState) :
    ChainState :=
  let blockHash := block.getHash P.sha256
  { s with
    mBestChain := ⟨blockHash, newHeight, block.header.timestamp, block.header.bits, chainWork⟩
    mChainByHeight :=
      if s.mChainByHeight.length = newHeight then s.mChainByHeight ++ [blockHash] else [] }

/-- The tip goes back to the parent. -/
def resetTip (parentHash : Bytes32) (parent : BlockIndexEntry) (s : ChainState) : ChainState :=
  { s with
    mBestChain := ⟨parentHash, parent.nHeight, parent.nTime, parent.nBits, parent.nChainWork⟩
    mChainByHeight :=
      if s.mChainByHeight.length = parent.nHeight + 2 then s.mChainByHeight.dropLast else [] }

def writeBest (s : ChainState) : ChainState :=
  s.writeDB fun db => { db with best := some s.mBestChain }

def connectBlockLocked (P : Params) (block : Block) (s : ChainState) : Bool × ChainState :=
  let newHeight := s.mBestChain.height + 1
  if s.extendsTip P block = false then (false, s)
  else
    match s.onUTXOSet (applyBlockTwoPhase P block (UInt32.ofNat newHeight)) with
    | (none, s) => (false, s)
    | (some undo, s) =>
        let chainWork := P.addChainWork s.mBestChain.chainWork block.header.bits
        let s := s.onBlockData (BlockData.writeBlockConnected P block newHeight chainWork undo)
        let s := (s.setTip P block newHeight chainWork).writeBest
        let s := s.commitAt P (block.getHash P.sha256)
        let s :=
          if newHeight = 1 then
            s.writeDB fun db => { db with genesis := some block.header.prevBlockHash }
          else s
        (true, s.queueConnectedLocked block)

def disconnectTipLocked (P : Params) (s : ChainState) : Bool × ChainState :=
  let blockHash := s.mBestChain.blockHash
  if s.mBestChain.height = 0 then (false, s)
  else
    match s.readBlockIndex blockHash with
    | none => (false, s)
    | some entry =>
        match s.mBlockData.readBlock P entry.blockPos with
        | none => (false, s)
        | some block =>
            match s.mBlockData.readBlockUndo blockHash with
            | none => (false, s)
            | some undo =>
                match s.onUTXOSet (undoBlockTwoPhase block undo) with
                | (false, s) => (false, s)
                | (true, s) =>
                    match s.readBlockIndex entry.hashPrev with
                    | none => (false, s)
                    | some parent =>
                        let s := (s.resetTip entry.hashPrev parent).writeBest
                        let s := s.commitAt P entry.hashPrev
                        (true, s.queueDisconnectedLocked P block)

/-- The stored blocks from a new tip down, the newest first, and the block of
the active chain they stand on, `none` when that is genesis. -/
def newBranch (P : Params) (s : ChainState) : Nat → Bytes32 → Option (List Bytes32 × Option Bytes32)
  | 0, _ => none
  | fuel + 1, cursor =>
      match s.readBlockIndex cursor with
      | none => none
      | some e =>
          if s.isOnActiveChainLocked cursor then some ([], some cursor)
          else if e.hashPrev = P.genesisHash then some ([cursor], none)
          else
            match s.newBranch P fuel e.hashPrev with
            | none => none
            | some (branch, fork) => some (cursor :: branch, fork)

/-- Whether the tip is the block a branch stands on. -/
def atFork (fork : Option Bytes32) (s : ChainState) : Bool :=
  match fork with
  | none => s.mBestChain.height = 0
  | some forkHash => s.mBestChain.blockHash = forkHash

def disconnectToFork (P : Params) (fork : Option Bytes32) : Nat → ChainState → Bool × ChainState
  | 0, s => (false, s)
  | fuel + 1, s =>
      if s.atFork fork then (true, s)
      else if s.mBestChain.height = 0 then (false, s)
      else
        match s.disconnectTipLocked P with
        | (false, s) => (false, s)
        | (true, s) => disconnectToFork P fork fuel s

/-- One disconnect for each block connected, up to the first that fails. -/
def rollbackConnectedLocked (P : Params) : List Bytes32 → ChainState → ChainState
  | [], s => s
  | _ :: connected, s =>
      match s.disconnectTipLocked P with
      | (false, s) => s
      | (true, s) => rollbackConnectedLocked P connected s

/-- The blocks of a branch are connected, the oldest first. `connected` lists
those that were, the newest first. -/
def connectBranch (P : Params) : List Bytes32 → List Bytes32 → ChainState → Bool × ChainState
  | [], _, s => (true, s)
  | blockHash :: branch, connected, s =>
      match s.readBlockIndex blockHash with
      | none => (false, s.rollbackConnectedLocked P connected)
      | some e =>
          match s.mBlockData.readBlock P e.blockPos with
          | none => (false, s.rollbackConnectedLocked P connected)
          | some block =>
              match s.connectBlockLocked P block with
              | (false, s) => (false, s.rollbackConnectedLocked P connected)
              | (true, s) => connectBranch P branch (blockHash :: connected) s

/-- The walk down the new branch ends by the height of its tip. -/
def branchFuel (s : ChainState) (newTipHash : Bytes32) : Nat :=
  match s.readBlockIndex newTipHash with
  | none => 1
  | some e => e.nHeight + 1

def activateBestChainLocked (P : Params) (newTipHash : Bytes32) (s : ChainState) :
    Bool × ChainState :=
  match s.newBranch P (s.branchFuel newTipHash) newTipHash with
  | none => (false, s)
  | some (branch, fork) =>
      match s.disconnectToFork P fork (s.mBestChain.height + 1) with
      | (false, s) => (false, s)
      | (true, s) => s.connectBranch P branch.reverse []

/-! ### A block arrives -/

/-- The height of the last checkpoint of the list that the index holds. -/
def lastCheckpointHeight (P : Params) (s : ChainState) : Option Nat :=
  P.checkpoints.reverse.findSome? fun checkpoint =>
    (s.readBlockIndex checkpoint.blockHash).map (·.nHeight)

/-- The checks `AcceptBlock` makes before it stores a block: its parent is
known, its height follows, it carries work, no checkpoint lies above it, and
it is valid against the coins of the active chain. -/
def admits (P : Params) (now : UInt64) (block : Block) (parent : BlockIndexEntry) (s : ChainState) :
    Bool :=
  let hdr := block.header
  let blockHeight := parent.nHeight + 1
  hdr.height.toNat = blockHeight &&
    P.checkProofOfWork (hdr.getHash P.sha256) hdr.bits &&
    !(s.lastCheckpointHeight P).any (blockHeight < ·) &&
    BlockValidation.validateBlock P now s.mUTXOSet.view (UInt32.ofNat blockHeight) block = .ok ()

/-- `now` is the clock. -/
def acceptBlock (P : Params) (now : UInt64) (block : Block) (s : ChainState) : Bool × ChainState :=
  let blockHash := block.getHash P.sha256
  if s.mInitialized = false then (false, s)
  else if s.mBlockData.hasBlock blockHash then (true, s)
  else
    -- The source reads the entry of a genesis parent in a branch of its own, to the same effect.
    match s.readBlockIndex block.header.prevBlockHash with
    | none => (false, s)
    | some parent =>
        if s.admits P now block parent = false then (false, s)
        else
          let blockWork := P.addChainWork parent.nChainWork block.header.bits
          let s := s.onBlockData (BlockData.writeBlock P block (parent.nHeight + 1) blockWork)
          if P.compareWork blockWork s.mBestChain.chainWork ≤ 0 then (true, s)
          else s.activateBestChainLocked P blockHash

def connectBlock (P : Params) (block : Block) (s : ChainState) : Bool × ChainState :=
  if s.mInitialized = false then (false, s) else s.connectBlockLocked P block

def disconnectBlock (P : Params) (blockHash : Bytes32) (s : ChainState) : Bool × ChainState :=
  if s.mInitialized = false then (false, s)
  else if blockHash ≠ s.mBestChain.blockHash then (false, s)
  else s.disconnectTipLocked P

def getCoin (s : ChainState) (outpoint : OutPoint) : Option Coin := s.mUTXOSet.getCoin outpoint

/-! ### Opening a node -/

def verifyGenesisBlock (P : Params) (s : ChainState) : Bool :=
  P.genesisHash = 0 || s.mDB.genesis.all (· = P.genesisHash)

/-- The transactions of the genesis block, without the checks of a later block. -/
def applyGenesis {σ : Type} [CoinDB σ] : Bool → List Transaction → σ → Bool × σ
  | _, [], u => (true, u)
  | first, tx :: txs, u =>
      match CoinDB.applyTransaction tx 0 (first && tx.isCoinbase) u with
      | (none, u) => (false, u)
      | (some _, u) => applyGenesis false txs u

def initializeGenesisLocked (P : Params) (s : ChainState) : Bool × ChainState :=
  if P.genesisHash = 0 then (true, s)
  else
    let genesis := P.buildGenesisBlock
    let hdr := genesis.header
    if hdr.getHash P.sha256 ≠ P.genesisHash then (false, s)
    else
      match s.onUTXOSet (applyGenesis true genesis.transactions) with
      | (false, s) => (false, s)
      | (true, s) =>
          let chainWork := P.addChainWork 0 hdr.bits
          let s := s.onBlockData (BlockData.writeBlock P genesis 0 chainWork)
          let s := { s with
            mBestChain := ⟨P.genesisHash, 0, hdr.timestamp, hdr.bits, chainWork⟩
            mChainByHeight := [P.genesisHash] }
          let s := s.writeBest.writeDB fun db => { db with genesis := some P.genesisHash }
          (true, s.commitAt P P.genesisHash)

/-- The hashes from a block back to height zero, the newest first. -/
def hashesDown (s : ChainState) : Nat → Bytes32 → Option (List Bytes32)
  | 0, cursor => some [cursor]
  | height + 1, cursor =>
      match s.readBlockIndex cursor with
      | none => none
      | some entry => (s.hashesDown height entry.hashPrev).map (cursor :: ·)

def buildHeightIndexLocked (s : ChainState) : ChainState :=
  if s.mBestChain.blockHash = 0 then { s with mChainByHeight := [] }
  else
    match s.hashesDown s.mBestChain.height s.mBestChain.blockHash with
    | none => { s with mChainByHeight := [] }
    | some reversed => { s with mChainByHeight := reversed.reverse }

/-- The blocks from one block back to another that is not listed, the newest first. -/
def ancestorPathFrom (s : ChainState) (stop : Bytes32) : Nat → Bytes32 → Option (List Bytes32)
  | 0, _ => none
  | n + 1, cursor =>
      match s.readBlockIndex cursor with
      | none => none
      | some entry =>
          if entry.hashPrev = stop then some [cursor]
          else if entry.nHeight = 0 then none
          else (s.ancestorPathFrom stop n entry.hashPrev).map (cursor :: ·)

def ancestorPathLocked (s : ChainState) (start stop : Bytes32) : Option (List Bytes32) :=
  if start = stop then some []
  else s.ancestorPathFrom stop (s.mBestChain.height + 2) start

/-- Back from a block while it is above a height. -/
def descendTo (s : ChainState) (height : Nat) :
    Nat → Bytes32 × BlockIndexEntry → Option (Bytes32 × BlockIndexEntry)
  | 0, cursor => some cursor
  | n + 1, cursor =>
      if height < cursor.2.nHeight then
        match s.readBlockIndex cursor.2.hashPrev with
        | none => none
        | some entry => s.descendTo height n (cursor.2.hashPrev, entry)
      else some cursor

/-- Back from two blocks in step until they are one. -/
def meet (s : ChainState) :
    Nat → Bytes32 × BlockIndexEntry → Bytes32 × BlockIndexEntry → Option Bytes32
  | 0, _, _ => none
  | n + 1, a, b =>
      if a.1 = b.1 then some a.1
      else if a.2.nHeight = 0 ∨ b.2.nHeight = 0 then none
      else
        match s.readBlockIndex a.2.hashPrev, s.readBlockIndex b.2.hashPrev with
        | some ea, some eb => s.meet n (a.2.hashPrev, ea) (b.2.hashPrev, eb)
        | _, _ => none

def lastCommonAncestorLocked (s : ChainState) (a b : Bytes32) : Option Bytes32 :=
  match s.readBlockIndex a, s.readBlockIndex b with
  | some ea, some eb =>
      let maxSteps := s.mBestChain.height + 2
      match s.descendTo eb.nHeight maxSteps (a, ea) with
      | none => none
      | some ca =>
          match s.descendTo ca.2.nHeight maxSteps (b, eb) with
          | none => none
          | some cb => s.meet maxSteps ca cb
  | _, _ => none

def rollforwardBlockLocked (P : Params) (blockHash : Bytes32) (height : Nat) (s : ChainState) :
    Bool × ChainState :=
  match s.readBlockIndex blockHash with
  | none => (false, s)
  | some entry =>
      match s.mBlockData.readBlock P entry.blockPos with
      | none => (false, s)
      | some block =>
          if block.getHash P.sha256 ≠ blockHash then (false, s)
          else s.onUTXOSet (replayTransactions (UInt32.ofNat height) true block.transactions)

def rollbackBlockLocked (P : Params) (blockHash : Bytes32) (height : Nat) (s : ChainState) :
    Bool × ChainState :=
  if height = 0 then (true, s)
  else
    match s.readBlockIndex blockHash with
    | none => (false, s)
    | some entry =>
        match s.mBlockData.readBlock P entry.blockPos with
        | none => (false, s)
        | some block =>
            match s.mBlockData.readBlockUndo blockHash with
            | none => (false, s)
            | some undo => s.onUTXOSet (undoBlockTwoPhase block undo)

/-- One step of the replay for each block of a list, with the height its entry gives. -/
def replayEach (step : Bytes32 → Nat → ChainState → Bool × ChainState) :
    List Bytes32 → ChainState → Bool × ChainState
  | [], s => (true, s)
  | blockHash :: rest, s =>
      match s.readBlockIndex blockHash with
      | none => (false, s)
      | some entry =>
          match step blockHash entry.nHeight s with
          | (false, s) => (false, s)
          | (true, s) => replayEach step rest s

/-- The blocks from the tip back to genesis, genesis included, the newest first. -/
def pathToGenesis (P : Params) (s : ChainState) : Nat → Bytes32 → Option (List Bytes32)
  | 0, _ => none
  | n + 1, cursor =>
      if cursor = P.genesisHash then some [cursor]
      else
        match s.readBlockIndex cursor with
        | none => none
        | some entry => (s.pathToGenesis P n entry.hashPrev).map (cursor :: ·)

/-- What is to be rolled back, the newest first, and what is to be rolled
forward, the oldest first, to bring the coins from one block to another. -/
def replayPlan (P : Params) (s : ChainState) (source target : Bytes32) :
    Option (List Bytes32 × List Bytes32) :=
  if source = 0 then
    (s.pathToGenesis P (s.mBestChain.height + 2) target).map fun path => ([], path.reverse)
  else
    match s.lastCommonAncestorLocked source target with
    | none => none
    | some fork =>
        match s.ancestorPathLocked source fork, s.ancestorPathLocked target fork with
        | some rollback, some rollforward => some (rollback, rollforward.reverse)
        | _, _ => none

def replayBlocksLocked (P : Params) (s : ChainState) : Bool × ChainState :=
  let marker := s.mUTXOSet.getHeadBlocks
  let target := s.mBestChain.blockHash
  let source := match marker with
    | some (_, markedOld) => markedOld
    | none => s.mUTXOSet.getBestBlock
  if source ≠ 0 ∧ source = target then
    if marker.isSome then (true, (s.onUTXOSet fun u => ((), u.flush P)).2) else (true, s)
  else
    match s.replayPlan P source target with
    | none => (false, s)
    | some (rollback, rollforward) =>
        match replayEach (rollbackBlockLocked P) rollback s with
        | (false, s) => (false, s)
        | (true, s) =>
            match replayEach (rollforwardBlockLocked P) rollforward s with
            | (false, s) => (false, s)
            | (true, s) =>
                let s := s.commitAt P target
                (s.mUTXOSet.getBestBlock = target, s)

def loadBestChain (s : ChainState) : Bool × ChainState :=
  match s.mDB.best with
  | none => (false, { s with mBestChain := .none, mChainByHeight := [] })
  | some best => (true, { s with mBestChain := best })

/-- `ChainState::Initialize`. The texts are those of the `DBError` thrown. -/
def initializeState (P : Params) (s : ChainState) : Except String ChainState :=
  if s.verifyGenesisBlock P = false then
    .error "Genesis block mismatch - chain data does not belong to this network"
  else
    match match s.loadBestChain with
      | (true, s) => (true, s)
      | (false, s) => s.initializeGenesisLocked P with
    | (false, _) => .error ("Failed to initialize genesis block - " ++
        "chainparams do not reproduce the genesis hash?")
    | (true, s) =>
        let interrupted := s.mUTXOSet.getHeadBlocks.isSome
        let utxoBest := s.mUTXOSet.getBestBlock
        match if interrupted ∨ utxoBest ≠ s.mBestChain.blockHash then s.replayBlocksLocked P
          else (true, s) with
        | (false, _) => .error ("Chain tip and UTXO set disagree - the recorded " ++
            "block is not an ancestor of the tip")
        | (true, s) => .ok { s with mInitialized := true }.buildHeightIndexLocked

end ChainState

end QmaskCore
