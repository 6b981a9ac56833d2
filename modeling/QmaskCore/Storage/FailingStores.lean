import QmaskCore.Storage.ChainState

/-!
`ConnectBlock` on stores that fail.

`Failures` says which of the calls that one `ConnectBlock` makes into its three
stores fail. A read fails by throwing; a write throws, or returns false where its
type lets it. The functions below are those of `QmaskCore.Storage.ChainState` and
of the parts it works on, with these calls in them: a result `none` is a
`DBError` that leaves the function, and the state beside it is what it leaves
behind. Without failures they are the functions they repeat
(`connectBlockFailing_none`).
-/

namespace QmaskCore

/-- Which reads made for a payment fail. -/
inductive ReadFailure where
  | coin
  /-- `ApplyTransaction` takes the `DBError` for a malformed proof. -/
  | leaf
deriving DecidableEq

/-- How a write fails. -/
inductive WriteFailure where
  | refused
  | thrown
deriving DecidableEq

/-- The first call of `WriteBlockConnected` that fails. -/
inductive RecordFailure where
  /-- The number of the next file is not written or, where none is begun, the file does not open. -/
  | file
  /-- The block is not appended, or all of it is and the file can not be synced. -/
  | append (whole : Bool)
  /-- The record of the file is not read, or the batch is not written. -/
  | index
deriving DecidableEq

/-- The calls of one `ConnectBlock` that fail. -/
structure Failures where
  /-- a read of the index for the checks of the header -/
  header : Bool
  /-- a read made for the `i`-th payment -/
  payment : Nat → Option ReadFailure
  /-- the `n`-th erase of the rollback -/
  rollback : Option Nat
  record : Option (RecordFailure × WriteFailure)
  /-- the write of `DB_CHAIN_BEST` -/
  best : Option WriteFailure
  /-- of the commit: a read, the marker, or a batch behind it -/
  commit : Option Nat
  /-- the write of `DB_CHAIN_GENESIS` -/
  genesis : Bool

def Failures.none : Failures := ⟨false, fun _ => .none, .none, .none, .none, .none, false⟩

/-- What a function returns that passes a failed write on. -/
def WriteFailure.result : WriteFailure → Option Bool
  | .refused => some false
  | .thrown => .none

namespace UTXOSet

/-! ### Reading for a payment -/

/-- Looking up the inputs' coins, up to the first that is missing, takes a read
of the database. -/
def readsCoins (u : UTXOSet) : List TxInput → Bool
  | [] => false
  | input :: inputs =>
      (u.mCache.lookup input.outpoint).isNone ||
        ((u.getCoin input.outpoint).isSome && u.readsCoins inputs)

def readsLeaf (u : UTXOSet) (key : NoiseLeafKey) : Bool :=
  key ∉ u.mSpentLeafCache && key ∉ u.mErasedLeafDirty

/-- Claiming leaves takes a read of the database. -/
def readsLeaves (u : UTXOSet) : List NoiseLeafKey → List NoiseLeafKey → Bool
  | _, [] => false
  | seen, key :: keys =>
      u.readsLeaf key ||
        (!u.isNoiseLeafSpent key && key ∉ seen && u.readsLeaves (seen ++ [key]) keys)

/-- Gathering the inputs takes a read of a leaf. -/
def gatherReadsLeaf (u : UTXOSet) : List NoiseLeafKey → List TxInput → Bool
  | _, [] => false
  | seen, input :: inputs =>
      if (u.getCoin input.outpoint).isNone || input.noiseProof.isEmpty then false
      else
        u.readsLeaves seen input.leaves.1 ||
          match claimLeaves u.isNoiseLeafSpent seen input.leaves.1 with
          | none => false
          | some seen => input.leaves.2 && u.gatherReadsLeaf seen inputs

/-- A payment gets as far as the reads of its leaves, and makes one. -/
def paymentReadsLeaf (P : Params) (tx : Transaction) (u : UTXOSet) : Bool :=
  match u.view.coinsOf tx.inputs with
  | none => false
  | some coins =>
      match inputTotal P 0 coins with
      | none => false
      | some valueIn =>
          !(P.getValueOut tx < 0 || valueIn < P.getValueOut tx) && u.gatherReadsLeaf [] tx.inputs

/-- How a payment comes to an end before the store can apply it. -/
def stopsPayment (P : Params) (tx : Transaction) (failure : Option ReadFailure) (u : UTXOSet) :
    Option ReadFailure :=
  match failure with
  | some .coin => if u.readsCoins tx.inputs then some .coin else none
  | some .leaf => if u.paymentReadsLeaf P tx then some .leaf else none
  | none => none

def applyPaymentFailing (P : Params) (height : UInt32) (tx : Transaction)
    (failure : Option ReadFailure) (u : UTXOSet) : Option (Option (List Coin)) × UTXOSet :=
  match u.stopsPayment P tx failure with
  | some .coin => (none, u)
  | some .leaf => (some none, u)
  | none => (applyPayment P height tx u).map some id

def applyPaymentsFailing (P : Params) (height : UInt32) (failures : Nat → Option ReadFailure) :
    Nat → List (Transaction × List Coin) → List Transaction → UTXOSet →
      Option Bool × List (Transaction × List Coin) × UTXOSet
  | _, applied, [], u => (some true, applied, u)
  | i, applied, tx :: txs, u =>
      match u.applyPaymentFailing P height tx (failures i) with
      | (none, u) => (none, applied, u)
      | (some none, u) => (some false, applied, u)
      | (some (some spent), u) =>
          applyPaymentsFailing P height failures (i + 1) ((tx, spent) :: applied) txs u

/-! ### Rolling back -/

/-- The outputs of a transaction leave both stores, up to the `n`-th, which has
left the cache when the database throws. -/
def eraseCut (tx : Transaction) (n : Nat) (u : UTXOSet) : UTXOSet :=
  let u := (tx.outpoints.take n).foldl eraseOutput u
  { u with mCache := u.mCache.erase (tx.outpoint n) }

/-- Undo what was applied, the newest first, up to the erase that throws. -/
def rollbackFailing : Option Nat → List (Transaction × List Coin) → UTXOSet → Bool × UTXOSet
  | _, [], u => (true, u)
  | none, (tx, spent) :: applied, u =>
      rollbackFailing none applied (u.undoTransaction tx spent).2
  | some n, (tx, spent) :: applied, u =>
      if n < tx.outputs.length then (false, u.eraseCut tx n)
      else rollbackFailing (some (n - tx.outputs.length)) applied (u.undoTransaction tx spent).2

def applyBlockFailing (P : Params) (failures : Failures) (block : Block) (height : UInt32)
    (u : UTXOSet) : Option (Option BlockUndo) × UTXOSet :=
  match applyCoinbase height block.coinbase? u with
  | (false, u) => (some none, u)
  | (true, u) =>
      match u.applyPaymentsFailing P height failures.payment 0 [] block.payments with
      | (none, _, u) => (none, u)
      | (some true, applied, u) => (some (some (undoOf applied)), u)
      | (some false, applied, u) =>
          match u.rollbackFailing failures.rollback
            (applied ++ block.coinbase?.toList.map fun tx => (tx, [])) with
          | (false, u) => (none, u)
          | (true, u) => (some none, u)

/-! ### Committing -/

/-- `flushEntries` up to the batch that throws. -/
def flushEntriesFailing :
    Nat → List OutPoint → List UTXOWrite → Nat → UTXOSet → UTXOSet
  | _, [], _, _, u => u
  | n, outpoint :: rest, batch, batchSize, u =>
      match u.mCache.lookup outpoint with
      | none => flushEntriesFailing n rest batch batchSize u
      | some entry =>
          if !entry.isDirty then flushEntriesFailing n rest batch batchSize u
          else
            let batch := batch ++
              [if entry.coin.isSpent then .eraseCoin outpoint else .writeCoin outpoint entry.coin]
            let u := u.cacheEntry outpoint { entry with isDirty := false }
            let batchSize := batchSize + entrySize
            if maxBatchSize ≤ batchSize then
              match n with
              | 0 => u
              | n + 1 => flushEntriesFailing n rest [] 0 (u.writeBatch batch)
            else flushEntriesFailing n rest batch batchSize u

/-- A commit throws at its first read, at the marker, or at one of the batches
behind it, the last where there are fewer. -/
def flushFailing (P : Params) (failure : Option Nat) (u : UTXOSet) : Bool × UTXOSet :=
  match failure with
  | none => (true, u.flush P)
  | some 0 => (false, u)
  | some 1 => (false, u)
  | some (n + 2) =>
      (false, flushEntriesFailing n (P.cacheOrder u.mCache.keys) [] 0 (u.beginCommit u.mBestBlock))

end UTXOSet

/-- What the calls of `WriteBlockConnected` made before one fails leave. -/
def BlockData.writeBlockFailing (P : Params) (block : Block) (failure : RecordFailure)
    (d : BlockData) : BlockData :=
  let full : Bool := maxBlockFileSize <
    fileSize P (d.file d.mLastBlockFile) + block.getSerializedSize P + 8
  match failure with
  | .file => if full then { d with mLastBlockFile := d.mLastBlockFile + 1 } else d
  | .append false => if full then d.writeLastBlockFile (d.mLastBlockFile + 1) else d
  | .append true => (d.writeBlockToDisk P block).2
  | .index => (d.writeBlockToDisk P block).2

/-! ### Without failures -/

namespace UTXOSet

theorem applyPaymentsFailing_none (P : Params) (height : UInt32) (txs : List Transaction) :
    ∀ (i : Nat) (applied : List (Transaction × List Coin)) (u : UTXOSet),
    u.applyPaymentsFailing P height Failures.none.payment i applied txs =
      (applyPayments P height applied txs u).map some id := by
  induction txs with
  | nil => exact fun _ _ _ => rfl
  | cons tx txs ih =>
      intro i applied u
      rw [applyPaymentsFailing, applyPayments]
      change (match (applyPayment P height tx u).map some id with
        | (none, u) => _
        | (some none, u) => _
        | (some (some spent), u) => _) = _
      rcases applyPayment P height tx u with ⟨_ | spent, u'⟩
      · rfl
      · exact ih (i + 1) _ u'

theorem rollbackFailing_none : ∀ (applied : List (Transaction × List Coin)) (u : UTXOSet),
    u.rollbackFailing none applied = (true, rollbackPayments applied u) := by
  intro applied
  induction applied with
  | nil => exact fun _ => rfl
  | cons done applied ih => exact fun u => ih (u.undoTransaction done.1 done.2).2

theorem applyBlockFailing_none (P : Params) (block : Block) (height : UInt32) (u : UTXOSet) :
    u.applyBlockFailing P .none block height =
      (applyBlockTwoPhase P block height u).map some id := by
  rw [applyBlockFailing, applyBlockTwoPhase]
  rcases applyCoinbase height block.coinbase? u with ⟨_ | _, u⟩
  · rfl
  · dsimp only
    rw [applyPaymentsFailing_none]
    rcases applyPayments P height [] block.payments u with ⟨_ | _, applied, u⟩
    · -- The coinbase is the last of what is taken back.
      change (match u.rollbackFailing none _ with
        | (false, u) => _
        | (true, u) => _) = _
      rw [rollbackFailing_none, rollbackPayments, List.foldl_append]
      cases block.coinbase? <;> rfl
    · rfl

end UTXOSet

namespace ChainState

/-- The checks of a header get as far as a read of the index. -/
def readsIndex (block : Block) (s : ChainState) : Bool :=
  block.header.height.toNat = s.mBestChain.height + 1 && s.mBestChain.height ≠ 0 &&
    block.header.prevBlockHash = s.mBestChain.blockHash

/-- What `ConnectBlockLocked` does once the block is recorded: the tip moves in
memory, is written, and the coins are committed at it. -/
def moveTipFailing (P : Params) (failures : Failures) (block : Block) (newHeight : Nat)
    (chainWork : Bytes32) (s : ChainState) : Option Bool × ChainState :=
  let s := s.setTip P block newHeight chainWork
  match failures.best with
  | some how => (how.result, s)
  | none =>
      let blockHash := block.getHash P.sha256
      match s.writeBest.onUTXOSet fun u =>
        (u.setBestBlock blockHash).flushFailing P failures.commit with
      | (false, s) => (none, s)
      | (true, s) =>
          if newHeight = 1 && failures.genesis then (none, s)
          else
            let s :=
              if newHeight = 1 then
                s.writeDB fun db => { db with genesis := some block.header.prevBlockHash }
              else s
            (some true, s.queueConnectedLocked block)

def connectBlockLockedFailing (P : Params) (failures : Failures) (block : Block)
    (s : ChainState) : Option Bool × ChainState :=
  let newHeight := s.mBestChain.height + 1
  if failures.header && s.readsIndex block then (none, s)
  else if s.extendsTip P block = false then (some false, s)
  else
    match s.onUTXOSet (UTXOSet.applyBlockFailing P failures block (UInt32.ofNat newHeight)) with
    | (none, s) => (none, s)
    | (some none, s) => (some false, s)
    | (some (some undo), s) =>
        let chainWork := P.addChainWork s.mBestChain.chainWork block.header.bits
        match failures.record with
        | some (failure, how) =>
            (how.result, s.onBlockData (BlockData.writeBlockFailing P block failure))
        | none =>
            let s := s.onBlockData
              (BlockData.writeBlockConnected P block newHeight chainWork undo)
            s.moveTipFailing P failures block newHeight chainWork

def connectBlockFailing (P : Params) (failures : Failures) (block : Block) (s : ChainState) :
    Option Bool × ChainState :=
  if s.mInitialized = false then (some false, s)
  else s.connectBlockLockedFailing P failures block

/-- Where nothing fails, this is `ConnectBlock`. -/
theorem connectBlockFailing_none (P : Params) (block : Block) (s : ChainState) :
    s.connectBlockFailing P .none block = (s.connectBlock P block).map some id := by
  rw [connectBlockFailing, connectBlock]
  split
  · rfl
  · have applied : s.onUTXOSet (UTXOSet.applyBlockFailing P .none block
        (UInt32.ofNat (s.mBestChain.height + 1))) =
        (s.onUTXOSet (applyBlockTwoPhase P block
          (UInt32.ofNat (s.mBestChain.height + 1)))).map some id := by
      simp only [onUTXOSet, UTXOSet.applyBlockFailing_none]
      rfl
    have readable : ¬ (Failures.none.header && s.readsIndex block) = true := by
      simp [Failures.none]
    rw [connectBlockLockedFailing, connectBlockLocked, applied]
    dsimp only
    rw [if_neg readable]
    split
    · rfl
    · rcases s.onUTXOSet (applyBlockTwoPhase P block
        (UInt32.ofNat (s.mBestChain.height + 1))) with ⟨_ | undo, s'⟩
      · rfl
      · simp [Failures.none, moveTipFailing, UTXOSet.flushFailing, commitAt, onUTXOSet]

end ChainState

end QmaskCore
