import QmaskCore.Ledger.Runs

/-!
A node that is closed and opened again.

When the process ends the coin set commits what it still caches (`shutdown`),
and `restart` opens a node on what is then on disk. `Saved` is what the disk
holds beside the coins at every moment between two calls: the tip, the genesis
hash, the number of the current file and the block the coins belong to. Every
call keeps it, so a clean restart replays nothing and the node that comes up
represents the same ledger (`Represents.restart`).
-/

namespace QmaskCore

/-- The number of the current file is on disk. -/
def BlockData.FileSaved (d : BlockData) : Prop :=
  d.mLastBlockFile = d.disk.db.lastBlockFile.getD 0

namespace BlockData.FileSaved

variable {P : Params} {d : BlockData}

theorem writeBlockToDisk (saved : d.FileSaved) (block : Block) :
    (d.writeBlockToDisk P block).2.FileSaved := by
  unfold BlockData.writeBlockToDisk
  dsimp only
  split
  · exact rfl
  · exact saved

theorem foldl_putTxIndex (blockHash : Bytes32) : ∀ (txs : List Transaction) {d : BlockData},
    d.FileSaved →
    (txs.foldl (fun d tx => d.writeDB (putTxIndex blockHash · tx)) d).FileSaved := by
  intro txs
  induction txs with
  | nil => exact fun saved => saved
  | cons tx txs ih => exact fun {d} saved => ih (d := d.writeDB (putTxIndex blockHash · tx)) saved

theorem writeBlock (saved : d.FileSaved) (block : Block) (height : Nat) (chainWork : Bytes32) :
    (d.writeBlock P block height chainWork).FileSaved :=
  foldl_putTxIndex _ block.transactions (saved.writeBlockToDisk (P := P) block)

theorem lastBlockFile_foldl_putTxIndex (blockHash : Bytes32) : ∀ (txs : List Transaction)
    (db : BlockIndexDB), (txs.foldl (putTxIndex blockHash) db).lastBlockFile = db.lastBlockFile := by
  intro txs
  induction txs with
  | nil => exact fun _ => rfl
  | cons tx txs ih => exact fun db => ih (putTxIndex blockHash db tx)

theorem writeBlockConnected (saved : d.FileSaved) (block : Block) (height : Nat)
    (chainWork : Bytes32) (undo : BlockUndo) :
    (d.writeBlockConnected P block height chainWork undo).FileSaved := by
  have written := saved.writeBlockToDisk (P := P) block
  unfold BlockData.writeBlockConnected
  dsimp only
  rw [FileSaved] at written ⊢
  refine written.trans (congrArg (Option.getD · 0) ?_)
  exact (lastBlockFile_foldl_putTxIndex (block.getHash P.sha256) block.transactions
    (putUndo _ undo (putIndex _ _ _))).symm

end BlockData.FileSaved

namespace ChainState

/-- What is on disk once the process has ended: the destructor of the coin set
commits what is cached. -/
def shutdown (P : Params) (s : ChainState) : Disk :=
  (s.onUTXOSet fun u => ((), u.flush P)).2.disk

/-- A node is opened on the disk another left. -/
def restart (P : Params) (s : ChainState) : Except String ChainState :=
  initializeState P (.ofDisk (s.shutdown P))

/-- The disk knows where the node is. -/
structure Saved (P : Params) (s : ChainState) : Prop where
  best : s.mDB.best = some s.mBestChain
  genesis : s.verifyGenesisBlock P = true
  marker : s.mUTXOSet.mBestBlock = s.mBestChain.blockHash
  file : s.mBlockData.FileSaved

/-! ### What every call keeps -/

/-- A block read back through the index. -/
def Reads (P : Params) (s : ChainState) (block : Block) : Prop :=
  ∃ blockHash entry, s.readBlockIndex blockHash = some entry ∧
    s.mBlockData.readBlock P entry.blockPos = some block

/-- A property that the pieces of the calls of a run keep: what is connected was
read back or handed in, and what is stored came to `AcceptBlock` and is new. -/
structure KeepsIn (P : Params) (ops : List ChainOp) (holds : ChainState → Prop) : Prop where
  connect : ∀ {s : ChainState} {block : Block}, s.Reads P block ∨ Direct ops block → holds s →
    holds (s.connectBlockLocked P block).2
  disconnect : ∀ {s : ChainState}, holds s → holds (s.disconnectTipLocked P).2
  store : ∀ {s : ChainState} {time : UInt64} {block : Block} {parent : BlockIndexEntry},
    .acceptBlock time block ∈ ops → s.mBlockData.hasBlock (block.getHash P.sha256) = false →
    s.admits P time block parent = true → ∀ height chainWork, holds s →
    holds (s.onBlockData (BlockData.writeBlock P block height chainWork))

namespace KeepsIn

variable {P : Params} {ops : List ChainOp} {holds : ChainState → Prop}

theorem disconnectToFork (keeps : KeepsIn P ops holds) (fork : Option Bytes32) :
    ∀ (fuel : Nat) {s : ChainState}, holds s → holds (s.disconnectToFork P fork fuel).2 := by
  intro fuel
  induction fuel with
  | zero => exact fun now => now
  | succ fuel ih =>
      intro s now
      have next := keeps.disconnect now
      rw [ChainState.disconnectToFork]
      split
      · exact now
      · split
        · exact now
        · generalize s.disconnectTipLocked P = out at next ⊢
          rcases out with ⟨_ | _, s'⟩
          · exact next
          · exact ih next

theorem rollbackConnectedLocked (keeps : KeepsIn P ops holds) : ∀ (connected : List Bytes32)
    {s : ChainState}, holds s → holds (s.rollbackConnectedLocked P connected) := by
  intro connected
  induction connected with
  | nil => exact fun now => now
  | cons blockHash connected ih =>
      intro s now
      have next := keeps.disconnect now
      rw [ChainState.rollbackConnectedLocked]
      generalize s.disconnectTipLocked P = out at next ⊢
      rcases out with ⟨_ | _, s'⟩
      · exact next
      · exact ih next

theorem connectBranch (keeps : KeepsIn P ops holds) : ∀ (branch : List Bytes32)
    {connected : List Bytes32} {s : ChainState}, holds s →
    holds (s.connectBranch P branch connected).2 := by
  intro branch
  induction branch with
  | nil => exact fun now => now
  | cons blockHash branch ih =>
      intro connected s now
      have back := keeps.rollbackConnectedLocked connected now
      rw [ChainState.connectBranch]
      split
      · exact back
      · rename_i entry read
        split
        · exact back
        · rename_i block found
          have next := keeps.connect (.inl ⟨blockHash, entry, read, found⟩) now
          generalize s.connectBlockLocked P block = out at next ⊢
          rcases out with ⟨_ | _, s'⟩
          · exact keeps.rollbackConnectedLocked connected next
          · exact ih next

theorem activateBestChainLocked (keeps : KeepsIn P ops holds) (newTipHash : Bytes32)
    {s : ChainState} (now : holds s) : holds (s.activateBestChainLocked P newTipHash).2 := by
  rw [ChainState.activateBestChainLocked]
  split
  · exact now
  · rename_i branch fork _
    have back := keeps.disconnectToFork fork (s.mBestChain.height + 1) now
    generalize s.disconnectToFork P fork (s.mBestChain.height + 1) = out at back ⊢
    rcases out with ⟨_ | _, s'⟩
    · exact back
    · exact keeps.connectBranch _ back

theorem acceptBlock (keeps : KeepsIn P ops holds) {time : UInt64} {block : Block}
    (mem : .acceptBlock time block ∈ ops) {s : ChainState} (now : holds s) :
    holds (s.acceptBlock P time block).2 := by
  rw [ChainState.acceptBlock]
  dsimp only
  split
  · exact now
  · split
    · exact now
    · rename_i new
      split
      · exact now
      · rename_i parent _
        split
        · exact now
        · rename_i admitted
          have stored := keeps.store mem (by simpa using new) (by simpa using admitted)
            (parent.nHeight + 1) (P.addChainWork parent.nChainWork block.header.bits) now
          split
          · exact stored
          · exact keeps.activateBestChainLocked _ stored

theorem step (keeps : KeepsIn P ops holds) {op : ChainOp} (mem : op ∈ ops) {s : ChainState}
    (now : holds s) : holds (s.step P op).2 := by
  cases op with
  | acceptBlock time block => exact keeps.acceptBlock mem now
  | connectBlock block =>
      change holds (s.connectBlock P block).2
      rw [ChainState.connectBlock]
      split
      · exact now
      · exact keeps.connect (.inr mem) now
  | disconnectBlock blockHash =>
      change holds (s.disconnectBlock P blockHash).2
      rw [ChainState.disconnectBlock]
      split
      · exact now
      · split
        · exact now
        · exact keeps.disconnect now

end KeepsIn

/-- A property that the pieces of every call keep. -/
structure Keeps (P : Params) (holds : ChainState → Prop) : Prop where
  connect : ∀ {s : ChainState} (block : Block), holds s → holds (s.connectBlockLocked P block).2
  disconnect : ∀ {s : ChainState}, holds s → holds (s.disconnectTipLocked P).2
  store : ∀ {s : ChainState} (block : Block) (height : Nat) (chainWork : Bytes32), holds s →
    holds (s.onBlockData (BlockData.writeBlock P block height chainWork))

theorem Keeps.step {P : Params} {holds : ChainState → Prop} (keeps : Keeps P holds) (op : ChainOp)
    {s : ChainState} (now : holds s) : holds (s.step P op).2 := by
  have kept : KeepsIn P [op] holds :=
    ⟨fun _ => keeps.connect _, keeps.disconnect, fun _ _ _ => keeps.store _⟩
  exact kept.step (List.mem_singleton_self op) now

/-! ### The disk knows where the node is -/

namespace Saved

variable {P : Params} {s : ChainState}

/-- The coins change, and the block they belong to does not. -/
theorem withCoins {α : Type} (saved : s.Saved P) {f : UTXOSet → α × UTXOSet}
    (same : ∀ u : UTXOSet, (f u).2.mBestBlock = u.mBestBlock) : (s.onUTXOSet f).2.Saved P :=
  ⟨saved.best, saved.genesis, (same _).trans saved.marker, saved.file⟩

theorem queueConnected (saved : s.Saved P) (block : Block) :
    (s.queueConnectedLocked block).Saved P :=
  ⟨saved.best, saved.genesis, saved.marker, saved.file⟩

theorem queueDisconnected (saved : s.Saved P) (block : Block) :
    (s.queueDisconnectedLocked P block).Saved P :=
  ⟨saved.best, saved.genesis, saved.marker, saved.file⟩

theorem store (saved : s.Saved P) (block : Block) (height : Nat) (chainWork : Bytes32) :
    (s.onBlockData (BlockData.writeBlock P block height chainWork)).Saved P :=
  ⟨saved.best, saved.genesis, saved.marker,
    BlockData.FileSaved.writeBlock (d := { s.mBlockData with mHistory := [] }) saved.file _ _ _⟩

theorem mBestBlock_commitAt (s : ChainState) (blockHash : Bytes32) :
    (s.commitAt P blockHash).mUTXOSet.mBestBlock = blockHash :=
  (UTXOSet.flushCache_spec P blockHash
    ({ s.mUTXOSet with mHistory := [] }.setBestBlock blockHash)).sameBest

/-- The tip is written to the chain database and the coins are committed at it. -/
theorem committed (genesis : s.verifyGenesisBlock P = true) (file : s.mBlockData.FileSaved) :
    (s.writeBest.commitAt P s.mBestChain.blockHash).Saved P :=
  ⟨rfl, genesis, mBestBlock_commitAt _ _, file⟩

theorem connectBlockLocked (saved : s.Saved P) (block : Block) :
    (s.connectBlockLocked P block).2.Saved P := by
  have applied := saved.withCoins fun u =>
    (UTXOSet.steady_mBestBlock u.mBestBlock).keeps.applyBlockTwoPhase P block
      (UInt32.ofNat (s.mBestChain.height + 1)) rfl
  rw [ChainState.connectBlockLocked]
  dsimp only
  split
  · exact saved
  · rename_i next
    generalize s.onUTXOSet _ = out at applied ⊢
    rcases out with ⟨_ | undo, s₁⟩
    · exact applied
    · dsimp only
      let work := P.addChainWork s₁.mBestChain.chainWork block.header.bits
      let s₂ := (s₁.onBlockData (BlockData.writeBlockConnected P block (s.mBestChain.height + 1)
        work undo)).setTip P block (s.mBestChain.height + 1) work
      have file : s₂.mBlockData.FileSaved :=
        BlockData.FileSaved.writeBlockConnected (d := { s₁.mBlockData with mHistory := [] })
          applied.file _ _ _ _
      have tip : (s₂.writeBest.commitAt P (block.getHash P.sha256)).Saved P :=
        committed (s := s₂) applied.genesis file
      refine queueConnected ?_ block
      split
      · rename_i first
        -- The parent of the first block is genesis, or it would not have been taken.
        have prev : block.header.prevBlockHash = P.genesisHash := by
          have bottom : s.mBestChain.height = 0 := by omega
          simp only [extendsTip, bottom, Bool.not_eq_false, Bool.and_eq_true, if_true] at next
          simpa using next.1.1.1.2
        refine ⟨tip.best, ?_, tip.marker, tip.file⟩
        simp [verifyGenesisBlock, writeDB, prev]
      · exact tip

theorem disconnectTipLocked (saved : s.Saved P) : (s.disconnectTipLocked P).2.Saved P := by
  rw [ChainState.disconnectTipLocked]
  dsimp only
  split
  · exact saved
  · split
    · exact saved
    · split
      · exact saved
      · rename_i block _
        split
        · exact saved
        · rename_i undo _
          have undone := saved.withCoins fun u =>
            (UTXOSet.steady_mBestBlock u.mBestBlock).keeps.undoBlockTwoPhase block undo rfl
          generalize s.onUTXOSet _ = out at undone ⊢
          rcases out with ⟨_ | _, s₁⟩
          · exact undone
          · dsimp only
            split
            · exact undone
            · exact queueDisconnected
                (committed (s := s₁.resetTip _ _) undone.genesis undone.file) block

theorem buildHeightIndex (saved : s.Saved P) : s.buildHeightIndexLocked.Saved P := by
  unfold buildHeightIndexLocked
  split
  · exact ⟨saved.best, saved.genesis, saved.marker, saved.file⟩
  · split
    · exact ⟨saved.best, saved.genesis, saved.marker, saved.file⟩
    · exact ⟨saved.best, saved.genesis, saved.marker, saved.file⟩

/-- The genesis block written to an empty disk. -/
theorem initializeGenesis (nonzero : P.genesisHash ≠ 0)
    (made : initializeGenesisLocked P (.ofDisk .empty) = (true, s)) : s.Saved P := by
  rw [initializeGenesisLocked, if_neg nonzero] at made
  dsimp only at made
  split at made
  · cases made
  · obtain ⟨history, ran⟩ := (ChainState.ofDisk .empty).onUTXOSet_eq
      (ChainState.applyGenesis true P.buildGenesisBlock.transactions)
    rw [ran] at made
    split at made
    · cases made
    · rename_i s₁ applied
      obtain ⟨-, rfl⟩ := Prod.mk.inj applied
      cases made
      refine ⟨rfl, ?_, mBestBlock_commitAt _ _, ?_⟩
      · simp [verifyGenesisBlock, commitAt, onUTXOSet, writeDB]
      · exact BlockData.FileSaved.writeBlock (d := .ofDisk .empty) rfl _ _ _

theorem keeps (P : Params) : Keeps P (Saved P) where
  connect block saved := saved.connectBlockLocked block
  disconnect saved := saved.disconnectTipLocked
  store block height chainWork saved := saved.store block height chainWork

end Saved

end ChainState

/-! ### Opening again -/

/-- A node opened on an empty disk has saved where it is. -/
theorem saved_initial {P : Params} {s : ChainState} (sound : P.SoundGenesis)
    (opened : ChainState.initializeState P (.ofDisk .empty) = .ok s) : s.Saved P := by
  obtain ⟨s₀, made, rfl⟩ := initializeState_empty sound opened
  have saved := ChainState.Saved.initializeGenesis sound.nonzero made
  exact ChainState.Saved.buildHeightIndex ⟨saved.best, saved.genesis, saved.marker, saved.file⟩

/-- A node that was closed and had saved where it was takes the tip from the disk
and replays nothing. -/
theorem ChainState.Saved.restart_eq {P : Params} {s : ChainState} (saved : s.Saved P) :
    s.restart P = .ok
      { ChainState.ofDisk (s.shutdown P) with
        mBestChain := s.mBestChain, mInitialized := true }.buildHeightIndexLocked := by
  let u : UTXOSet := { s.mUTXOSet with mHistory := [] }
  have done := UTXOSet.flushCache_spec P u.mBestBlock u
  let s₁ : ChainState := { ChainState.ofDisk (s.shutdown P) with mBestChain := s.mBestChain }
  have loaded : (ChainState.ofDisk (s.shutdown P)).loadBestChain = (true, s₁) := by
    unfold ChainState.loadBestChain
    rw [show (ChainState.ofDisk (s.shutdown P)).mDB.best = _ from saved.best]
  have same : ¬ (s₁.mUTXOSet.getHeadBlocks.isSome = true ∨
      s₁.mUTXOSet.getBestBlock ≠ s₁.mBestChain.blockHash) := by
    rw [show s₁.mUTXOSet.getHeadBlocks = none from done.heads,
      show s₁.mUTXOSet.getBestBlock = u.mBestBlock from congrArg (Option.getD · 0) done.best,
      show u.mBestBlock = s₁.mBestChain.blockHash from saved.marker]
    simp
  rw [ChainState.restart, ChainState.initializeState,
    show (ChainState.ofDisk (s.shutdown P)).verifyGenesisBlock P = true from saved.genesis,
    loaded, if_neg (by simp)]
  dsimp only
  rw [if_neg same]

@[simp] theorem ChainState.mBlockData_buildHeightIndexLocked (s : ChainState) :
    s.buildHeightIndexLocked.mBlockData = s.mBlockData := by
  rw [buildHeightIndexLocked]
  split
  · rfl
  · split <;> rfl

theorem ChainState.Saved.blockData_shutdown {P : Params} {s : ChainState} (saved : s.Saved P) :
    (ChainState.ofDisk (s.shutdown P)).mBlockData = { s.mBlockData with mHistory := [] } := by
  change (⟨_, _, _⟩ : BlockData) = ⟨_, _, _⟩
  rw [show s.mBlockData.mLastBlockFile = _ from saved.file]
  rfl

/-- The block data is what it was. -/
theorem ChainState.Saved.blockData_restart {P : Params} {s s' : ChainState} (saved : s.Saved P)
    (ran : s.restart P = .ok s') : s'.mBlockData = { s.mBlockData with mHistory := [] } := by
  obtain rfl := Except.ok.inj (saved.restart_eq.symm.trans ran)
  rw [← saved.blockData_shutdown (P := P), mBlockData_buildHeightIndexLocked]

/-- A node that was closed comes up again, on the ledger it left. -/
theorem Represents.restart {P : Params} {s : ChainState} {L : Ledger} (rep : Represents P s L)
    (saved : s.Saved P) :
    ∃ s', s.restart P = .ok s' ∧ Represents P s' L ∧ s'.Saved P := by
  let u : UTXOSet := { s.mUTXOSet with mHistory := [] }
  have wf : u.WF := rep.cacheFresh
  have done := UTXOSet.flushCache_spec P u.mBestBlock u
  let s₁ : ChainState := { ChainState.ofDisk (s.shutdown P) with mBestChain := s.mBestChain }
  have back : Represents P { s₁ with mInitialized := true } L := by
    refine ⟨rfl, rep.valid, rep.tip, fun stored => ?_, rep.absent, rep.undo,
      (UTXOSet.toCoinStore_reopened wf P _).trans rep.coins, UTXOSet.wf_ofDisk _, nofun, ?_⟩
    · exact rep.stored stored
    · rw [show s₁.mBlockData = _ from saved.blockData_shutdown]
      exact rep.files
  refine ⟨_, saved.restart_eq, back.buildHeightIndex, ChainState.Saved.buildHeightIndex
    ⟨saved.best, saved.genesis, ?_, rfl⟩⟩
  exact (congrArg (Option.getD · 0) done.best).trans saved.marker

/-! ### A life with restarts -/

/-- What happens to a node: a call, or a clean restart. -/
inductive NodeOp where
  | call (op : ChainOp)
  | restart

/-- The calls of a life. -/
def calls (ops : List NodeOp) : List ChainOp :=
  ops.filterMap fun
    | .call op => some op
    | .restart => none

namespace ChainState

def turn (P : Params) (s : ChainState) : NodeOp → Except String ChainState
  | .call op => .ok (s.step P op).2
  | .restart => s.restart P

/-- A life ends early when a restart fails. -/
def life (P : Params) (s : ChainState) (ops : List NodeOp) : Except String ChainState :=
  ops.foldlM (turn P) s

end ChainState

section

variable {P : Params} {ops : List ChainOp}

/-- One turn goes through and is that of the ledger, which a restart leaves alone. -/
theorem turn_sim (fine : Deliverable P ops) {s : ChainState} {L : Ledger} (rep : Represents P s L)
    (saved : s.Saved P) (holds : L.Holds P (Given ops) (Direct ops)) {op : NodeOp}
    (mem : ∀ o ∈ calls [op], o ∈ ops) :
    ∃ s', s.turn P op = .ok s' ∧ Represents P s' (L.run P (calls [op])) ∧ s'.Saved P ∧
      Ledger.Moves P (Given ops) (Direct ops) L (L.run P (calls [op])) := by
  cases op with
  | call op =>
      obtain ⟨same, moves⟩ := step_sim fine rep holds (mem op (by simp [calls]))
      exact ⟨_, rfl, same.state, (ChainState.Saved.keeps P).step op saved, moves⟩
  | restart =>
      obtain ⟨s', ran, rep', saved'⟩ := rep.restart saved
      exact ⟨s', ran, rep', saved', .refl⟩

theorem life_sim (fine : Deliverable P ops) : ∀ {rest : List NodeOp} {s : ChainState} {L : Ledger},
    (∀ op ∈ calls rest, op ∈ ops) → Represents P s L → s.Saved P →
    L.Holds P (Given ops) (Direct ops) →
    ∃ s', s.life P rest = .ok s' ∧ Represents P s' (L.run P (calls rest)) ∧ s'.Saved P ∧
      Ledger.Moves P (Given ops) (Direct ops) L (L.run P (calls rest)) := by
  intro rest
  induction rest with
  | nil => exact fun _ rep saved _ => ⟨_, rfl, rep, saved, .refl⟩
  | cons op rest ih =>
      intro s L sub rep saved holds
      have split : calls (op :: rest) = calls [op] ++ calls rest :=
        List.filterMap_append (l := [op])
      rw [split] at sub ⊢
      obtain ⟨s₁, ran, rep₁, saved₁, moves₁⟩ :=
        turn_sim fine rep saved holds fun o mem => sub o (List.mem_append_left _ mem)
      have holds₁ := Ledger.Moves.holds moves₁ fine.shaped rep.valid holds
      obtain ⟨s₂, onward, rep₂, saved₂, moves₂⟩ :=
        ih (fun o mem => sub o (List.mem_append_right _ mem)) rep₁ saved₁ holds₁
      have whole : L.run P (calls [op] ++ calls rest) =
          (L.run P (calls [op])).run P (calls rest) := List.foldl_append
      refine ⟨s₂, ?_, whole ▸ rep₂, saved₂, whole ▸ moves₁.trans moves₂⟩
      rw [ChainState.life, List.foldlM_cons, ran]
      exact onward

/-- What the calls of a run keep, and a restart too, holds at the end of a life. -/
theorem life_keeps (fine : Deliverable P ops) {holds : ChainState → Prop}
    (keeps : ChainState.KeepsIn P ops holds)
    (reopens : ∀ {s s' : ChainState}, s.Saved P → s.restart P = .ok s' → holds s → holds s') :
    ∀ {rest : List NodeOp} {s s' : ChainState} {L : Ledger}, (∀ op ∈ calls rest, op ∈ ops) →
    Represents P s L → s.Saved P → L.Holds P (Given ops) (Direct ops) → holds s →
    s.life P rest = .ok s' → holds s' := by
  intro rest
  induction rest with
  | nil =>
      intro s s' L _ _ _ _ now ran
      cases ran
      exact now
  | cons op rest ih =>
      intro s s' L sub rep saved came now ran
      have split : calls (op :: rest) = calls [op] ++ calls rest :=
        List.filterMap_append (l := [op])
      rw [split] at sub
      obtain ⟨s₁, turned, rep₁, saved₁, moves₁⟩ :=
        turn_sim fine rep saved came fun o mem => sub o (List.mem_append_left _ mem)
      rw [ChainState.life, List.foldlM_cons, turned] at ran
      refine ih (fun o mem => sub o (List.mem_append_right _ mem)) rep₁ saved₁
        (Ledger.Moves.holds moves₁ fine.shaped rep.valid came) ?_ ran
      cases op with
      | call op =>
          cases turned
          exact keeps.step (sub op (List.mem_append_left _ (by simp [calls]))) now
      | restart => exact reopens saved turned now

end

/-- Whatever happens to a new node, it comes up after every restart and stands
for a ledger reached by small steps. -/
theorem lived {P : Params} {s₀ : ChainState} {ops : List NodeOp} (sound : P.SoundGenesis)
    (opened : ChainState.initializeState P (.ofDisk .empty) = .ok s₀)
    (fine : Deliverable P (calls ops)) :
    ∃ s, s₀.life P ops = .ok s ∧ Represents P s ((Ledger.initial P).run P (calls ops)) ∧
      Ledger.Moves P (Given (calls ops)) (Direct (calls ops)) (.initial P)
        ((Ledger.initial P).run P (calls ops)) := by
  obtain ⟨s, ran, rep, -, moves⟩ := life_sim fine (fun _ mem => mem)
    (represents_initial sound opened) (saved_initial sound opened) Ledger.holds_initial
  exact ⟨s, ran, rep, moves⟩

end QmaskCore
