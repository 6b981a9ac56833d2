import QmaskCore.Validation.Rules
import QmaskCore.Ledger.Represents

/-!
The node does what the ledger does.

Each operation of `ChainState` answers as the ledger's operation of the same
name and leaves a state that represents the ledger's: one block connected or
disconnected (`connectBlockLocked_sim`, `disconnectTipLocked_sim`), a branch
activated, a block accepted (`acceptBlock_sim`). The only thing asked of a block
is that another stored one with its hash has its header too and that a coinbase
out of place spends nothing, and of a block that `AcceptBlock` takes in not even
that.
-/

namespace QmaskCore

open Ledger (Linked Agrees childOf)

/-- One answer, and states that belong together. -/
structure Matches (P : Params) (out : Bool × ChainState) (outL : Bool × Ledger) : Prop where
  answer : out.1 = outL.1
  state : Represents P out.2 outL.2

theorem Matches.split {P : Params} {out : Bool × ChainState} {outL : Bool × Ledger}
    (same : Matches P out outL) :
    ∃ ok s L, out = (ok, s) ∧ outL = (ok, L) ∧ Represents P s L := by
  obtain ⟨ok, s⟩ := out
  obtain ⟨okL, L⟩ := outL
  obtain rfl : ok = okL := same.answer
  exact ⟨ok, s, L, rfl, rfl, same.state⟩

/-- An operation on the coins changes them and adds to the history. -/
theorem ChainState.onUTXOSet_eq {α : Type} (s : ChainState) (f : UTXOSet → α × UTXOSet) :
    ∃ history, s.onUTXOSet f = ((f { s.mUTXOSet with mHistory := [] }).1,
      { s with
        mUTXOSet := { (f { s.mUTXOSet with mHistory := [] }).2 with mHistory := [] }
        mHistory := history }) :=
  ⟨_, rfl⟩

namespace Ledger

variable {P : Params} {L : Ledger} {now : UInt64} {block : Block} {parent : StoredBlock}

theorem height_of_admits (admitted : L.admits P now block parent = true) :
    block.header.height.toNat = parent.height + 1 := by
  unfold admits at admitted
  grind

theorem rules_of_admits (admitted : L.admits P now block parent = true) :
    BlockRules P L.coins.view (UInt32.ofNat (parent.height + 1)) block := by
  have passed : BlockValidation.validateBlock P now L.coins.view
      (UInt32.ofNat (parent.height + 1)) block = .ok () := by
    unfold admits at admitted
    grind
  exact BlockValidation.validateBlock_ok passed

end Ledger

namespace Represents

variable {P : Params} {s : ChainState} {L : Ledger}

/-! ### The parts of a state -/

theorem writeDB (rep : Represents P s L) (f : ChainDB → ChainDB) : Represents P (s.writeDB f) L :=
  ⟨rep.ready, rep.valid, rep.tip, rep.stored, rep.absent, rep.undo, rep.coins, rep.cache, rep.table,
    rep.files⟩

theorem queueConnected (rep : Represents P s L) (block : Block) :
    Represents P (s.queueConnectedLocked block) L :=
  ⟨rep.ready, rep.valid, rep.tip, rep.stored, rep.absent, rep.undo, rep.coins, rep.cache, rep.table,
    rep.files⟩

theorem queueDisconnected (rep : Represents P s L) (block : Block) :
    Represents P (s.queueDisconnectedLocked P block) L :=
  ⟨rep.ready, rep.valid, rep.tip, rep.stored, rep.absent, rep.undo, rep.coins, rep.cache, rep.table,
    rep.files⟩

/-- The coins change and nothing else. -/
theorem withCoins {u : UTXOSet} {history : List Disk} {V : CoinStore} (rep : Represents P s L)
    (valid : { L with coins := V }.Valid P) (coins : u.toCoinStore = V) (cache : u.WF) :
    Represents P { s with mUTXOSet := { u with mHistory := [] }, mHistory := history }
      { L with coins := V } where
  ready := rep.ready
  valid := valid
  tip := rep.tip
  stored := rep.stored
  absent := rep.absent
  undo := rep.undo
  coins := coins
  cache := cache.withHistory []
  table := rep.table
  files := rep.files

theorem cacheFresh (rep : Represents P s L) : { s.mUTXOSet with mHistory := [] }.WF :=
  rep.cache.withHistory []

/-- A block comes to the same on the cached set as on the coins. -/
theorem apply_eq (rep : Represents P s L) (block : Block) (height : UInt32) :
    applyBlockTwoPhase P block height L.coins = Prod.map id UTXOSet.toCoinStore
      (applyBlockTwoPhase P block height { s.mUTXOSet with mHistory := [] }) := by
  rw [← applyBlockTwoPhase_hom UTXOSet.toCoinStore_hom, ← rep.coins]
  rfl

theorem undo_eq (rep : Represents P s L) (block : Block) (undo : BlockUndo) :
    undoBlockTwoPhase block undo L.coins = Prod.map id UTXOSet.toCoinStore
      (undoBlockTwoPhase block undo { s.mUTXOSet with mHistory := [] }) := by
  rw [← undoBlockTwoPhase_hom UTXOSet.toCoinStore_hom, ← rep.coins]
  rfl

/-- A commit changes no coin. -/
theorem commitAt (rep : Represents P s L) (blockHash : Bytes32) :
    Represents P (s.commitAt P blockHash) L := by
  have wf : ({ s.mUTXOSet with mHistory := [] }.setBestBlock blockHash).WF :=
    (rep.cache.withHistory []).setBestBlock blockHash
  exact rep.withCoins rep.valid ((UTXOSet.toCoinStore_flushCache wf P _).trans rep.coins)
    (wf.flushCache P _)

/-- What is read of the blocks once one more is recorded. -/
theorem recorded (rep : Represents P s L) {d : BlockData} {st : StoredBlock}
    (recorded : BlockData.Recorded P st.block st.height st.work s.mBlockData d)
    {blockHash : Bytes32} :
    (∀ {st'}, (L.put P st).tree blockHash = some st' → ∃ pos,
      d.readBlockIndex blockHash =
          some (BlockData.indexEntry st'.block st'.height st'.work pos) ∧
        d.recordAt P pos = some st'.block) ∧
    ((L.put P st).tree blockHash = none → d.readBlockIndex blockHash = none) := by
  obtain ⟨pos, here, index⟩ := recorded.entry
  have read : d.readBlockIndex blockHash =
      if blockHash = st.block.getHash P.sha256 then
        some (BlockData.indexEntry st.block st.height st.work pos)
      else s.readBlockIndex blockHash := by
    rw [BlockData.readBlockIndex, index]
    split
    · rename_i same
      rw [same, AList.lookup_insert]
    · rename_i other
      rw [AList.lookup_insert_ne other]
      rfl
  rw [read, Ledger.tree_put]
  by_cases same : blockHash = st.block.getHash P.sha256
  · rw [if_pos same, if_pos same]
    refine ⟨?_, nofun⟩
    rintro _ ⟨⟩
    exact ⟨pos, rfl, here⟩
  · rw [if_neg same, if_neg same]
    refine ⟨fun found => ?_, rep.absent⟩
    obtain ⟨pos', read', record⟩ := rep.stored found
    exact ⟨pos', read', recorded.kept record⟩

/-- A block is stored. -/
theorem store (rep : Represents P s L) {st : StoredBlock} (valid : (L.put P st).Valid P) :
    Represents P (s.onBlockData (BlockData.writeBlock P st.block st.height st.work))
      (L.put P st) := by
  have files : BlockData.FilesEnd { s.mBlockData with mHistory := [] } := rep.files
  obtain ⟨written, undo⟩ := BlockData.writeBlock_spec (P := P) files st.block st.height st.work
  have recorded : BlockData.Recorded P st.block st.height st.work s.mBlockData _ :=
    ⟨written.entry, written.kept, written.files⟩
  exact ⟨rep.ready, valid, rep.tip, (rep.recorded recorded).1, (rep.recorded recorded).2,
    fun c mem => (congrArg _ undo).trans (rep.undo c mem), rep.coins, rep.cache, rep.table,
    recorded.files⟩

/-! ### One block -/

/-- The tip moves to a block that was applied and recorded. -/
theorem pushed {block : Block} {done : List (Transaction × List Coin)} {u : UTXOSet}
    {V : CoinStore} (rep : Represents P s L) (history : List Disk) (agrees : L.Agrees P block)
    (next : follows P L.blocks block = true)
    (valid : { L.put P (topBlock P (block :: L.blocks)) with
      chain := ⟨block, done⟩ :: L.chain
      coins := V }.Valid P)
    (coins : u.toCoinStore = V) (cache : u.WF) :
    let st := topBlock P (block :: L.blocks)
    let s₁ := { s with mUTXOSet := { u with mHistory := [] }, mHistory := history }
    Represents P ((s₁.onBlockData
        (BlockData.writeBlockConnected P block st.height st.work (undoRecord done))).setTip P block
          st.height st.work)
      { L.put P st with chain := ⟨block, done⟩ :: L.chain, coins := V } := by
  intro st s₁
  have files : BlockData.FilesEnd { s.mBlockData with mHistory := [] } := rep.files
  obtain ⟨written, undo⟩ :=
    BlockData.writeBlockConnected_spec (P := P) files block st.height st.work (undoRecord done)
  have recorded : BlockData.Recorded P st.block st.height st.work s.mBlockData _ :=
    ⟨written.entry, written.kept, written.files⟩
  refine ⟨rep.ready, valid, rfl, (rep.recorded recorded).1, (rep.recorded recorded).2, ?_, coins,
    cache.withHistory [], ?_, recorded.files⟩
  · intro c mem
    refine (congrArg (AList.lookup (c.block.getHash P.sha256)) undo).trans ?_
    rcases List.mem_cons.mp mem with rfl | mem
    · exact AList.lookup_insert _
    · have other := rep.valid.apart agrees next c.block (List.mem_map_of_mem mem)
      exact (AList.lookup_insert_ne other).trans (rep.undo c mem)
  · change (if s.mChainByHeight.length = st.height then
        s.mChainByHeight ++ [block.getHash P.sha256] else []).length = _ →
      (if s.mChainByHeight.length = st.height then
        s.mChainByHeight ++ [block.getHash P.sha256] else []) = _
    split
    · rename_i all
      intro _
      rw [height_topBlock, List.length_cons, L.length_blocks] at all
      rw [rep.table all]
      exact List.reverse_cons.symm
    · exact nofun

/-- One block connected. -/
theorem connectBlockLocked_sim {block : Block} (rep : Represents P s L)
    (agrees : L.Agrees P block) (shape : block.Shaped) :
    Matches P (s.connectBlockLocked P block) (L.connect P block) := by
  have valid := rep.valid.connect agrees shape
  rw [Ledger.connect] at valid ⊢
  rw [ChainState.connectBlockLocked, rep.extendsTip_eq]
  dsimp only at valid ⊢
  split
  · exact ⟨rfl, rep⟩
  · rename_i next
    rw [if_neg next] at valid
    have next : follows P L.blocks block = true := by simpa using next
    have height : s.mBestChain.height + 1 = (topBlock P (block :: L.blocks)).height := by
      rw [rep.height, height_topBlock, List.length_cons, L.length_blocks]
    have nextUp : UInt32.ofNat (topBlock P (block :: L.blocks)).height = nextHeight L.chain := by
      rw [← height, rep.height]
      rfl
    have work : P.addChainWork s.mBestChain.chainWork block.header.bits =
        (topBlock P (block :: L.blocks)).work := by
      rw [rep.tip]
      rfl
    obtain ⟨history, ran⟩ := s.onUTXOSet_eq (applyBlockTwoPhase P block (nextHeight L.chain))
    have same := rep.apply_eq block (nextHeight L.chain)
    have wf := UTXOSet.wf_keeps.applyBlockTwoPhase P block (nextHeight L.chain) rep.cacheFresh
    generalize applyBlockTwoPhase P block (nextHeight L.chain)
      { s.mUTXOSet with mHistory := [] } = out at ran same wf
    rw [height, nextUp, ran]
    rw [same] at valid ⊢
    obtain ⟨_ | undo, u⟩ := out
    · exact ⟨rfl, rep.withCoins valid rfl wf⟩
    · have record : undo = undoRecord (block.paid P (nextHeight L.chain) L.coins) := by
        rcases applyBlockTwoPhase_eq rep.valid.backed.nullFree shape with ⟨-, applied⟩ | ⟨-, refused⟩
        · exact Option.some.inj (congrArg Prod.fst (same.symm.trans applied))
        · cases congrArg Prod.fst (same.symm.trans refused)
      rw [record]
      dsimp only
      rw [work]
      have top := rep.pushed history agrees next valid rfl wf
      refine ⟨rfl, Represents.queueConnected ?_ block⟩
      split
      · exact ((top.writeDB _).commitAt _).writeDB _
      · exact (top.writeDB _).commitAt _

/-- The tip goes back to the parent of a block that was undone. -/
theorem popped {c : Connected} {rest : List Connected} {u : UTXOSet} {V : CoinStore}
    (rep : Represents P s L) (history : List Disk) (pos : DiskBlockPos)
    (chain : L.chain = c :: rest)
    (valid : { L with chain := rest, coins := V }.Valid P) (coins : u.toCoinStore = V)
    (cache : u.WF) :
    let below := topBlock P (rest.map (·.block))
    let s₁ := { s with mUTXOSet := { u with mHistory := [] }, mHistory := history }
    Represents P (s₁.resetTip (below.block.getHash P.sha256)
        (BlockData.indexEntry below.block below.height below.work pos))
      { L with chain := rest, coins := V } := by
  intro below s₁
  refine ⟨rep.ready, valid, rfl, rep.stored, rep.absent, fun d mem => ?_, coins,
    cache.withHistory [], ?_, rep.files⟩
  · exact rep.undo d (chain ▸ List.mem_cons_of_mem _ mem)
  · have height : below.height = rest.length := by simp [below]
    change (if s.mChainByHeight.length = below.height + 2 then s.mChainByHeight.dropLast
        else []).length = _ →
      (if s.mChainByHeight.length = below.height + 2 then s.mChainByHeight.dropLast else []) = _
    split
    · rename_i all
      intro _
      have full : s.mChainByHeight.length = L.chain.length + 1 := by
        rw [all, height, chain, List.length_cons]
      rw [rep.table full, Ledger.blocks, chain, List.map_cons, tipHashes, List.reverse_cons,
        List.dropLast_concat]
      rfl
    · exact fun whole => absurd whole.symm (Nat.succ_ne_zero _)

/-- The tip disconnected. -/
theorem disconnectTipLocked_sim (rep : Represents P s L) :
    Matches P (s.disconnectTipLocked P) (L.disconnect P) := by
  have valid := rep.valid.disconnect
  have height := rep.height
  have backed := rep.valid.backed
  have linked := rep.valid.linked
  obtain ⟨pos, read, record⟩ := rep.stored rep.valid.tree_tip
  unfold Ledger.blocks at linked read record
  rw [← rep.tip] at read
  rw [Ledger.disconnect] at valid ⊢
  rw [ChainState.disconnectTipLocked]
  dsimp only
  rcases chain : L.chain with _ | ⟨c, rest⟩
  · rw [chain, List.length_nil] at height
    rw [if_pos height]
    exact ⟨rfl, rep⟩
  · rw [chain] at height backed linked read record valid
    obtain ⟨-, prev, below⟩ := linked
    obtain ⟨pos', parent⟩ := rep.readTop below
    have block := BlockData.readBlock_of_record record
    rw [if_neg (by rw [height, List.length_cons]; omega), read]
    dsimp only at valid ⊢
    rw [show s.mBlockData.readBlock P (BlockData.indexEntry _ _ _ pos).blockPos = _ from block]
    by_cases readable : c.block.Readable P
    · rw [if_pos readable] at valid ⊢
      rw [show (topBlock P (List.map (·.block) (c :: rest))).block = c.block from rfl,
        if_pos readable]
      dsimp only at valid ⊢
      cases backed with
      | block _ applies _ =>
          have undo : s.mBlockData.readBlockUndo s.mBestChain.blockHash =
              some (undoRecord c.done) := by
            have found := rep.undo c (chain ▸ List.mem_cons_self)
            have tip : s.mBestChain.blockHash = c.block.getHash P.sha256 := by
              rw [rep.tip, Ledger.tip, Ledger.blocks, chain]
              rfl
            rw [BlockData.readBlockUndo, tip, found]
            exact BlockUndo.deserialize_serialize applies.readable
          obtain ⟨history, ran⟩ := s.onUTXOSet_eq (undoBlockTwoPhase c.block (undoRecord c.done))
          have same := rep.undo_eq c.block (undoRecord c.done)
          have wf := UTXOSet.wf_keeps.undoBlockTwoPhase c.block (undoRecord c.done) rep.cacheFresh
          rw [applies.undo L.coins] at same
          rw [undo]
          dsimp only
          generalize undoBlockTwoPhase c.block (undoRecord c.done)
            { s.mUTXOSet with mHistory := [] } = out at ran same wf
          obtain ⟨ok, u⟩ := out
          obtain ⟨rfl, coins⟩ := Prod.mk.inj same
          rw [ran]
          have back := rep.popped history pos' chain valid coins.symm wf
          unfold ChainState.readBlockIndex at parent ⊢
          dsimp only [id]
          rw [show (BlockData.indexEntry c.block _ _ pos).hashPrev = _ from prev, parent]
          exact ⟨rfl, ((back.writeDB _).commitAt _).queueDisconnected c.block⟩
    · rw [if_neg readable]
      rw [show (topBlock P (List.map (·.block) (c :: rest))).block = c.block from rfl,
        if_neg readable]
      exact ⟨rfl, rep⟩

/-! ### Branches -/

theorem newBranch_eq (rep : Represents P s L) : ∀ (fuel : Nat) (cursor : Bytes32),
    s.newBranch P fuel cursor = L.branch P fuel cursor := by
  intro fuel
  induction fuel with
  | zero => exact fun _ => rfl
  | succ fuel ih =>
      intro cursor
      rw [ChainState.newBranch, Ledger.branch, rep.isOnActiveChain_eq]
      cases stored : L.tree cursor with
      | none => rw [rep.absent stored]
      | some st =>
          obtain ⟨pos, read, -⟩ := rep.stored stored
          rw [read]
          dsimp only [BlockData.indexEntry]
          exact ih st.block.header.prevBlockHash ▸ rfl

theorem branchFuel_eq (rep : Represents P s L) (newTip : Bytes32) :
    s.branchFuel newTip = L.branchFuel newTip := by
  unfold ChainState.branchFuel Ledger.branchFuel
  cases stored : L.tree newTip with
  | none => rw [rep.absent stored]
  | some st =>
      obtain ⟨pos, read, -⟩ := rep.stored stored
      rw [read]
      rfl

theorem atFork_eq (rep : Represents P s L) (fork : Option Bytes32) :
    s.atFork fork = L.atFork P fork := by
  unfold ChainState.atFork Ledger.atFork
  cases fork with
  | none =>
      dsimp only
      rw [rep.height]
      cases L.chain <;> simp
  | some forkHash =>
      dsimp only
      rw [rep.tip]

theorem disconnectToFork_sim (fork : Option Bytes32) : ∀ (fuel : Nat) {s : ChainState}
    {L : Ledger}, Represents P s L →
    Matches P (s.disconnectToFork P fork fuel) (L.disconnectToFork P fork fuel) := by
  intro fuel
  induction fuel with
  | zero => exact fun rep => ⟨rfl, rep⟩
  | succ fuel ih =>
      intro s L rep
      have bottom := rep.height
      obtain ⟨ok, s', L', ran, ranL, next⟩ := rep.disconnectTipLocked_sim.split
      rw [ChainState.disconnectToFork, Ledger.disconnectToFork, rep.atFork_eq]
      split
      · exact ⟨rfl, rep⟩
      · split
        · rename_i none
          have chain : L.chain = [] := List.length_eq_zero_iff.mp (bottom ▸ none)
          rw [Ledger.disconnect, chain]
          exact ⟨rfl, rep⟩
        · rw [ran, ranL]
          cases ok with
          | false => exact ⟨rfl, next⟩
          | true => exact ih next

theorem rollback_sim : ∀ (connected : List Bytes32) {s : ChainState} {L : Ledger},
    Represents P s L →
    Represents P (s.rollbackConnectedLocked P connected) (L.rollback P connected) := by
  intro connected
  induction connected with
  | nil => exact fun rep => rep
  | cons blockHash connected ih =>
      intro s L rep
      obtain ⟨ok, s', L', ran, ranL, next⟩ := rep.disconnectTipLocked_sim.split
      rw [ChainState.rollbackConnectedLocked, Ledger.rollback, ran, ranL]
      cases ok with
      | false => exact next
      | true => exact ih next

theorem connectBranch_sim : ∀ (branch : List Bytes32) {connected : List Bytes32} {s : ChainState}
    {L : Ledger}, Represents P s L →
    Matches P (s.connectBranch P branch connected) (L.connectBranch P branch connected) := by
  intro branch
  induction branch with
  | nil => exact fun rep => ⟨rfl, rep⟩
  | cons blockHash branch ih =>
      intro connected s L rep
      rw [ChainState.connectBranch, Ledger.connectBranch]
      cases stored : L.tree blockHash with
      | none =>
          rw [rep.absent stored]
          exact ⟨rfl, rollback_sim connected rep⟩
      | some st =>
          obtain ⟨pos, read, record⟩ := rep.stored stored
          have block := BlockData.readBlock_of_record record
          obtain ⟨ok, s', L', ran, ranL, next⟩ :=
            (rep.connectBlockLocked_sim (rep.valid.agrees stored) (rep.valid.shape stored)).split
          rw [read]
          dsimp only
          rw [show s.mBlockData.readBlock P (BlockData.indexEntry _ _ _ pos).blockPos = _ from block]
          by_cases readable : st.block.Readable P
          · rw [if_pos readable, if_pos readable, ranL]
            dsimp only
            rw [ran]
            cases ok with
            | false => exact ⟨rfl, rollback_sim connected next⟩
            | true => exact ih next
          · rw [if_neg readable, if_neg readable]
            exact ⟨rfl, rollback_sim connected rep⟩

theorem activate_sim (rep : Represents P s L) (newTip : Bytes32) :
    Matches P (s.activateBestChainLocked P newTip) (L.activate P newTip) := by
  rw [ChainState.activateBestChainLocked, Ledger.activate, rep.branchFuel_eq, rep.newBranch_eq,
    rep.height]
  rcases L.branch P (L.branchFuel newTip) newTip with _ | ⟨branch, fork⟩
  · exact ⟨rfl, rep⟩
  · obtain ⟨ok, s', L', ran, ranL, next⟩ :=
      (disconnectToFork_sim fork (L.chain.length + 1) rep).split
    dsimp only
    rw [ran, ranL]
    cases ok with
    | false => exact ⟨rfl, next⟩
    | true => exact connectBranch_sim branch.reverse next

/-! ### A block arrives -/

theorem admits_eq (rep : Represents P s L) (now : UInt64) (block : Block) (parent : StoredBlock)
    (pos : DiskBlockPos) :
    s.admits P now block (BlockData.indexEntry parent.block parent.height parent.work pos) =
      L.admits P now block parent := by
  unfold ChainState.admits Ledger.admits
  rw [rep.lastCheckpointHeight_eq, rep.view]
  rfl

theorem acceptBlock_sim {now : UInt64} {block : Block} (rep : Represents P s L) :
    Matches P (s.acceptBlock P now block) (L.accept P now block) := by
  rw [ChainState.acceptBlock, Ledger.accept]
  dsimp only
  rw [rep.ready, rep.hasBlock_eq, if_neg (by simp)]
  split
  · exact ⟨rfl, rep⟩
  · rename_i new
    have new : L.tree (block.getHash P.sha256) = none := by simpa using new
    cases stored : L.tree block.header.prevBlockHash with
    | none =>
        rw [rep.absent stored]
        exact ⟨rfl, rep⟩
    | some parent =>
        obtain ⟨pos, read, -⟩ := rep.stored stored
        rw [read]
        dsimp only
        rw [rep.admits_eq]
        split
        · exact ⟨rfl, rep⟩
        · rename_i admitted
          have admitted : L.admits P now block parent = true := by simpa using admitted
          have next := rep.store (rep.valid.store new stored (Ledger.height_of_admits admitted)
            (Ledger.rules_of_admits admitted).shaped)
          have tip : (s.onBlockData (BlockData.writeBlock P block (parent.height + 1)
              (P.addChainWork parent.work block.header.bits))).mBestChain = L.tip P := next.tip
          simp only [BlockData.indexEntry, tip]
          change Matches P (if P.compareWork (childOf P parent block).work _ ≤ 0 then _ else _) _
          split
          · exact ⟨rfl, next⟩
          · exact next.activate_sim _

theorem connectBlock_sim {block : Block} (rep : Represents P s L)
    (agrees : L.Agrees P block) (shape : block.Shaped) :
    Matches P (s.connectBlock P block) (L.connect P block) := by
  rw [ChainState.connectBlock, rep.ready, if_neg (by simp)]
  exact rep.connectBlockLocked_sim agrees shape

theorem disconnectBlock_sim (rep : Represents P s L) (blockHash : Bytes32) :
    Matches P (s.disconnectBlock P blockHash) (L.disconnectBlock P blockHash) := by
  rw [ChainState.disconnectBlock, Ledger.disconnectBlock, rep.ready, if_neg (by simp), rep.tip]
  split
  · exact ⟨rfl, rep⟩
  · exact rep.disconnectTipLocked_sim

/-! ### The height table -/

theorem hashesDown_eq (rep : Represents P s L) : ∀ {blocks : List Block},
    Linked P L.tree blocks →
    s.hashesDown blocks.length (chainTip P blocks).blockHash = some (tipHashes P blocks) := by
  intro blocks
  induction blocks with
  | nil => exact fun _ => rfl
  | cons block blocks ih =>
      intro linked
      obtain ⟨pos, read⟩ := rep.readTop linked
      obtain ⟨-, prev, below⟩ := linked
      rw [List.length_cons, ChainState.hashesDown, read]
      change (s.hashesDown blocks.length block.header.prevBlockHash).map _ = _
      rw [prev, ih below]
      rfl

theorem buildHeightIndex (rep : Represents P s L) : Represents P s.buildHeightIndexLocked L := by
  have table : s.buildHeightIndexLocked = { s with mChainByHeight := [] } ∨
      s.buildHeightIndexLocked = { s with mChainByHeight := (tipHashes P L.blocks).reverse } := by
    have down := rep.hashesDown_eq rep.valid.linked
    rw [L.length_blocks, ← rep.height, ← Ledger.tip, ← rep.tip] at down
    unfold ChainState.buildHeightIndexLocked
    split
    · exact .inl rfl
    · rw [down]
      exact .inr rfl
  rcases table with same | same
  · rw [same]
    exact ⟨rep.ready, rep.valid, rep.tip, rep.stored, rep.absent, rep.undo, rep.coins, rep.cache,
      fun whole => absurd whole.symm (Nat.succ_ne_zero _), rep.files⟩
  · rw [same]
    exact ⟨rep.ready, rep.valid, rep.tip, rep.stored, rep.absent, rep.undo, rep.coins, rep.cache,
      fun _ => rfl, rep.files⟩

end Represents

end QmaskCore
