import QmaskCore.Ledger.Forks
import QmaskCore.Ledger.Locator

/-!
Checkpoints and branches.

The checkpoint rule is a bound on the height of a block that comes. What decides
whether a held checkpoint stays is the branch the node goes over to: an active
block is still active after a delivery exactly when the block delivered either
does not overtake the tip or has it among its ancestors
(`Represents.active_after_iff`). `checkpoints_final_iff` is the statement for
runs, and `rival_at_checkpoint` a branch that the bound does not see.
-/

namespace QmaskCore

/-- A block that is new, gets through the checks and has more work than the tip. -/
def ChainState.Overtakes (P : Params) (s : ChainState) (now : UInt64) (block : Block) : Prop :=
  s.mBlockData.hasBlock (block.getHash P.sha256) = false ∧
    ∃ parent, s.readBlockIndex block.header.prevBlockHash = some parent ∧
      s.admits P now block parent = true ∧
      0 < P.compareWork (P.addChainWork parent.nChainWork block.header.bits)
        s.mBestChain.chainWork

/-- The ancestor of a block at a height has the hash. -/
def ChainState.StandsOn (s : ChainState) (block : Block) (height : Nat) (blockHash : Bytes32) :
    Prop :=
  ∃ parent, s.readBlockIndex block.header.prevBlockHash = some parent ∧
    height ≤ parent.nHeight ∧
    s.ancestor (parent.nHeight - height) block.header.prevBlockHash = some blockHash

/-- If the node goes over to the block, every active checkpoint is among its ancestors. -/
def ChainState.KeepsCheckpoints (P : Params) (s : ChainState) (now : UInt64) (block : Block) :
    Prop :=
  s.Overtakes P now block → ∀ checkpoint ∈ P.checkpoints, ∀ height,
    s.getBlockHashByHeightLocked height = some checkpoint.blockHash →
    s.StandsOn block height checkpoint.blockHash

namespace Ledger

variable {P : Params} {L : Ledger} {tree : Bytes32 → Option StoredBlock}

/-- The block at a height of a chain is the top of a part when the part is the
lower end of the chain. -/
theorem hash_at_iff (genesis : tree (chainTip P []).blockHash = some (topBlock P []))
    {part blocks : List Block} (linkedPart : Linked P tree part) (linked : Linked P tree blocks) :
    (part.length ≤ blocks.length ∧
      (chainTip P (blocks.drop (blocks.length - part.length))).blockHash =
        (chainTip P part).blockHash) ↔ part <:+ blocks := by
  constructor
  · rintro ⟨le, same⟩
    rw [← Linked.eq_of_top genesis (linked.drop _) linkedPart same]
    exact List.drop_suffix _ _
  · rintro ⟨upper, rfl⟩
    have le : part.length ≤ (upper ++ part).length := by simp
    refine ⟨le, ?_⟩
    rw [List.length_append, Nat.add_sub_cancel, List.drop_left]

def Overtakes (P : Params) (L : Ledger) (now : UInt64) (block : Block) (parent : StoredBlock) :
    Prop :=
  L.tree (block.getHash P.sha256) = none ∧ L.tree block.header.prevBlockHash = some parent ∧
    L.admits P now block parent = true ∧
    0 < P.compareWork (childOf P parent block).work (L.tip P).chainWork

/-- A delivery changes nothing, stores a block aside, or goes over to it. -/
theorem accept_cases (L : Ledger) (now : UInt64) (block : Block) :
    (L.accept P now block).2 = L ∨
      (∃ parent, L.tree (block.getHash P.sha256) = none ∧
        L.tree block.header.prevBlockHash = some parent ∧ L.admits P now block parent = true ∧
        P.compareWork (childOf P parent block).work (L.tip P).chainWork ≤ 0 ∧
        L.accept P now block = (true, L.put P (childOf P parent block))) ∨
      ∃ parent, L.Overtakes P now block parent := by
  rw [accept]
  split
  · exact .inl rfl
  · rename_i new
    have new : L.tree (block.getHash P.sha256) = none := by simpa using new
    cases found : L.tree block.header.prevBlockHash with
    | none => exact .inl rfl
    | some parent =>
        dsimp only
        split
        · exact .inl rfl
        · rename_i admitted
          have admitted : L.admits P now block parent = true := by simpa using admitted
          split
          · rename_i aside
            exact .inr (.inl ⟨parent, new, rfl, admitted, aside, rfl⟩)
          · rename_i work
            exact .inr (.inr ⟨parent, new, found, admitted, Int.not_le.mp work⟩)

/-- A block that does not overtake the tip leaves the chain as it is. -/
theorem accept_stays {now : UInt64} {block : Block}
    (stays : ∀ parent, ¬ L.Overtakes P now block parent) :
    (L.accept P now block).2.blocks = L.blocks := by
  rcases L.accept_cases now block with same | ⟨parent, -, -, -, -, ran⟩ | ⟨parent, heavier⟩
  · rw [same]
  · rw [ran, blocks_put]
  · exact absurd heavier (stays parent)

/-- A block that is refused and does not overtake the tip leaves everything as it is. -/
theorem accept_refused_stays {now : UInt64} {block : Block}
    (stays : ∀ parent, ¬ L.Overtakes P now block parent) {U : Ledger}
    (refused : L.accept P now block = (false, U)) : U = L := by
  rcases L.accept_cases now block with same | ⟨parent, -, -, -, -, ran⟩ | ⟨parent, heavier⟩
  · rw [← same, refused]
  · cases ran.symm.trans refused
  · exact absurd heavier (stays parent)

/-- A block that overtakes the tip is stored, and its chain is activated. -/
theorem Overtakes.activates (valid : L.Valid P) (legible : L.Legible P) {now : UInt64}
    {block : Block} {parent : StoredBlock} (heavier : L.Overtakes P now block parent)
    {below : List Block} (linked : Linked P L.tree below) (top : topBlock P below = parent)
    (tip : (chainTip P below).blockHash = block.header.prevBlockHash) :
    (L.put P (childOf P parent block)).Valid P ∧ (L.put P (childOf P parent block)).Legible P ∧
      Linked P (L.put P (childOf P parent block)).tree (block :: below) ∧ block ∉ L.blocks ∧
      L.accept P now block =
        (L.put P (childOf P parent block)).activate P (chainTip P (block :: below)).blockHash := by
  obtain ⟨new, found, admitted, work⟩ := heavier
  have valid₁ := valid.store new found (height_of_admits admitted) (rules_of_admits admitted).shaped
  have keeps : ∀ {blockHash st}, L.tree blockHash = some st →
      (L.put P (childOf P parent block)).tree blockHash = some st := by
    intro blockHash st stored
    rw [tree_put, if_neg, stored]
    rintro rfl
    cases new.symm.trans stored
  have here : (L.put P (childOf P parent block)).tree (block.getHash P.sha256) =
      some (childOf P parent block) := by
    rw [tree_put]
    exact if_pos rfl
  refine ⟨valid₁, ?_, ⟨?_, tip.symm, linked.mono keeps⟩, ?_, ?_⟩
  · intro blockHash st stored above
    rw [tree_put] at stored
    split at stored
    · cases stored
      exact (rules_of_admits admitted).size
    · exact legible stored above
  · rw [here, topBlock, childOf, ← top, height_topBlock]
  · intro mem
    obtain ⟨st, stored, -⟩ := valid.linked.height_le block mem
    cases new.symm.trans stored
  · rw [accept, new, found]
    dsimp only [Option.isSome]
    rw [if_neg (by simp), if_neg (by simp [admitted]), if_neg (Int.not_le.mpr work)]
    rfl

/-- After a block that overtakes the tip, a part of the old chain is active when
the parent's chain has it. -/
theorem accept_overtakes (valid : L.Valid P) (legible : L.Legible P) {now : UInt64} {block : Block}
    {parent : StoredBlock} (heavier : L.Overtakes P now block parent) {below : List Block}
    (linked : Linked P L.tree below) (top : topBlock P below = parent)
    (tip : (chainTip P below).blockHash = block.header.prevBlockHash) {part : List Block}
    (active : part <:+ L.blocks) :
    part <:+ (L.accept P now block).2.blocks ↔ part <:+ below := by
  obtain ⟨valid₁, legible₁, linked₁, off, accepted⟩ :=
    heavier.activates valid legible linked top tip
  obtain ⟨news, shared, ok, L', split, suffix, apart, ran, -, after⟩ :=
    activate_blocks valid₁ legible₁ linked₁ (List.cons_ne_nil _ _)
  rw [accepted, ran, after]
  rw [blocks_put] at suffix
  -- The new block is on no chain yet, so what is shared lies below it.
  cases news with
  | nil =>
      refine absurd ?_ off
      refine suffix.subset ?_
      rw [← show block :: below = shared from split]
      exact List.mem_cons_self
  | cons first news =>
      obtain ⟨rfl, rfl⟩ := List.cons.inj split
      have lower : part <:+ shared ↔ part <:+ news ++ shared := by
        constructor
        · exact fun low => low.trans (List.suffix_append _ _)
        · intro low
          rcases List.suffix_or_suffix_of_suffix low (List.suffix_append news shared) with down | up
          · exact down
          · obtain ⟨extra, rfl⟩ := up
            cases extra with
            | nil => exact List.suffix_rfl
            | cons b extra =>
                have inNews : b ∈ news := by
                  obtain ⟨more, same⟩ := low
                  rw [← List.append_assoc] at same
                  rw [← List.append_cancel_right same]
                  simp
                have isOn : L.onChain P (b.getHash P.sha256) = true := by
                  rw [onChain, List.any_eq_true]
                  exact ⟨b, active.subset (by simp), decide_eq_true rfl⟩
                cases (apart b (List.mem_cons_of_mem _ inNews)).symm.trans isOn
      cases ok with
      | false => exact lower
      | true =>
          rw [if_pos rfl, List.suffix_cons_iff]
          refine or_iff_right fun same => off (active.subset ?_)
          rw [same]
          exact List.mem_cons_self

end Ledger

namespace Represents

variable {P : Params} {s : ChainState} {L : Ledger}

theorem genesis (rep : Represents P s L) :
    L.tree (chainTip P []).blockHash = some (topBlock P []) := by
  rw [rep.valid.tip_nil]
  exact rep.valid.genesis

/-- The answer at a height is the top of a lower end of the active chain. -/
theorem active_part (rep : Represents P s L) {height : Nat} {blockHash : Bytes32}
    (active : s.getBlockHashByHeightLocked height = some blockHash) :
    ∃ part, part <:+ L.blocks ∧ part.length = height ∧ (chainTip P part).blockHash = blockHash := by
  have whole := L.length_blocks
  by_cases le : height ≤ L.chain.length
  · rw [rep.getBlockHashByHeight_eq le, Option.some.injEq] at active
    exact ⟨_, List.drop_suffix _ _, by rw [List.length_drop]; omega, active⟩
  · rw [rep.getBlockHashByHeight_above (by omega)] at active
    cases active

/-- A chain of stored blocks is a lower end of the active one when its top is the
active block at its height. -/
theorem active_iff (rep : Represents P s L) {part : List Block}
    (linked : Ledger.Linked P L.tree part) :
    s.getBlockHashByHeightLocked part.length = some (chainTip P part).blockHash ↔
      part <:+ L.blocks := by
  rw [← Ledger.hash_at_iff rep.genesis linked rep.valid.linked, L.length_blocks]
  by_cases le : part.length ≤ L.chain.length
  · rw [rep.getBlockHashByHeight_eq le, Option.some.injEq]
    exact (and_iff_right le).symm
  · rw [rep.getBlockHashByHeight_above (by omega)]
    exact iff_of_false nofun fun both => le both.1

theorem overtakes_iff (rep : Represents P s L) {now : UInt64} {block : Block} {parent : StoredBlock}
    (found : L.tree block.header.prevBlockHash = some parent) :
    s.Overtakes P now block ↔ L.Overtakes P now block parent := by
  obtain ⟨pos, read, -⟩ := rep.stored found
  unfold ChainState.Overtakes Ledger.Overtakes
  rw [rep.hasBlock_eq, read, rep.tip]
  simp only [Option.some.injEq, exists_eq_left', rep.admits_eq, found, true_and,
    Option.isSome_eq_false_iff, Option.isNone_iff_eq_none]
  rfl

/-- The ancestors of a block are the parts of its parent's chain. -/
theorem standsOn_iff (rep : Represents P s L) {block : Block} {part below : List Block}
    (linkedPart : Ledger.Linked P L.tree part) (linked : Ledger.Linked P L.tree below)
    (tip : (chainTip P below).blockHash = block.header.prevBlockHash) :
    s.StandsOn block part.length (chainTip P part).blockHash ↔ part <:+ below := by
  obtain ⟨pos, read⟩ := rep.readTop linked
  have height : (BlockData.indexEntry (topBlock P below).block (topBlock P below).height
      (topBlock P below).work pos).nHeight = below.length := height_topBlock P below
  rw [← Ledger.hash_at_iff rep.genesis linkedPart linked, ChainState.StandsOn, ← tip, read]
  simp only [Option.some.injEq, exists_eq_left', height]
  refine and_congr_right fun le => ?_
  rw [rep.ancestor_eq linked (Nat.sub_le _ _), Option.some.injEq]

/-- An active block is still active after a delivery exactly when the node does
not go over to the block delivered or goes over to it on top of the active one. -/
theorem active_after_iff (rep : Represents P s L) (legible : L.Legible P) (now : UInt64)
    (block : Block) {height : Nat} {blockHash : Bytes32}
    (active : s.getBlockHashByHeightLocked height = some blockHash) :
    (s.acceptBlock P now block).2.getBlockHashByHeightLocked height = some blockHash ↔
      (s.Overtakes P now block → s.StandsOn block height blockHash) := by
  have after : Represents P (s.acceptBlock P now block).2 (L.accept P now block).2 :=
    rep.acceptBlock_sim.state
  have moves : Ledger.Moves P (fun _ => True) (fun _ => False) L (L.accept P now block).2 :=
    Ledger.accept_moves now trivial L
  obtain ⟨part, suffix, rfl, rfl⟩ := rep.active_part active
  have linked := Ledger.linked_of_suffix rep.valid suffix
  rw [after.active_iff (Ledger.Linked.mono (moves.tree_le rep.valid) linked)]
  cases found : L.tree block.header.prevBlockHash with
  | none =>
      have stays : ¬ s.Overtakes P now block := by
        rintro ⟨-, parent, read, -⟩
        rw [rep.absent found] at read
        cases read
      rw [Ledger.accept_stays fun parent heavier => by cases found.symm.trans heavier.2.1]
      exact iff_of_true suffix fun heavier => absurd heavier stays
  | some parent =>
      rw [rep.overtakes_iff found]
      by_cases heavier : L.Overtakes P now block parent
      · obtain ⟨below, linkedBelow, top, tip⟩ := rep.valid.chain_of_tree _ found rfl
        rw [Ledger.accept_overtakes rep.valid legible heavier linkedBelow top tip suffix,
          rep.standsOn_iff linked linkedBelow tip]
        exact (imp_iff_right heavier).symm
      · rw [Ledger.accept_stays fun other goes => ?_]
        · exact iff_of_true suffix fun goes => absurd goes heavier
        · cases found.symm.trans goes.2.1
          exact heavier goes

end Represents

/-- **When checkpoints are final.** In a run of deliveries to a new node, whatever
the list of checkpoints, every checkpoint that becomes active stays the active
block at its height exactly when each block the node goes over to has the
checkpoints active then among its ancestors. -/
theorem checkpoints_final_iff {P : Params} (sound : P.SoundGenesis) {s₀ : ChainState}
    (opened : ChainState.initializeState P (.ofDisk .empty) = .ok s₀)
    (deliveries : List (UInt64 × Block)) :
    (∀ first later rest, deliveries = first ++ later ++ rest →
      ∀ checkpoint ∈ P.checkpoints, ∀ height,
        (s₀.acceptAll P first).getBlockHashByHeightLocked height = some checkpoint.blockHash →
        (s₀.acceptAll P (first ++ later)).getBlockHashByHeightLocked height =
          some checkpoint.blockHash) ↔
      ∀ first now block rest, deliveries = first ++ (now, block) :: rest →
        (s₀.acceptAll P first).KeepsCheckpoints P now block := by
  have step (first : List (UInt64 × Block)) (now : UInt64) (block : Block) {height : Nat}
      {blockHash : Bytes32} :
      (s₀.acceptAll P first).getBlockHashByHeightLocked height = some blockHash →
      ((s₀.acceptAll P (first ++ [(now, block)])).getBlockHashByHeightLocked height =
          some blockHash ↔ ((s₀.acceptAll P first).Overtakes P now block →
            (s₀.acceptAll P first).StandsOn block height blockHash)) := by
    intro active
    obtain ⟨L, rep, moves⟩ := accepted first sound opened
    have start := (represents_initial sound opened).valid
    rw [ChainState.acceptAll, List.foldl_append]
    exact rep.active_after_iff (Ledger.Moves.legible start moves) now block active
  constructor
  · intro final first now block rest split heavier checkpoint listed height active
    have split' : deliveries = first ++ [(now, block)] ++ rest := by simp [split]
    exact (step first now block active).mp (final first _ rest split' checkpoint listed height active)
      heavier
  · intro keeps first later
    induction later generalizing first with
    | nil =>
        intro rest _ checkpoint _ height active
        rwa [List.append_nil]
    | cons delivery later ih =>
        intro rest split checkpoint listed height active
        obtain ⟨now, block⟩ := delivery
        have kept := (step first now block active).mpr fun heavier =>
          keeps first now block (later ++ rest) (by simp [split]) heavier checkpoint listed height active
        have onward := ih (first ++ [(now, block)]) rest (by simp [split]) checkpoint listed height
          kept
        rwa [List.append_assoc, List.singleton_append] at onward

namespace SmallNetwork

/-- The small network with its first block as a checkpoint. -/
def guardedNetwork : Params :=
  { smallNetwork with checkpoints := [⟨1, blockOne.getHash smallNetwork.sha256⟩] }

def guardedNode : ChainState :=
  match ChainState.initializeState guardedNetwork (.ofDisk .empty) with
  | .ok s => s
  | .error _ => .ofDisk .empty

theorem soundGenesis_guardedNetwork : guardedNetwork.SoundGenesis :=
  ⟨by decide +kernel, by decide +kernel, by decide +kernel⟩

theorem guardedNode_opened :
    ChainState.initializeState guardedNetwork (.ofDisk .empty) = .ok guardedNode := by
  have ok : (ChainState.initializeState guardedNetwork (.ofDisk .empty)).isOk = true := by
    decide +kernel
  unfold guardedNode
  cases opened : ChainState.initializeState guardedNetwork (.ofDisk .empty) with
  | ok s => rfl
  | error e => simp [opened, Except.isOk, Except.toBool] at ok

/-- Another first block, and one on top of it. -/
def branchOne : Block :=
  mine smallNetwork.genesisHash 1 5 [mint 7 10] (by simp [Block.maxTransactions])

def branchTwo : Block :=
  mine (branchOne.getHash smallNetwork.sha256) 2 6 [mint 8 10] (by simp [Block.maxTransactions])

end SmallNetwork

open SmallNetwork in
theorem checkpoints_final_iff_blockOne :
    (∀ first later rest, [(20, blockOne)] = first ++ later ++ rest →
      ∀ checkpoint ∈ guardedNetwork.checkpoints, ∀ height,
        (guardedNode.acceptAll guardedNetwork first).getBlockHashByHeightLocked height =
          some checkpoint.blockHash →
        (guardedNode.acceptAll guardedNetwork (first ++ later)).getBlockHashByHeightLocked height =
          some checkpoint.blockHash) ↔
      ∀ first now block rest, [(20, blockOne)] = first ++ (now, block) :: rest →
        (guardedNode.acceptAll guardedNetwork first).KeepsCheckpoints guardedNetwork now block :=
  checkpoints_final_iff soundGenesis_guardedNetwork guardedNode_opened [(20, blockOne)]

open SmallNetwork in
/-- A branch that starts at the checkpoint's own height takes its place. -/
theorem rival_at_checkpoint :
    ∃ checkpoint ∈ guardedNetwork.checkpoints,
      (guardedNode.acceptAll guardedNetwork [(20, blockOne)]).getBlockHashByHeightLocked 1 =
        some checkpoint.blockHash ∧
      (guardedNode.acceptAll guardedNetwork [(20, blockOne), (20, branchOne),
        (20, branchTwo)]).getBlockHashByHeightLocked 1 ≠ some checkpoint.blockHash := by
  refine ⟨_, List.mem_singleton.mpr rfl, ?_, ?_⟩ <;> decide +kernel

end QmaskCore
