import QmaskCore.Ledger.Runs
import QmaskCore.Validation.Completeness

/-!
A block on top of the active chain.

`accept_extends_iff` says when `AcceptBlock` makes a block on the tip the new
tip. `Linked.eq_of_top` says that the hash of a block tells the chain below it,
however many blocks came in between.
-/

namespace QmaskCore

namespace Ledger

variable {P : Params} {L L' : Ledger}

/-! ### The tip tells the chain -/

/-- Blocks that come to `AcceptBlock` join the tree; none is replaced. -/
theorem Move.tree_le {given : Block → Prop} (move : Move P given (fun _ => False) L L')
    (valid : L.Valid P) {blockHash : Bytes32} {st : StoredBlock}
    (stored : L.tree blockHash = some st) : L'.tree blockHash = some st := by
  cases move with
  | store mem new found admitted =>
      rw [tree_put]
      split
      · rename_i same
        rw [childOf] at same
        rw [same, new] at stored
        cases stored
      · exact stored
  | connect at' =>
      rw [valid.tree_connect at']
      exact stored
  | connectDirect none _ => exact none.elim
  | disconnect =>
      rw [tree_disconnect]
      exact stored

theorem Moves.tree_le {given : Block → Prop} (moves : Moves P given (fun _ => False) L L')
    (valid : L.Valid P) {blockHash : Bytes32} {st : StoredBlock}
    (stored : L.tree blockHash = some st) : L'.tree blockHash = some st :=
  (moves.keeps (p := fun L => L.Valid P ∧ L.tree blockHash = some st)
    (fun move now => ⟨move.valid (fun _ => nofun) now.1, move.tree_le now.1 now.2⟩)
    ⟨valid, stored⟩).2

/-- A new block that is let through is stored. -/
theorem stored_of_admits (valid : L.Valid P) {now : UInt64} {block : Block}
    {parent : StoredBlock}
    (new : L.tree (block.getHash P.sha256) = none)
    (found : L.tree block.header.prevBlockHash = some parent)
    (admitted : L.admits P now block parent = true) :
    (L.accept P now block).2.tree (block.getHash P.sha256) = some (childOf P parent block) := by
  have here : (L.put P (childOf P parent block)).tree (block.getHash P.sha256) =
      some (childOf P parent block) := by
    rw [tree_put]
    exact if_pos rfl
  have valid₁ := valid.store new found (height_of_admits admitted) (rules_of_admits admitted).shaped
  rw [accept, new, found]
  dsimp only [Option.isSome]
  rw [if_neg (by simp), if_neg (by simp [admitted])]
  split
  · exact here
  · have moves : Moves P (fun _ => False) (fun _ => False) (L.put P (childOf P parent block)) _ :=
      activate_moves (block.getHash P.sha256) _
    exact moves.tree_le valid₁ here

theorem Linked.mono {tree tree' : Bytes32 → Option StoredBlock}
    (le : ∀ {blockHash st}, tree blockHash = some st → tree' blockHash = some st) :
    ∀ {blocks : List Block}, Linked P tree blocks → Linked P tree' blocks := by
  intro blocks
  induction blocks with
  | nil => exact fun linked => linked
  | cons block blocks ih => exact fun ⟨stored, prev, below⟩ => ⟨le stored, prev, ih below⟩

/-- Two chains of one tree with the same top are the same. -/
theorem Linked.eq_of_top {tree : Bytes32 → Option StoredBlock} : ∀ {blocks blocks' : List Block},
    tree (chainTip P []).blockHash = some (topBlock P []) → Linked P tree blocks →
    Linked P tree blocks' → (chainTip P blocks).blockHash = (chainTip P blocks').blockHash →
    blocks = blocks' := by
  intro blocks
  induction blocks with
  | nil =>
      intro blocks' genesis _ linked' same
      cases blocks' with
      | nil => rfl
      | cons block' blocks' =>
          have other : tree (chainTip P []).blockHash = some (topBlock P (block' :: blocks')) := by
            rw [same]
            exact linked'.1
          have height := congrArg (·.height) (Option.some.inj (genesis.symm.trans other))
          cases height
  | cons block blocks ih =>
      intro blocks' genesis linked linked' same
      cases blocks' with
      | nil =>
          have other : tree (chainTip P []).blockHash = some (topBlock P (block :: blocks)) := by
            rw [← same]
            exact linked.1
          have height := congrArg (·.height) (Option.some.inj (genesis.symm.trans other))
          cases height
      | cons block' blocks' =>
          obtain ⟨stored, prev, below⟩ := linked
          obtain ⟨stored', prev', below'⟩ := linked'
          rw [show block.getHash P.sha256 = block'.getHash P.sha256 from same, stored'] at stored
          obtain rfl : block' = block := congrArg (·.block) (Option.some.inj stored)
          rw [ih genesis below below' (prev.symm.trans prev')]

/-! ### A new tip -/

/-- A new block on the tip is a branch of its own. -/
theorem branch_top (valid : L.Valid P) {block : Block}
    (new : L.tree (block.getHash P.sha256) = none)
    (prev : block.header.prevBlockHash = (L.tip P).blockHash) :
    let L₁ := L.put P (childOf P (topBlock P L.blocks) block)
    ∃ fork, L₁.branch P (L₁.branchFuel (block.getHash P.sha256)) (block.getHash P.sha256) =
        some ([block.getHash P.sha256], fork) ∧ L₁.atFork P fork = true := by
  intro L₁
  have here : L₁.tree (block.getHash P.sha256) = some (childOf P (topBlock P L.blocks) block) := by
    rw [tree_put, childOf, if_pos rfl]
  have off : L₁.onChain P (block.getHash P.sha256) = false := by
    rw [onChain, List.any_eq_false]
    intro b mem same
    obtain ⟨st, stored, -⟩ := valid.linked.height_le b mem
    rw [of_decide_eq_true same, new] at stored
    cases stored
  have fuel : L₁.branchFuel (block.getHash P.sha256) = L.chain.length + 2 := by
    rw [branchFuel, here]
    simp [childOf]
  rw [fuel, branch, here]
  dsimp only
  rw [off, if_neg (by simp)]
  by_cases bottom : L.chain = []
  · have blocks : L.blocks = [] := by rw [Ledger.blocks, bottom, List.map_nil]
    refine ⟨none, ?_, ?_⟩
    · have genesis : (childOf P (topBlock P L.blocks) block).block.header.prevBlockHash =
          P.genesisHash := by
        rw [childOf, prev, Ledger.tip, blocks, valid.tip_nil]
      rw [if_pos genesis]
    · rw [atFork]
      exact List.isEmpty_iff.mpr bottom
  · have above : (topBlock P L.blocks).height ≠ 0 := by
      rw [height_topBlock, L.length_blocks]
      exact fun zero => bottom (List.length_eq_zero_iff.mp zero)
    have other : block.header.prevBlockHash ≠ P.genesisHash := by
      intro genesis
      have stored := valid.tree_tip
      rw [← prev, genesis] at stored
      exact above ((valid.height_eq_zero stored).mpr rfl)
    refine ⟨some (L.tip P).blockHash, ?_, decide_eq_true rfl⟩
    have below : L₁.tree (L.tip P).blockHash = some (topBlock P L.blocks) := by
      rw [tree_put, if_neg, valid.tree_tip]
      intro same
      have stored := valid.tree_tip
      rw [same, childOf, new] at stored
      cases stored
    have on : L₁.onChain P (L.tip P).blockHash = true := by
      cases chain : L.blocks with
      | nil =>
          rw [chain] at above
          exact absurd rfl above
      | cons b rest =>
          rw [onChain, List.any_eq_true, show L₁.blocks = L.blocks from rfl, chain]
          refine ⟨b, List.mem_cons_self, decide_eq_true ?_⟩
          rw [Ledger.tip, chain]
          rfl
    rw [if_neg (show (childOf P (topBlock P L.blocks) block).block.header.prevBlockHash ≠ _ from
      other)]
    have ends : L₁.branch P (L.chain.length + 1) block.header.prevBlockHash =
        some ([], some (L.tip P).blockHash) := by
      rw [prev, branch, below]
      dsimp only
      rw [on, if_pos rfl]
    have parent : (childOf P (topBlock P L.blocks) block).block.header.prevBlockHash =
        block.header.prevBlockHash := rfl
    rw [parent, ends]

/-- A new block that is admitted on the tip, with more work, is connected. -/
theorem accept_top (valid : L.Valid P) {now : UInt64} {block : Block}
    (new : L.tree (block.getHash P.sha256) = none)
    (prev : block.header.prevBlockHash = (L.tip P).blockHash)
    (admitted : L.admits P now block (topBlock P L.blocks) = true)
    (work : 0 < P.compareWork (P.addChainWork (L.tip P).chainWork block.header.bits)
      (L.tip P).chainWork) :
    L.accept P now block = (L.put P (childOf P (topBlock P L.blocks) block)).connect P block := by
  have parent : L.tree block.header.prevBlockHash = some (topBlock P L.blocks) := by
    rw [prev]
    exact valid.tree_tip
  have readable : block.Readable P := (rules_of_admits admitted).size
  let L₁ := L.put P (childOf P (topBlock P L.blocks) block)
  obtain ⟨fork, branch, at'⟩ := branch_top valid new prev
  have here : L₁.tree (block.getHash P.sha256) = some (childOf P (topBlock P L.blocks) block) := by
    rw [tree_put, childOf, if_pos rfl]
  rw [accept, new, parent]
  dsimp only [Option.isSome]
  rw [if_neg (by simp), if_neg (by simp [admitted])]
  rw [if_neg (show ¬ P.compareWork (childOf P _ block).work _ ≤ 0 from Int.not_le.mpr work)]
  change L₁.activate P (block.getHash P.sha256) = L₁.connect P block
  rw [activate, branch]
  dsimp only
  rw [disconnectToFork, if_pos at']
  dsimp only
  rw [List.reverse_singleton, connectBranch, here]
  dsimp only
  rw [show (childOf P (topBlock P L.blocks) block).block = block from rfl, if_pos readable]
  rcases L₁.connect P block with ⟨_ | _, L'⟩
  · rfl
  · rfl

/-- A block on the tip becomes the tip if and only if it is new, is admitted,
follows the chain and adds to its work, when it can be applied. -/
theorem accept_extends_iff (valid : L.Valid P) {now : UInt64} {block : Block}
    (prev : block.header.prevBlockHash = (L.tip P).blockHash)
    (applies : L.admits P now block (topBlock P L.blocks) = true →
      ∃ done, AppliesWith P (nextHeight L.chain) L.coins block done) :
    (L.accept P now block).1 = true ∧ (L.accept P now block).2.blocks = block :: L.blocks ↔
      L.tree (block.getHash P.sha256) = none ∧
        L.admits P now block (topBlock P L.blocks) = true ∧ follows P L.blocks block = true ∧
        0 < P.compareWork (P.addChainWork (L.tip P).chainWork block.header.bits)
          (L.tip P).chainWork := by
  have longer {blocks : List Block} : blocks ≠ block :: blocks := fun same => by
    simpa using congrArg List.length same
  constructor
  · rintro ⟨answer, top⟩
    have new : L.tree (block.getHash P.sha256) = none := by
      by_contra known
      rw [accept, if_pos (Option.isSome_iff_ne_none.mpr known)] at top
      exact longer top
    have parent : L.tree block.header.prevBlockHash = some (topBlock P L.blocks) := by
      rw [prev]
      exact valid.tree_tip
    have admitted : L.admits P now block (topBlock P L.blocks) = true := by
      by_contra refused
      rw [accept, new, parent] at answer
      simp [refused] at answer
    have work : 0 < P.compareWork (P.addChainWork (L.tip P).chainWork block.header.bits)
        (L.tip P).chainWork := by
      by_contra light
      have aside : P.compareWork (childOf P (topBlock P L.blocks) block).work
          (L.tip P).chainWork ≤ 0 := Int.not_lt.mp light
      rw [accept, new, parent] at top
      dsimp only [Option.isSome] at top
      rw [if_neg (by simp), if_neg (by simp [admitted]), if_pos aside] at top
      exact longer top
    refine ⟨new, admitted, ?_, work⟩
    by_contra apart
    have stays : follows P (L.put P (childOf P (topBlock P L.blocks) block)).blocks block = false :=
      Bool.eq_false_iff.mpr apart
    rw [accept_top valid new prev admitted work, connect, if_pos stays] at answer
    cases answer
  · rintro ⟨new, admitted, next, work⟩
    obtain ⟨done, applies⟩ := applies admitted
    let L₁ := L.put P (childOf P (topBlock P L.blocks) block)
    have goes : ¬ follows P L₁.blocks block = false := by
      rw [blocks_put, next]
      simp
    have applied : applyBlockTwoPhase P block (nextHeight L₁.chain) L₁.coins =
      (some _, _) := applies.apply
    rw [accept_top valid new prev admitted work, connect, if_neg goes, applied]
    exact ⟨rfl, rfl⟩

end Ledger

end QmaskCore
