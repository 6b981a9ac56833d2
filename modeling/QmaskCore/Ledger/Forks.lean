import QmaskCore.Ledger.Extends

/-!
What activating a branch does to the active chain.

Every stored block tops a chain of stored blocks (`Valid.chain_of_tree`), and the
walk of `branch` splits it where it meets the active one (`branch_eq`). Blocks
that can be read back come off the active chain one by one, so after
`activate` the chain is the whole new one, or what both share
(`activate_blocks`).
-/

namespace QmaskCore

namespace Ledger

variable {P : Params} {L : Ledger}

/-! ### Chains of stored blocks -/

/-- A stored block tops a chain of stored blocks. -/
theorem Valid.chain_of_tree (valid : L.Valid P) : ∀ (height : Nat) {blockHash : Bytes32}
    {st : StoredBlock}, L.tree blockHash = some st → st.height = height →
    ∃ blocks, Linked P L.tree blocks ∧ topBlock P blocks = st ∧
      (chainTip P blocks).blockHash = blockHash := by
  intro height
  induction height with
  | zero =>
      intro blockHash st stored zero
      obtain rfl := (valid.height_eq_zero stored).mp zero
      exact ⟨[], trivial, Option.some.inj (valid.genesis.symm.trans stored), valid.tip_nil⟩
  | succ height ih =>
      intro blockHash st stored level
      have above : blockHash ≠ P.genesisHash := by
        intro genesis
        have zero := (valid.height_eq_zero stored).mpr genesis
        omega
      have planted := valid.planted stored
      obtain ⟨parent, found, grown, -⟩ := planted.grown above
      have levels := congrArg StoredBlock.height grown
      rw [childOf, level] at levels
      obtain ⟨blocks, linked, top, tip⟩ := ih found (Nat.succ.inj levels).symm
      have whole : topBlock P (st.block :: blocks) = st := by
        rw [grown, topBlock, childOf, ← top, height_topBlock]
      refine ⟨st.block :: blocks, ⟨?_, tip.symm, linked⟩, whole, ?_⟩
      · rw [whole, planted.keyed, stored]
      · exact planted.keyed

/-- Blocks of a chain can be read back. -/
def Legible (P : Params) (L : Ledger) : Prop :=
  ∀ {blockHash st}, L.tree blockHash = some st → blockHash ≠ P.genesisHash → st.block.Readable P

theorem Moves.legible {given : Block → Prop} (start : (initial P).Valid P)
    (moves : Moves P given (fun _ => False) (initial P) L) : L.Legible P := by
  intro blockHash st stored above
  obtain ⟨now, L₀, parent, -, -, -, -, admitted, -⟩ := Moves.admitted start moves stored above
  exact (rules_of_admits admitted).size

/-- A chain of the tree whose top is on the active chain is a part of it. -/
theorem Valid.part_of_active (valid : L.Valid P) {blocks : List Block}
    (linked : Linked P L.tree blocks) (active : L.onChain P (chainTip P blocks).blockHash = true) :
    blocks <:+ L.blocks := by
  rw [onChain, List.any_eq_true] at active
  obtain ⟨b, mem, same⟩ := active
  obtain ⟨upper, lower, split⟩ := List.mem_iff_append.mp mem
  have lowerLinked : Linked P L.tree (b :: lower) := by
    have dropped := valid.linked.drop upper.length
    rwa [split, List.drop_left] at dropped
  have equal : blocks = b :: lower := by
    refine Linked.eq_of_top ?_ linked lowerLinked (of_decide_eq_true same).symm
    rw [valid.tip_nil]
    exact valid.genesis
  exact ⟨upper, by rw [equal, split]⟩

/-- The fork as `branch` reports it: the top of what is shared, `none` for genesis. -/
def forkOf (P : Params) : List Block → Option Bytes32
  | [] => none
  | block :: _ => some (block.getHash P.sha256)

/-- The walk from the top of a chain down splits it at the active chain. -/
theorem branch_eq (valid : L.Valid P) : ∀ {blocks : List Block} (fuel : Nat),
    Linked P L.tree blocks → blocks ≠ [] → blocks.length ≤ fuel →
    ∃ news below, blocks = news ++ below ∧ below <:+ L.blocks ∧
      (∀ b ∈ news, L.onChain P (b.getHash P.sha256) = false) ∧
      L.branch P fuel (chainTip P blocks).blockHash =
        some (news.map (·.getHash P.sha256), forkOf P below) := by
  intro blocks
  induction blocks with
  | nil => exact fun _ _ some => absurd rfl some
  | cons block rest ih =>
      intro fuel linked _ enough
      obtain ⟨fuel, rfl⟩ := Nat.exists_eq_succ_of_ne_zero (n := fuel) (by
        rw [List.length_cons] at enough
        omega)
      have stored := linked.1
      change L.tree (chainTip P (block :: rest)).blockHash = _ at stored
      rw [branch, stored]
      dsimp only
      by_cases active : L.onChain P (chainTip P (block :: rest)).blockHash = true
      · refine ⟨[], block :: rest, rfl, valid.part_of_active linked active, by simp, ?_⟩
        rw [if_pos active]
        rfl
      · rw [if_neg active]
        have off : L.onChain P (block.getHash P.sha256) = false :=
          Bool.eq_false_iff.mpr active
        rw [show (topBlock P (block :: rest)).block = block from rfl]
        by_cases bottom : block.header.prevBlockHash = P.genesisHash
        · rw [if_pos bottom]
          have rest_nil : rest = [] := by
            refine Linked.eq_of_top ?_ linked.2.2 (show Linked P L.tree [] from trivial) ?_
            · rw [valid.tip_nil]
              exact valid.genesis
            · rw [← linked.2.1, bottom, valid.tip_nil]
          subst rest_nil
          exact ⟨[block], [], rfl, List.nil_suffix, by simpa using off, rfl⟩
        · rw [if_neg bottom]
          have some_rest : rest ≠ [] := by
            rintro rfl
            exact bottom (linked.2.1.trans valid.tip_nil)
          obtain ⟨news, below, split, shared, apart, walked⟩ :=
            ih fuel linked.2.2 some_rest (Nat.le_of_succ_le_succ enough)
          refine ⟨block :: news, below, by rw [split]; rfl, shared, ?_, ?_⟩
          · simpa [off] using apart
          · rw [linked.2.1, walked]
            rfl

/-! ### Down to the fork -/

theorem Legible.congr {L' : Ledger} (legible : L.Legible P) (same : L'.tree = L.tree) :
    L'.Legible P := by
  intro blockHash st stored
  exact legible (same ▸ stored)

/-- The tip can be read back, so it is taken off. -/
theorem disconnect_eq (valid : L.Valid P) (legible : L.Legible P) {block : Block}
    {rest : List Block} (blocks : L.blocks = block :: rest) :
    ∃ L', L.disconnect P = (true, L') ∧ L'.blocks = rest ∧ L'.tree = L.tree ∧ L'.Valid P := by
  obtain ⟨c, chain, whole, rfl, rfl⟩ := List.map_eq_cons_iff.mp blocks
  have linked := valid.linked
  rw [blocks] at linked
  have stored := linked.1
  have readable : c.block.Readable P := by
    refine legible stored fun genesis => ?_
    have zero := (valid.height_eq_zero stored).mpr genesis
    rw [height_topBlock] at zero
    cases zero
  have kept := valid.disconnect
  have same := tree_disconnect (P := P) L
  rw [disconnect, whole] at kept same ⊢
  dsimp only at kept same ⊢
  rw [if_pos readable] at kept same ⊢
  exact ⟨_, rfl, rfl, same, kept⟩

theorem linked_of_suffix (valid : L.Valid P) {below : List Block} (shared : below <:+ L.blocks) :
    Linked P L.tree below := by
  obtain ⟨upper, split⟩ := shared
  have dropped := valid.linked.drop upper.length
  rwa [← split, List.drop_left] at dropped

/-- The fork is reached when what both chains share is all that is left. -/
theorem atFork_iff (valid : L.Valid P) {below : List Block} (shared : below <:+ L.blocks) :
    L.atFork P (forkOf P below) = true ↔ L.blocks = below := by
  cases below with
  | nil =>
      rw [forkOf, atFork, Ledger.blocks]
      cases L.chain <;> simp
  | cons b below =>
      rw [forkOf, atFork, decide_eq_true_eq]
      constructor
      · intro same
        refine Linked.eq_of_top ?_ valid.linked (linked_of_suffix valid shared) same
        rw [valid.tip_nil]
        exact valid.genesis
      · intro same
        rw [tip, same]
        rfl

theorem disconnectToFork_eq {below : List Block} : ∀ (fuel : Nat) {L : Ledger}, L.Valid P →
    L.Legible P → below <:+ L.blocks → L.blocks.length < fuel + below.length →
    ∃ L', L.disconnectToFork P (forkOf P below) fuel = (true, L') ∧ L'.blocks = below ∧
      L'.tree = L.tree ∧ L'.Valid P := by
  intro fuel
  induction fuel with
  | zero =>
      intro L _ _ shared enough
      have le := shared.length_le
      omega
  | succ fuel ih =>
      intro L valid legible shared enough
      rw [disconnectToFork]
      by_cases there : L.atFork P (forkOf P below) = true
      · rw [if_pos there]
        exact ⟨L, rfl, (atFork_iff valid shared).mp there, rfl, valid⟩
      · rw [if_neg there]
        obtain ⟨upper, split⟩ := shared
        cases upper with
        | nil => exact absurd ((atFork_iff valid ⟨[], split⟩).mpr split.symm) there
        | cons b upper =>
            obtain ⟨L', ran, blocks, tree, valid'⟩ := disconnect_eq valid legible split.symm
            rw [ran]
            obtain ⟨L'', ran', blocks', tree', valid''⟩ :=
              ih valid' (legible.congr tree) ⟨upper, blocks.symm⟩ (by
                have length := congrArg List.length split
                rw [List.cons_append, List.length_cons] at length
                have shorter := congrArg List.length blocks
                change L'.blocks.length = (upper ++ below).length at shorter
                omega)
            exact ⟨L'', ran', blocks', tree'.trans tree, valid''⟩

/-- What was connected comes off again, and nothing else. -/
theorem rollback_eq {below : List Block} : ∀ {connected : List Bytes32} {upper : List Block}
    {L : Ledger}, L.Valid P → L.Legible P → L.blocks = upper ++ below →
    upper.length = connected.length →
    (L.rollback P connected).blocks = below ∧ (L.rollback P connected).tree = L.tree := by
  intro connected
  induction connected with
  | nil =>
      intro upper L _ _ split none
      rw [List.eq_nil_of_length_eq_zero none] at split
      exact ⟨split, rfl⟩
  | cons blockHash connected ih =>
      intro upper L valid legible split long
      cases upper with
      | nil => cases long
      | cons b upper =>
          obtain ⟨L', ran, blocks, tree, valid'⟩ := disconnect_eq valid legible split
          rw [rollback, ran]
          obtain ⟨blocks', tree'⟩ := ih valid' (legible.congr tree) blocks (Nat.succ.inj long)
          exact ⟨blocks', tree'.trans tree⟩

/-! ### Up the new branch -/

/-- A block that is connected comes on top; one that is refused leaves the chain. -/
theorem blocks_connect (L : Ledger) (block : Block) : ∃ ok L', L.connect P block = (ok, L') ∧
    L'.blocks = if ok then block :: L.blocks else L.blocks := by
  rw [connect]
  dsimp only
  split
  · exact ⟨false, L, rfl, rfl⟩
  · rcases applyBlockTwoPhase P block (nextHeight L.chain) L.coins with ⟨_ | _, V⟩
    · exact ⟨false, _, rfl, rfl⟩
    · exact ⟨true, _, rfl, rfl⟩

/-- Blocks found in the tree that can be read back. -/
def Found (P : Params) (L : Ledger) (news : List Block) : Prop :=
  ∀ b ∈ news, ∃ st, L.tree (b.getHash P.sha256) = some st ∧ st.block = b ∧ b.Readable P

theorem Found.tail {b : Block} {news : List Block} (found : L.Found P (b :: news)) {L' : Ledger}
    (same : L'.tree = L.tree) : L'.Found P news := by
  intro b' mem
  rw [same]
  exact found b' (List.mem_cons_of_mem _ mem)

theorem connectBranch_eq {below : List Block} : ∀ {news : List Block} (connected : List Bytes32)
    (upper : List Block) {L : Ledger}, L.Valid P → L.Legible P →
    L.Found P news → L.blocks = upper ++ below → upper.length = connected.length →
    ∃ ok L', L.connectBranch P (news.map (·.getHash P.sha256)) connected = (ok, L') ∧
      L'.tree = L.tree ∧ L'.blocks = if ok then news.reverse ++ L.blocks else below := by
  intro news
  induction news with
  | nil => exact fun _ _ {L} _ _ _ _ _ => ⟨true, L, rfl, rfl, rfl⟩
  | cons b news ih =>
      intro connected upper L valid legible found split long
      obtain ⟨st, here, rfl, readable⟩ := found b List.mem_cons_self
      have tree := valid.tree_connect here
      have valid' := valid.connect (valid.agrees here) (valid.shape here)
      obtain ⟨ok, L', ran, blocks⟩ := blocks_connect (P := P) L st.block
      rw [List.map_cons, connectBranch, here]
      dsimp only
      rw [if_pos readable, ran]
      rw [ran] at tree valid'
      cases ok with
      | false =>
          obtain ⟨back, tree'⟩ := rollback_eq valid' (legible.congr tree) (blocks.trans split) long
          exact ⟨false, _, rfl, tree'.trans tree, back⟩
      | true =>
          obtain ⟨ok, L'', ran', tree', blocks'⟩ :=
            ih (st.block.getHash P.sha256 :: connected) (st.block :: upper) valid'
              (legible.congr tree) (found.tail tree)
              (by rw [blocks, split]; rfl) (by rw [List.length_cons, List.length_cons, long])
          refine ⟨ok, L'', ran', tree'.trans tree, blocks'.trans ?_⟩
          rw [blocks]
          cases ok <;> simp

/-- Activating a stored chain takes the active one down to what both share, in
small steps, and connects the rest. -/
theorem activate_eq (valid : L.Valid P) (legible : L.Legible P) {blocks : List Block}
    (linked : Linked P L.tree blocks) (some_block : blocks ≠ []) :
    ∃ (news below : List Block) (L₁ : Ledger), blocks = news ++ below ∧ below <:+ L.blocks ∧
      (∀ b ∈ news, L.onChain P (b.getHash P.sha256) = false) ∧ L₁.blocks = below ∧
      L₁.tree = L.tree ∧ L₁.Valid P ∧ L₁.Found P news.reverse ∧
      Moves P (fun _ => False) (fun _ => False) L L₁ ∧ (below = L.blocks → L₁ = L) ∧
      L.activate P (chainTip P blocks).blockHash =
        L₁.connectBranch P (news.reverse.map (·.getHash P.sha256)) [] := by
  have stored := linked.top valid.genesisHash valid.genesis
  have fuel : L.branchFuel (chainTip P blocks).blockHash = blocks.length + 1 := by
    rw [branchFuel, stored]
    exact congrArg (· + 1) (height_topBlock P blocks)
  obtain ⟨news, below, split, shared, apart, walked⟩ :=
    branch_eq valid (blocks.length + 1) linked some_block (Nat.le_succ _)
  obtain ⟨L₁, ran, blocks', tree, valid'⟩ := disconnectToFork_eq (L.chain.length + 1) valid
    legible shared (by rw [L.length_blocks]; omega)
  have moves : Moves P (fun _ => False) (fun _ => False) L
      (L.disconnectToFork P (forkOf P below) (L.chain.length + 1)).2 :=
    disconnectToFork_moves _ _ L
  rw [ran] at moves
  refine ⟨news, below, L₁, split, shared, apart, blocks', tree, valid', ?_, moves, ?_, ?_⟩
  · intro b mem
    have inBlocks : b ∈ blocks := by
      rw [split]
      exact List.mem_append_left _ (List.mem_reverse.mp mem)
    obtain ⟨st, here, rfl, positive, -⟩ := linked.height_le b inBlocks
    refine ⟨st, by rw [tree, here], rfl, legible here fun genesis => ?_⟩
    have zero := (valid.height_eq_zero here).mpr genesis
    omega
  · intro whole
    rw [disconnectToFork, if_pos ((atFork_iff valid shared).mpr whole.symm)] at ran
    exact (congrArg Prod.snd ran).symm
  · rw [activate, fuel, walked]
    dsimp only
    rw [ran, ← List.map_reverse]

/-- Activating a stored chain leaves it active, or what it shares with the one before. -/
theorem activate_blocks (valid : L.Valid P) (legible : L.Legible P) {blocks : List Block}
    (linked : Linked P L.tree blocks) (some_block : blocks ≠ []) :
    ∃ news below ok L', blocks = news ++ below ∧ below <:+ L.blocks ∧
      (∀ b ∈ news, L.onChain P (b.getHash P.sha256) = false) ∧
      L.activate P (chainTip P blocks).blockHash = (ok, L') ∧ L'.tree = L.tree ∧
      L'.blocks = if ok then blocks else below := by
  obtain ⟨news, below, L₁, split, shared, apart, blocks', tree, valid', found, -, -, ran⟩ :=
    activate_eq valid legible linked some_block
  obtain ⟨ok, L', ran', tree', final⟩ := connectBranch_eq [] [] valid' (legible.congr tree) found
    (by simpa using blocks') rfl
  refine ⟨news, below, ok, L', split, shared, apart, ran.trans ran', tree'.trans tree,
    final.trans ?_⟩
  rw [List.reverse_reverse, blocks', ← split]

end Ledger

end QmaskCore
