import QmaskCore.Ledger.BlockTree
import QmaskCore.Ledger.Checkpoints

/-!
The order in which blocks come.

A node that is delivered a tree of valid blocks may have another chain active when
a block comes, and it is the coins of that chain that `ValidateBlock` looks at. What
a node ends on is the heaviest of the chains it has stored (`Ledger.Heaviest`), so
the order decides only which blocks are stored, and these are the ones that pass
when they come (`passes_of_stored`, `linked_of_passes`). `delivery_order_iff` is
the statement for two orders, `branch_refused_for_coins` a pair that ends apart.
-/

namespace QmaskCore

/-- What is relied on of the comparison of chain works: it is a total order. -/
structure Params.WorkOrdered (P : Params) : Prop where
  swap : ∀ a b, 0 < P.compareWork a b ↔ P.compareWork b a < 0
  trans : ∀ a b c, P.compareWork a b ≤ 0 → P.compareWork b c ≤ 0 → P.compareWork a c ≤ 0
  tie : ∀ a b, P.compareWork a b = 0 → a = b

namespace Params.WorkOrdered

variable {P : Params}

theorem refl (order : P.WorkOrdered) (a : Bytes32) : P.compareWork a a ≤ 0 := by
  by_contra above
  have below := (order.swap a a).mp (by omega)
  omega

theorem of_not_le (order : P.WorkOrdered) {a b : Bytes32} (above : 0 < P.compareWork a b) :
    P.compareWork b a ≤ 0 := by
  have below := (order.swap a b).mp above
  omega

theorem antisymm (order : P.WorkOrdered) {a b : Bytes32} (le : P.compareWork a b ≤ 0)
    (ge : P.compareWork b a ≤ 0) : a = b := by
  refine order.tie a b (le_antisymm le ?_)
  by_contra below
  have above := (order.swap b a).mpr (by omega)
  omega

end Params.WorkOrdered

/-- Blocks delivered in an order, while the clock stands still. -/
def ChainState.deliver (P : Params) (s : ChainState) (now : UInt64) (order : List Block) : ChainState :=
  s.acceptAll P (order.map (now, ·))

/-- An order of the blocks in which no block comes before its parent. -/
structure DeliveryOrder (P : Params) (blocks order : List Block) : Prop where
  perm : order.Perm blocks
  parents : ∀ earlier block later, order = earlier ++ block :: later →
    block.header.prevBlockHash = P.genesisHash ∨
      ∃ parent ∈ earlier, parent.getHash P.sha256 = block.header.prevBlockHash

/-- No chain the blocks form has more work. -/
structure Greatest (P : Params) (blocks chain : List Block) : Prop where
  chained : ChainOf P blocks chain
  most : ∀ other, ChainOf P blocks other →
    P.compareWork (chainTip P other).chainWork (chainTip P chain).chainWork ≤ 0

/-- Each block of some chain of most work passes `ValidateBlock` on the coins that
are active when it comes. -/
def GreatestPasses (P : Params) (s₀ : ChainState) (now : UInt64) (blocks order : List Block) :
    Prop :=
  ∃ chain, Greatest P blocks chain ∧ ∀ earlier block later, order = earlier ++ block :: later →
    block ∈ chain → (s₀.deliver P now earlier).Passes P now block

namespace Ledger

variable {P : Params} {s₀ : ChainState} {now : UInt64} {blocks : List Block} {L L' : Ledger}

/-! ### One delivery -/

theorem chainOf_of_append {lower : List Block} : ∀ {upper : List Block},
    ChainOf P blocks (upper ++ lower) → ChainOf P blocks lower := by
  intro upper
  induction upper with
  | nil => exact id
  | cons b upper ih => exact fun chained => ih chained.2.2

/-- A branch of the set goes through. -/
theorem connectBranch_ok (opened : ChainState.initializeState P (.ofDisk .empty) = .ok s₀)
    (tree : ValidTree P s₀ now blocks) : ∀ {news : List Block} (connected : List Bytes32)
    {L : Ledger}, L.Valid P → L.Exact P → L.Found P news →
    ChainOf P blocks (news.reverse ++ L.blocks) →
    (L.connectBranch P (news.map (·.getHash P.sha256)) connected).1 = true := by
  intro news
  induction news with
  | nil => exact fun _ _ _ _ _ _ => rfl
  | cons b news ih =>
      intro connected L valid exact found chained
      rw [List.reverse_cons, List.append_assoc, List.singleton_append] at chained
      obtain ⟨st, here, rfl, readable⟩ := found b List.mem_cons_self
      have same := valid.tree_connect here
      have valid' := valid.connect (valid.agrees here) (valid.shape here)
      obtain ⟨L', ran, blocks', exact'⟩ :=
        (exact.fits valid.sound opened tree (chainOf_of_append chained)).connect exact
      rw [ran] at same valid'
      rw [List.map_cons, connectBranch, here]
      dsimp only
      rw [if_pos readable, ran]
      exact ih _ valid' exact' (found.tail same) (by rw [blocks']; exact chained)

/-- What a delivery adds to the tree is the block delivered, when it is let through. -/
theorem tree_accept (valid : L.Valid P) (legible : L.Legible P) (now : UInt64) (block : Block) :
    (L.accept P now block).2.tree = L.tree ∨
      ∃ parent, L.admits P now block parent = true ∧
        (L.accept P now block).2.tree = (L.put P (childOf P parent block)).tree := by
  rcases L.accept_cases now block with same | ⟨parent, -, -, admitted, -, ran⟩ | ⟨parent, heavier⟩
  · exact .inl (by rw [same])
  · exact .inr ⟨parent, admitted, by rw [ran]⟩
  · obtain ⟨below, linked, top, tip⟩ := valid.chain_of_tree _ heavier.2.1 rfl
    obtain ⟨valid₁, legible₁, linked₁, -, accepted⟩ :=
      heavier.activates valid legible linked top tip
    obtain ⟨-, -, ok, L', -, -, -, ran, tree', -⟩ :=
      activate_blocks valid₁ legible₁ linked₁ (List.cons_ne_nil _ _)
    exact .inr ⟨parent, heavier.2.2.1, by rw [accepted, ran, tree']⟩

/-- A block that overtakes the tip becomes the tip. -/
theorem Hears.overtakes (hears : L.Hears P blocks) (start : (initial P).Valid P)
    (opened : ChainState.initializeState P (.ofDisk .empty) = .ok s₀)
    (tree : ValidTree P s₀ now blocks) (spared : NoneStoredOver P s₀ blocks) {block : Block}
    {parent : StoredBlock} (mem : block ∈ blocks) (heavier : L.Overtakes P now block parent)
    {below : List Block} (linked : Linked P L.tree below) (top : topBlock P below = parent)
    (tip : (chainTip P below).blockHash = block.header.prevBlockHash) :
    (L.accept P now block).2.blocks = block :: below ∧
      (L.accept P now block).2.tree = (L.put P (childOf P parent block)).tree := by
  obtain ⟨valid₁, legible₁, linked₁, -, accepted⟩ := heavier.activates (hears.valid start)
    (Moves.legible start hears) linked top tip
  have hears₁ : (L.put P (childOf P parent block)).Hears P blocks :=
    Relation.ReflTransGen.tail hears (.store mem heavier.1 heavier.2.1 heavier.2.2.1)
  obtain ⟨news, low, L₁, split, -, -, blocks₁, tree₁, valid', found, moves, -, ran⟩ :=
    activate_eq valid₁ legible₁ linked₁ (List.cons_ne_nil _ _)
  have hears' : L₁.Hears P blocks :=
    Relation.ReflTransGen.trans hears₁ (moves.mono fun _ none => none.elim)
  have ok := connectBranch_ok opened tree [] valid' (hears'.exact start opened tree spared) found (by
    rw [List.reverse_reverse, blocks₁, ← split]
    exact hears₁.chainOf start linked₁)
  obtain ⟨ok', L', ran', tree', blocks'⟩ := connectBranch_eq [] [] valid'
    (legible₁.congr tree₁) found (by simpa using blocks₁) rfl
  rw [ran'] at ok
  obtain rfl : ok' = true := ok
  rw [accepted, ran, ran']
  refine ⟨?_, tree'.trans tree₁⟩
  rw [blocks', if_pos rfl, List.reverse_reverse, blocks₁, ← split]

/-- No stored block has more work than the tip. -/
def Heaviest (P : Params) (L : Ledger) : Prop :=
  ∀ blockHash st, L.tree blockHash = some st → P.compareWork st.work (L.tip P).chainWork ≤ 0

theorem heaviest_initial (order : P.WorkOrdered) : (initial P).Heaviest P := by
  intro blockHash st stored
  dsimp only [initial] at stored
  split at stored
  · cases stored
    exact order.refl _
  · cases stored

/-- Every delivery leaves the heaviest stored chain active. -/
theorem Heaviest.accept (heaviest : L.Heaviest P) (order : P.WorkOrdered)
    (hears : L.Hears P blocks) (start : (initial P).Valid P)
    (opened : ChainState.initializeState P (.ofDisk .empty) = .ok s₀)
    (tree : ValidTree P s₀ now blocks) (spared : NoneStoredOver P s₀ blocks) {block : Block}
    (mem : block ∈ blocks) : (L.accept P now block).2.Heaviest P := by
  rcases L.accept_cases now block with same | ⟨parent, -, -, -, aside, ran⟩ | ⟨parent, heavier⟩
  · rw [same]
    exact heaviest
  · rw [ran]
    intro blockHash st stored
    rw [tree_put] at stored
    split at stored
    · cases stored
      exact aside
    · exact heaviest _ _ stored
  · obtain ⟨below, linked, top, tip⟩ := (hears.valid start).chain_of_tree _ heavier.2.1 rfl
    obtain ⟨blocks', tree'⟩ := hears.overtakes start opened tree spared mem heavier linked top tip
    have work : ((L.accept P now block).2.tip P).chainWork = (childOf P parent block).work := by
      rw [Ledger.tip, blocks', ← top]
      rfl
    intro blockHash st stored
    rw [work]
    rw [tree', tree_put] at stored
    split at stored
    · cases stored
      exact order.refl _
    · exact order.trans _ _ _ (heaviest _ _ stored) (order.of_not_le heavier.2.2.2)

/-! ### Whole orders -/

/-- Blocks delivered in an order. -/
def deliver (P : Params) (L : Ledger) (now : UInt64) (order : List Block) : Ledger :=
  order.foldl (fun L block => (L.accept P now block).2) L

theorem deliver_append (earlier later : List Block) :
    L.deliver P now (earlier ++ later) = (L.deliver P now earlier).deliver P now later :=
  List.foldl_append

theorem deliver_moves {list : List Block} : ∀ {L : Ledger}, (∀ b ∈ list, b ∈ blocks) →
    Moves P (· ∈ blocks) (fun _ => False) L (L.deliver P now list) := by
  induction list with
  | nil => exact fun _ => .refl
  | cons block list ih =>
      intro L sub
      have moves : Moves P (· ∈ blocks) (fun _ => False) L (L.accept P now block).2 :=
        accept_moves now (sub block List.mem_cons_self) L
      exact Relation.ReflTransGen.trans moves (ih fun b mem => sub b (List.mem_cons_of_mem _ mem))

theorem Hears.deliver (hears : L.Hears P blocks) {list : List Block} (sub : ∀ b ∈ list, b ∈ blocks) :
    (L.deliver P now list).Hears P blocks :=
  Relation.ReflTransGen.trans hears (deliver_moves sub)

theorem Heaviest.deliver (order : P.WorkOrdered) (start : (initial P).Valid P)
    (opened : ChainState.initializeState P (.ofDisk .empty) = .ok s₀)
    (tree : ValidTree P s₀ now blocks) (spared : NoneStoredOver P s₀ blocks) :
    ∀ {list : List Block} {L : Ledger}, L.Heaviest P → L.Hears P blocks →
    (∀ b ∈ list, b ∈ blocks) → (L.deliver P now list).Heaviest P := by
  intro list
  induction list with
  | nil => exact fun heaviest _ _ => heaviest
  | cons block list ih =>
      intro L heaviest hears sub
      have mem := sub block List.mem_cons_self
      have moves : Moves P (· ∈ blocks) (fun _ => False) L (L.accept P now block).2 :=
        accept_moves now mem L
      exact ih (heaviest.accept order hears start opened tree spared mem)
        (Relation.ReflTransGen.trans hears moves) fun b listed => sub b (List.mem_cons_of_mem _ listed)

/-- Deliveries of other blocks do not change what is stored under a hash. -/
theorem Hears.tree_deliver (start : (initial P).Valid P) {blockHash : Bytes32} :
    ∀ {list : List Block} {L : Ledger}, L.Hears P blocks → (∀ b ∈ list, b ∈ blocks) →
    (∀ b ∈ list, b.getHash P.sha256 ≠ blockHash) →
    (L.deliver P now list).tree blockHash = L.tree blockHash := by
  intro list
  induction list with
  | nil => exact fun _ _ _ => rfl
  | cons block list ih =>
      intro L hears sub apart
      have moves : Moves P (· ∈ blocks) (fun _ => False) L (L.accept P now block).2 :=
        accept_moves now (sub block List.mem_cons_self) L
      refine (ih (Relation.ReflTransGen.trans hears moves)
        (fun b mem => sub b (List.mem_cons_of_mem _ mem))
        fun b mem => apart b (List.mem_cons_of_mem _ mem)).trans ?_
      rcases tree_accept (hears.valid start) (Moves.legible start hears) now block with
        same | ⟨parent, -, same⟩
      · rw [same]
      · rw [same, tree_put, if_neg]
        exact fun here => apart block List.mem_cons_self here.symm

end Ledger

theorem Represents.deliver {P : Params} {now : UInt64} : ∀ {order : List Block} {s : ChainState}
    {L : Ledger}, Represents P s L → Represents P (s.deliver P now order) (L.deliver P now order) := by
  intro order
  induction order with
  | nil => exact fun rep => rep
  | cons block order ih => exact fun rep => ih rep.acceptBlock_sim.state

/-! ### The node -/

section

variable {P : Params} {s₀ : ChainState} {now : UInt64} {blocks order earlier later : List Block}
  {block : Block}

theorem DeliveryOrder.mem (fine : DeliveryOrder P blocks order) {b : Block} :
    b ∈ order ↔ b ∈ blocks :=
  fine.perm.mem_iff

/-- A block comes once. -/
theorem DeliveryOrder.once (fine : DeliveryOrder P blocks (earlier ++ block :: later))
    (tree : ValidTree P s₀ now blocks) {b : Block} (mem : b ∈ earlier ++ later) :
    b.getHash P.sha256 ≠ block.getHash P.sha256 := by
  have distinct := tree.hashes
  rw [List.map_cons, List.nodup_cons] at distinct
  have moved : (block :: (earlier ++ later)).Perm blocks :=
    List.perm_middle.symm.trans fine.perm
  have nodup := (moved.map (·.getHash P.sha256)).nodup_iff.mpr distinct.2
  rw [List.map_cons, List.nodup_cons] at nodup
  exact fun same => nodup.1 (List.mem_map.mpr ⟨b, mem, same⟩)

/-- The node's check of a block is that of its ledger. -/
theorem Represents.passes_iff {s : ChainState} {L : Ledger} (rep : Represents P s L) :
    s.Passes P now block ↔ BlockValidation.validateBlock P now L.coins.view block.header.height
      block = .ok () := by
  rw [ChainState.Passes, rep.view]

/-- A block that is stored in the end passed when it came. -/
theorem passes_of_stored (sound : P.SoundGenesis)
    (opened : ChainState.initializeState P (.ofDisk .empty) = .ok s₀)
    (tree : ValidTree P s₀ now blocks) (fine : DeliveryOrder P blocks (earlier ++ block :: later))
    {st : StoredBlock} (stored : ((Ledger.initial P).deliver P now
      (earlier ++ block :: later)).tree (block.getHash P.sha256) = some st) :
    (s₀.deliver P now earlier).Passes P now block := by
  have opens := represents_initial sound opened
  have start := opens.valid
  have mem : block ∈ blocks := fine.mem.mp (by simp)
  have sub : ∀ b ∈ earlier, b ∈ blocks := fun b listed => fine.mem.mp (by simp [listed])
  have subLater : ∀ b ∈ later, b ∈ blocks := fun b listed => fine.mem.mp (by simp [listed])
  let L := (Ledger.initial P).deliver P now earlier
  have hears : L.Hears P blocks := Ledger.Hears.deliver .refl sub
  have moves : Ledger.Moves P (· ∈ blocks) (fun _ => False) L (L.accept P now block).2 :=
    Ledger.accept_moves now mem L
  rw [Ledger.deliver_append] at stored
  change ((L.accept P now block).2.deliver P now later).tree _ = _ at stored
  rw [Ledger.Hears.tree_deliver start (Relation.ReflTransGen.trans hears moves) subLater
    fun b listed => fine.once tree (List.mem_append_right _ listed)] at stored
  rcases Ledger.tree_accept (hears.valid start) (Ledger.Moves.legible start hears) now block with
    same | ⟨parent, admitted, -⟩
  · -- Nothing but genesis was there before, and the block is not genesis.
    have before : L.tree (block.getHash P.sha256) = (Ledger.initial P).tree _ :=
      Ledger.Hears.tree_deliver start .refl sub fun b listed =>
        fine.once tree (List.mem_append_left _ listed)
    rw [same, before] at stored
    dsimp only [Ledger.initial] at stored
    rw [if_neg (start.genesisHash ▸ tree.hash_ne_genesis mem)] at stored
    cases stored
  · have level := Ledger.height_of_admits admitted
    rw [opens.deliver.passes_iff, ← UInt32.ofNat_toNat (x := block.header.height), level]
    unfold Ledger.admits at admitted
    simp only [Bool.and_eq_true, decide_eq_true_eq] at admitted
    exact admitted.2

theorem ValidTree.follows (tree : ValidTree P s₀ now blocks) (sound : P.SoundGenesis)
    (opened : ChainState.initializeState P (.ofDisk .empty) = .ok s₀) {below : List Block}
    (chained : ChainOf P blocks (block :: below)) : follows P below block = true := by
  obtain ⟨s, ran, -⟩ := tree.valid_on chained
  obtain ⟨L, -, rfl, exact, -⟩ := Ledger.exists_of_connectAll sound opened tree chained.2.2 ran
  exact (exact.fits sound opened tree chained).next

/-- A block valid on its own ancestors is let through where these are stored and
it passes `ValidateBlock`. -/
theorem ValidTree.admitted (tree : ValidTree P s₀ now blocks) (sound : P.SoundGenesis)
    (opened : ChainState.initializeState P (.ofDisk .empty) = .ok s₀) (free : P.checkpoints = [])
    {below : List Block} (chained : ChainOf P blocks (block :: below)) {L : Ledger}
    (passed : BlockValidation.validateBlock P now L.coins.view block.header.height block = .ok ()) :
    L.admits P now block (topBlock P below) = true := by
  have next := tree.follows sound opened chained
  have level := (height_of_follows next).1
  have work : P.checkProofOfWork (block.getHash P.sha256) block.header.bits = true := by
    simp only [QmaskCore.follows, Bool.and_eq_true] at next
    exact next.2
  have high : L.lastCheckpointHeight P = none := by
    rw [Ledger.lastCheckpointHeight, free]
    rfl
  unfold Ledger.admits
  rw [height_topBlock, ← level]
  dsimp only
  rw [UInt32.ofNat_toNat, high, passed, work]
  simp

/-- Blocks that pass when they come are stored, each after its ancestors. -/
theorem linked_of_passes (sound : P.SoundGenesis)
    (opened : ChainState.initializeState P (.ofDisk .empty) = .ok s₀) (free : P.checkpoints = [])
    (tree : ValidTree P s₀ now blocks) (fine : DeliveryOrder P blocks order) :
    ∀ {chain : List Block}, ChainOf P blocks chain →
    (∀ earlier block later, order = earlier ++ block :: later → block ∈ chain →
      (s₀.deliver P now earlier).Passes P now block) →
    ∀ earlier later, order = earlier ++ later → (∀ top ∈ chain.head?, top ∈ earlier) →
    Ledger.Linked P ((Ledger.initial P).deliver P now earlier).tree chain := by
  have opens := represents_initial sound opened
  have start := opens.valid
  intro chain
  induction chain with
  | nil => exact fun _ _ _ _ _ _ => trivial
  | cons block below ih =>
      intro chained passes earlier later split top
      obtain ⟨before, after, rfl⟩ := List.mem_iff_append.mp (top block rfl)
      have whole : order = before ++ block :: (after ++ later) := by
        rw [split, List.append_assoc, List.cons_append]
      have sub : ∀ b ∈ before ++ block :: after, b ∈ blocks := by
        intro b mem
        rw [← fine.mem, split]
        exact List.mem_append_left _ mem
      have subBefore : ∀ b ∈ before, b ∈ blocks := fun b mem => sub b (List.mem_append_left _ mem)
      have subAfter : ∀ b ∈ after, b ∈ blocks := fun b mem => sub b (by simp [mem])
      -- The parent came before the block.
      have parent : ∀ b ∈ below.head?, b ∈ before := by
        intro b first
        obtain ⟨lower, rfl⟩ := List.head?_eq_some_iff.mp first
        have here : b ∈ blocks := chained.2.2.1
        have prev : block.header.prevBlockHash = b.getHash P.sha256 := chained.2.1
        rcases fine.parents before block _ whole with genesis | ⟨b', mem, same⟩
        · rw [prev, ← start.genesisHash] at genesis
          exact absurd genesis (tree.hash_ne_genesis here)
        · rw [prev] at same
          rwa [tree.hash_injective (List.mem_cons_of_mem _ (subBefore b' mem))
            (List.mem_cons_of_mem _ here) same] at mem
      let L := (Ledger.initial P).deliver P now before
      have hears : L.Hears P blocks := Ledger.Hears.deliver .refl subBefore
      have linked : Ledger.Linked P L.tree below :=
        ih chained.2.2 (fun e b l split mem => passes e b l split (List.mem_cons_of_mem _ mem))
          before _ whole parent
      have valid := hears.valid start
      have passed := opens.deliver.passes_iff.mp (passes before block _ whole List.mem_cons_self)
      have new : L.tree (block.getHash P.sha256) = none := by
        rw [Ledger.Hears.tree_deliver start .refl subBefore fun b mem =>
          (whole ▸ fine).once tree (List.mem_append_left _ mem)]
        exact if_neg (start.genesisHash ▸ tree.hash_ne_genesis chained.1)
      have found : L.tree block.header.prevBlockHash = some (topBlock P below) := by
        rw [chained.2.1]
        exact linked.top valid.genesisHash valid.genesis
      have stored := Ledger.stored_of_admits valid new found
        (tree.admitted sound opened free chained passed)
      have here : Ledger.Moves P (· ∈ blocks) (fun _ => False) L (L.accept P now block).2 :=
        Ledger.accept_moves now chained.1 L
      have hears' : (L.accept P now block).2.Hears P blocks :=
        Relation.ReflTransGen.trans hears here
      have grown : Ledger.childOf P (topBlock P below) block = topBlock P (block :: below) := by
        rw [Ledger.childOf, height_topBlock]
        rfl
      rw [grown] at stored
      rw [Ledger.deliver_append]
      refine Ledger.Linked.mono (fun stored => ?_)
        (⟨stored, chained.2.1, linked.mono fun stored => here.tree_le valid stored⟩ :
          Ledger.Linked P (L.accept P now block).2.tree (block :: below))
      exact Ledger.Moves.tree_le (Ledger.deliver_moves subAfter) (hears'.valid start) stored

/-- Where an order ends: on a chain of most work exactly when the blocks of one
pass as they come. -/
theorem greatest_passes_iff (sound : P.SoundGenesis)
    (opened : ChainState.initializeState P (.ofDisk .empty) = .ok s₀) (works : P.WorkOrdered)
    (free : P.checkpoints = []) (tree : ValidTree P s₀ now blocks)
    (spared : NoneStoredOver P s₀ blocks) (fine : DeliveryOrder P blocks order) :
    (∃ chain, Greatest P blocks chain ∧
      (s₀.deliver P now order).mBestChain.chainWork = (chainTip P chain).chainWork) ↔
      GreatestPasses P s₀ now blocks order := by
  have opens := represents_initial sound opened
  have start := opens.valid
  let L := (Ledger.initial P).deliver P now order
  have hears : L.Hears P blocks := Ledger.Hears.deliver .refl fun b mem => fine.mem.mp mem
  have valid := hears.valid start
  have own : ChainOf P blocks L.blocks := hears.chainOf start valid.linked
  have tip : (s₀.deliver P now order).mBestChain = L.tip P := opens.deliver.tip
  rw [tip]
  constructor
  · rintro ⟨chain, greatest, same⟩
    refine ⟨L.blocks, ⟨own, fun other chained => ?_⟩, fun earlier block later split mem => ?_⟩
    · change P.compareWork _ (L.tip P).chainWork ≤ 0
      rw [same]
      exact greatest.most other chained
    · obtain ⟨st, stored, -⟩ := valid.linked.height_le block mem
      subst split
      exact passes_of_stored sound opened tree fine stored
  · rintro ⟨chain, greatest, passes⟩
    refine ⟨chain, greatest, ?_⟩
    have linked := linked_of_passes sound opened free tree fine greatest.chained passes order []
      (List.append_nil _).symm fun top first => by
        rw [fine.mem]
        exact greatest.chained.mem _ (List.mem_of_mem_head? first)
    have stored := linked.top valid.genesisHash valid.genesis
    have heaviest : L.Heaviest P := Ledger.Heaviest.deliver works start opened tree spared
      (Ledger.heaviest_initial works) .refl fun b mem => fine.mem.mp mem
    exact works.antisymm (greatest.most _ own) (heaviest _ _ stored)

end

/-- **When the order does not matter.** Let blocks be given that are each valid in
the state their own ancestors come to, and of which none stores over a coin
unspent there. Two orders of them, parents first, end on one work that no chain of
the blocks exceeds exactly when, in each of the orders, every block of some chain
of most work passes `ValidateBlock` on the coins that are active when it comes. -/
theorem delivery_order_iff {P : Params} (sound : P.SoundGenesis) {s₀ : ChainState}
    (opened : ChainState.initializeState P (.ofDisk .empty) = .ok s₀) (works : P.WorkOrdered)
    (free : P.checkpoints = []) {now : UInt64} {blocks : List Block}
    (tree : ValidTree P s₀ now blocks) (spared : NoneStoredOver P s₀ blocks)
    {first second : List Block} (fine : DeliveryOrder P blocks first)
    (fine' : DeliveryOrder P blocks second) :
    (∃ chain, Greatest P blocks chain ∧
      (s₀.deliver P now first).mBestChain.chainWork = (chainTip P chain).chainWork ∧
      (s₀.deliver P now second).mBestChain.chainWork = (chainTip P chain).chainWork) ↔
      GreatestPasses P s₀ now blocks first ∧ GreatestPasses P s₀ now blocks second := by
  rw [← greatest_passes_iff sound opened works free tree spared fine,
    ← greatest_passes_iff sound opened works free tree spared fine']
  constructor
  · rintro ⟨chain, greatest, same, same'⟩
    exact ⟨⟨chain, greatest, same⟩, chain, greatest, same'⟩
  · rintro ⟨⟨chain, greatest, same⟩, chain', greatest', same'⟩
    refine ⟨chain, greatest, same, same'.trans ?_⟩
    exact works.antisymm (greatest.most _ greatest'.chained) (greatest'.most _ greatest.chained)

instance (P : Params) (s₀ : ChainState) (now : UInt64) (below : List Block) (block : Block) :
    Decidable (OwnValid P s₀ now below block) :=
  decidable_of_iff ((s₀.connectAll P below).any fun s =>
    decide (s.Passes P now block) && (s.connectBlock P block).1) (by
      unfold OwnValid
      cases s₀.connectAll P below <;> simp)

/-- An outpoint that is stored over is one of the transactions'. -/
theorem mem_of_clobbers {o : OutPoint} : ∀ {txs : List Transaction}, clobbers o txs = true →
    o ∈ txs.flatMap (·.outpoints) := by
  intro txs
  induction txs with
  | nil => exact fun hit => nomatch hit
  | cons tx txs ih =>
      intro hit
      rw [clobbers] at hit
      rw [List.flatMap_cons, List.mem_append]
      split at hit
      · cases hit
      · split at hit
        · rename_i own
          exact .inl own
        · exact .inr (ih hit)

namespace SmallNetwork

theorem workOrdered_smallNetwork : smallNetwork.WorkOrdered where
  swap a b := by
    change (0 : Int) < a.toNat - b.toNat ↔ (b.toNat : Int) - a.toNat < 0
    omega
  trans a b c := by
    change (a.toNat : Int) - b.toNat ≤ 0 → (b.toNat : Int) - c.toNat ≤ 0 →
      (a.toNat : Int) - c.toNat ≤ 0
    omega
  tie a b := by
    change (a.toNat : Int) - b.toNat = 0 → a = b
    exact fun same => BitVec.eq_of_toNat_eq (by omega)

/-- A block that spends the coinbase of the block below it. -/
def branchSpend : Block :=
  mine (branchOne.getHash smallNetwork.sha256) 2 6 [mint 8 10, pay 9 7 20 10]
    (by simp [Block.maxTransactions])

/-- A block on genesis, and a branch of two beside it. -/
def forkBlocks : List Block := [blockOne, branchOne, branchSpend]

theorem chainOf_blockOne : ChainOf smallNetwork forkBlocks [blockOne] :=
  ⟨by simp [forkBlocks], by decide +kernel, trivial⟩

theorem chainOf_branchSpend : ChainOf smallNetwork forkBlocks [branchSpend, branchOne] :=
  ⟨by simp [forkBlocks], by decide +kernel, by simp [forkBlocks], by decide +kernel, trivial⟩

theorem validTree_forkBlocks : ValidTree smallNetwork node 20 forkBlocks where
  hashes := by decide +kernel
  valid := by
    intro block mem
    simp only [forkBlocks, List.mem_cons, List.not_mem_nil, or_false] at mem
    rcases mem with rfl | rfl | rfl
    · exact ⟨[], chainOf_blockOne, by decide +kernel⟩
    · exact ⟨[], chainOf_branchSpend.2.2, by decide +kernel⟩
    · exact ⟨[branchOne], chainOf_branchSpend, by decide +kernel⟩

theorem noneStoredOver_forkBlocks : NoneStoredOver smallNetwork node forkBlocks := by
  intro block below s chained ran o hit
  have mem := chained.1
  simp only [forkBlocks, List.mem_cons, List.not_mem_nil, or_false] at mem
  rcases mem with rfl | rfl | rfl
  · have free : ∀ o ∈ blockOne.transactions.flatMap (·.outpoints), node.getCoin o = none := by
      decide +kernel
    obtain ⟨-, rfl⟩ := List.cons.inj (validTree_forkBlocks.eq_of_top chained chainOf_blockOne rfl)
    obtain rfl : node = s := Option.some.inj ran
    exact free o (mem_of_clobbers hit)
  · have free : ∀ o ∈ branchOne.transactions.flatMap (·.outpoints), node.getCoin o = none := by
      decide +kernel
    obtain ⟨-, rfl⟩ :=
      List.cons.inj (validTree_forkBlocks.eq_of_top chained chainOf_branchSpend.2.2 rfl)
    obtain rfl : node = s := Option.some.inj ran
    exact free o (mem_of_clobbers hit)
  · have free : (node.connectAll smallNetwork [branchOne]).all (fun s =>
        decide (∀ o ∈ branchSpend.transactions.flatMap (·.outpoints), s.getCoin o = none)) =
          true := by
      decide +kernel
    obtain ⟨-, rfl⟩ := List.cons.inj (validTree_forkBlocks.eq_of_top chained chainOf_branchSpend rfl)
    rw [ran, Option.all_some, decide_eq_true_eq] at free
    exact free o (mem_of_clobbers hit)

theorem branch_last : DeliveryOrder smallNetwork forkBlocks [blockOne, branchOne, branchSpend] where
  perm := .refl _
  parents := by
    intro earlier block later split
    rcases earlier with _ | ⟨_, _ | ⟨_, _ | ⟨_, rest⟩⟩⟩ <;>
      simp only [List.nil_append, List.cons_append, List.cons.injEq] at split
    · exact .inl (split.1 ▸ by decide +kernel)
    · exact .inl (split.2.1 ▸ by decide +kernel)
    · obtain ⟨rfl, rfl, rfl, -⟩ := split
      exact .inr ⟨branchOne, by simp, by decide +kernel⟩
    · simp at split

theorem branch_first : DeliveryOrder smallNetwork forkBlocks [branchOne, branchSpend, blockOne] where
  perm := show ([branchOne, branchSpend] ++ [blockOne]).Perm ([blockOne] ++ [branchOne, branchSpend])
    from List.perm_append_comm
  parents := by
    intro earlier block later split
    rcases earlier with _ | ⟨_, _ | ⟨_, _ | ⟨_, rest⟩⟩⟩ <;>
      simp only [List.nil_append, List.cons_append, List.cons.injEq] at split
    · exact .inl (split.1 ▸ by decide +kernel)
    · obtain ⟨rfl, rfl, -⟩ := split
      exact .inr ⟨branchOne, by simp, by decide +kernel⟩
    · exact .inl (split.2.2.1 ▸ by decide +kernel)
    · simp at split

end SmallNetwork

open SmallNetwork in
theorem delivery_order_iff_forkBlocks :
    (∃ chain, Greatest smallNetwork forkBlocks chain ∧
      (node.deliver smallNetwork 20 [branchOne, branchSpend, blockOne]).mBestChain.chainWork =
        (chainTip smallNetwork chain).chainWork ∧
      (node.deliver smallNetwork 20 [blockOne, branchOne, branchSpend]).mBestChain.chainWork =
        (chainTip smallNetwork chain).chainWork) ↔
      GreatestPasses smallNetwork node 20 forkBlocks [branchOne, branchSpend, blockOne] ∧
      GreatestPasses smallNetwork node 20 forkBlocks [blockOne, branchOne, branchSpend] :=
  delivery_order_iff soundGenesis_smallNetwork node_opened workOrdered_smallNetwork rfl
    validTree_forkBlocks noneStoredOver_forkBlocks branch_first branch_last

open SmallNetwork in
/-- A block of the longer branch spends a coin of its own branch and is refused
while the other branch is active. -/
theorem branch_refused_for_coins :
    ValidTree smallNetwork node 20 forkBlocks ∧
      DeliveryOrder smallNetwork forkBlocks [branchOne, branchSpend, blockOne] ∧
      DeliveryOrder smallNetwork forkBlocks [blockOne, branchOne, branchSpend] ∧
      (node.deliver smallNetwork 20 [branchOne, branchSpend, blockOne]).mBestChain.chainWork ≠
        (node.deliver smallNetwork 20 [blockOne, branchOne, branchSpend]).mBestChain.chainWork := by
  refine ⟨validTree_forkBlocks, branch_first, branch_last, ?_⟩
  decide +kernel

end QmaskCore
