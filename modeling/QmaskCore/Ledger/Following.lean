import QmaskCore.Ledger.ActiveChain
import QmaskCore.Ledger.Headers
import QmaskCore.Ledger.OwnBranch

/-!
A node that goes up along the chain of another.

A chain is `Solid` when each of its blocks passes everything `AcceptBlock` asks,
at any time the block is due, from a node that has the chain below it, and adds
to the work. The active chain of a node is solid when ids are distinct among its
blocks (`Ledger.solid`). A ledger is `Bare` on a chain when it holds that chain
and no block beside it; the next block of a solid chain is put on top of it
(`Bare.accept`). So a node that gets the blocks of a `Route` from the bottom up
goes up with them (`ChainState.UpTo.accept`).
-/

namespace QmaskCore

/-- The clock is not too far behind the time of a block. -/
def Due (now : UInt64) (block : Block) : Prop := ¬ now + 7200 < block.header.timestamp

/-- Each block adds to the work of the chain it stands on. -/
def Grows (P : Params) : List Block → Prop
  | [] => True
  | block :: blocks =>
      0 < P.compareWork (topBlock P (block :: blocks)).work (topBlock P blocks).work ∧
        Grows P blocks

/-- Everything that is asked of a block on the chain below it. -/
structure Passes (P : Params) (c : Connected) (rest : List Connected) : Prop where
  follows : follows P (rest.map (·.block)) c.block = true
  applies : ∃ done, AppliesWith P (nextHeight rest) (chainCoins P rest) c.block done
  validates : ∀ now, Due now c.block →
    BlockValidation.validateBlock P now (chainCoins P rest).view (nextHeight rest) c.block = .ok ()
  heavier : 0 < P.compareWork (topBlock P ((c :: rest).map (·.block))).work
    (topBlock P (rest.map (·.block))).work

/-- At its own time a block is due. -/
theorem due_timestamp (block : Block) : Due (block.header.timestamp - 7200) block := by
  rw [Due, UInt64.sub_add_cancel]
  exact UInt64.lt_irrefl _

theorem Passes.readable {P : Params} {c : Connected} {rest : List Connected}
    (passes : Passes P c rest) : c.block.Readable P :=
  (BlockValidation.validateBlock_ok (passes.validates _ (due_timestamp c.block))).size

def Solid (P : Params) : List Connected → Prop
  | [] => True
  | c :: rest => Passes P c rest ∧ Solid P rest

theorem Solid.drop {P : Params} : ∀ {chain : List Connected}, Solid P chain →
    ∀ n, Solid P (chain.drop n) := by
  intro chain
  induction chain with
  | nil => exact fun solid n => by simpa
  | cons c rest ih =>
      intro solid n
      cases n with
      | zero => exact solid
      | succ n => exact ih solid.2 n

/-- Of the checks of a block without its chain only one looks at the clock. -/
theorem BlockValidation.checkBlock_of_due {P : Params} {now now' : UInt64} {block : Block}
    (passed : checkBlock P now block = .ok ()) (due : Due now' block) :
    checkBlock P now' block = .ok () := by
  simp only [checkBlock, checkBlockHeader, Checks.bind_eq_ok, Checks.rejectIf_eq_ok,
    Checks.exists_unit_iff] at passed ⊢
  obtain ⟨⟨version, early, zero, -, merkle, work⟩, rest⟩ := passed
  exact ⟨⟨version, early, zero, due, merkle, work⟩, rest⟩

namespace Ledger

variable {P : Params} {L : Ledger}

/-! ### The chain of a node -/

/-- The active chain of a node, and any part of it, is solid. -/
theorem solid {given : Block → Prop} (start : (initial P).Valid P)
    (moves : Moves P given (fun _ => False) (initial P) L) (ids : DistinctAmong L.Stores) :
    ∀ {chain : List Connected}, Linked P L.tree (chain.map (·.block)) → Applied P chain →
      Followed P (chain.map (·.block)) → Grows P (chain.map (·.block)) → Solid P chain := by
  intro chain
  induction chain with
  | nil => exact fun _ _ _ _ => trivial
  | cons c rest ih =>
      intro linked applied followed grows
      refine ⟨⟨followed.1, ⟨_, applied.1⟩, fun now due => ?_, grows.1⟩,
        ih linked.2.2 applied.2 followed.2 grows.2⟩
      have valid := Moves.valid moves (fun _ => nofun) start
      have above : c.block.getHash P.sha256 ≠ P.genesisHash := by
        intro genesis
        have zero := (valid.height_eq_zero linked.1).mpr genesis
        rw [height_topBlock] at zero
        cases zero
      obtain ⟨before, L₀, parent, -, -, -, -, admitted, -⟩ := Moves.admitted start moves linked.1 above
      have own := own_rules start moves ids linked applied
      simp only [topBlock, admits, BlockValidation.validateBlock, Bool.and_eq_true,
        decide_eq_true_eq, Checks.bind_eq_ok, Checks.exists_unit_iff] at admitted
      simp only [BlockValidation.validateBlock, Checks.bind_eq_ok, Checks.exists_unit_iff]
      exact ⟨BlockValidation.checkBlock_of_due admitted.2.1 due, admitted.2.2.1, own⟩

/-- A stored block that follows and applies is connected. -/
theorem connect_applies (valid : L.Valid P) {block : Block}
    {done : List (Transaction × List Coin)} {st : StoredBlock}
    (stored : L.tree (block.getHash P.sha256) = some st) (same : st.block = block)
    (next : follows P L.blocks block = true)
    (applies : AppliesWith P (nextHeight L.chain) L.coins block done) :
    (L.connect P block).1 = true ∧ (L.connect P block).2.Valid P ∧
      (L.connect P block).2.tree = L.tree ∧ (L.connect P block).2.blocks = block :: L.blocks ∧
      (L.connect P block).2.coins = L.coins.afterAll (nextHeight L.chain) block.transactions := by
  subst same
  have goes : ¬ follows P L.blocks st.block = false := by
    rw [next]
    simp
  refine ⟨?_, valid.connect (valid.agrees stored) (valid.shape stored),
    valid.tree_connect stored, ?_, ?_⟩
  · rw [connect, if_neg goes, applies.apply]
  · rw [connect, if_neg goes, applies.apply]
    rfl
  · rw [connect, if_neg goes, applies.apply]

/-! ### A chain and nothing beside -/

/-- The ledger of a chain, with no other block in its tree. -/
structure Bare (P : Params) (chain : List Connected) (L : Ledger) : Prop where
  valid : L.Valid P
  blocks : L.blocks = chain.map (·.block)
  coins : L.coins = chainCoins P chain
  only : ∀ {blockHash st}, L.tree blockHash = some st → ∃ n, st = topBlock P (L.blocks.drop n)

theorem bare_initial (valid : (initial P).Valid P) : (initial P).Bare P [] where
  valid := valid
  blocks := rfl
  coins := rfl
  only := by
    intro blockHash st stored
    dsimp only [initial] at stored
    split at stored
    · cases stored
      exact ⟨0, rfl⟩
    · cases stored

namespace Bare

variable {chain rest : List Connected} {c : Connected}

theorem length (bare : L.Bare P chain) : L.chain.length = chain.length := by
  rw [← L.length_blocks, bare.blocks, List.length_map]

/-- What is stored lies no higher than the tip. -/
theorem height_le (bare : L.Bare P chain) {blockHash : Bytes32} {st : StoredBlock}
    (stored : L.tree blockHash = some st) : st.height ≤ chain.length := by
  obtain ⟨n, rfl⟩ := bare.only stored
  rw [height_topBlock, List.length_drop, bare.blocks, List.length_map]
  omega

theorem admits (bare : L.Bare P rest) (passes : Passes P c rest) {now : UInt64}
    (due : Due now c.block) : L.admits P now c.block (topBlock P L.blocks) = true := by
  have next := passes.follows
  have height := (height_of_follows next).1
  have work : P.checkProofOfWork (c.block.getHash P.sha256) c.block.header.bits = true := by
    simp only [QmaskCore.follows, Bool.and_eq_true] at next
    exact next.2
  have low : (L.lastCheckpointHeight P).any (rest.length + 1 < ·) = false := by
    cases checkpoint : L.lastCheckpointHeight P with
    | none => rfl
    | some k =>
        obtain ⟨_, -, found⟩ := List.exists_of_findSome?_eq_some checkpoint
        obtain ⟨st, stored, rfl⟩ := Option.map_eq_some_iff.mp found
        have le := bare.height_le stored
        simp only [Option.any_some, decide_eq_false_iff_not]
        omega
  have valid := passes.validates now due
  rw [nextHeight, ← bare.coins] at valid
  rw [List.length_map] at height
  simp only [Ledger.admits, height_topBlock, bare.blocks, List.length_map]
  rw [height, work, low, valid]
  simp

/-- The next block is put on top, and nothing else changes. -/
theorem accept (bare : L.Bare P rest) (passes : Passes P c rest) {now : UInt64}
    (due : Due now c.block) (new : L.tree (c.block.getHash P.sha256) = none) :
    (L.accept P now c.block).1 = true ∧ (L.accept P now c.block).2.Bare P (c :: rest) := by
  have next : QmaskCore.follows P L.blocks c.block = true := bare.blocks ▸ passes.follows
  obtain ⟨-, prev⟩ := height_of_follows next
  have found : L.tree c.block.header.prevBlockHash = some (topBlock P L.blocks) := by
    rw [prev]
    exact bare.valid.tree_tip
  have admitted := bare.admits passes due
  have heavier : 0 < P.compareWork (P.addChainWork (L.tip P).chainWork c.block.header.bits)
      (L.tip P).chainWork := by
    rw [tip, bare.blocks]
    exact passes.heavier
  obtain ⟨done, applies⟩ := passes.applies
  have height : nextHeight L.chain = nextHeight rest := by rw [nextHeight, nextHeight, bare.length]
  have valid₁ := bare.valid.store new found (height_of_admits admitted)
    (rules_of_admits admitted).shaped
  have here : (L.put P (childOf P (topBlock P L.blocks) c.block)).tree (c.block.getHash P.sha256) =
      some (childOf P (topBlock P L.blocks) c.block) := by
    rw [tree_put]
    exact if_pos rfl
  have applies : AppliesWith P (nextHeight L.chain) L.coins c.block done := by
    rwa [height, bare.coins]
  obtain ⟨answer, valid', tree, blocks, coins⟩ :=
    connect_applies valid₁ here rfl next applies
  rw [accept_top bare.valid new prev admitted heavier]
  refine ⟨answer, valid', ?_, ?_, ?_⟩
  · rw [blocks, blocks_put, bare.blocks, List.map_cons]
  · rw [coins, chainCoins, ← height, ← bare.coins]
    rfl
  · intro blockHash st stored
    rw [tree, tree_put] at stored
    rw [blocks, blocks_put]
    split at stored
    · cases stored
      exact ⟨0, by simp [childOf, topBlock]⟩
    · obtain ⟨n, rfl⟩ := bare.only stored
      exact ⟨n + 1, rfl⟩

end Bare

end Ledger

/-! ### A chain by height -/

/-- The blocks of a chain up to a height. -/
def lowest {α : Type} (height : Nat) (chain : List α) : List α :=
  chain.drop (chain.length - height)

theorem length_lowest {α : Type} {height : Nat} {chain : List α} (le : height ≤ chain.length) :
    (lowest height chain).length = height := by
  rw [lowest, List.length_drop]
  omega

@[simp] theorem lowest_zero {α : Type} (chain : List α) : lowest 0 chain = [] := by
  simp [lowest]

@[simp] theorem lowest_length {α : Type} (chain : List α) : lowest chain.length chain = chain := by
  simp [lowest]

theorem lowest_succ {α : Type} {height : Nat} {chain : List α} (inside : height < chain.length) :
    ∃ c, lowest (height + 1) chain = c :: lowest height chain ∧ chain.reverse[height]? = some c := by
  have below : chain.length - (height + 1) < chain.length := by omega
  refine ⟨chain[chain.length - (height + 1)], ?_, ?_⟩
  · rw [lowest, List.drop_eq_getElem_cons below, lowest,
      show chain.length - (height + 1) + 1 = chain.length - height by omega]
  · rw [List.getElem?_reverse inside, List.getElem?_eq_getElem (by omega)]
    congr 2
    omega

/-- The hash of the block of a chain at a height, genesis at the bottom. -/
def hashOf (P : Params) (chain : List Connected) (height : Nat) : Bytes32 :=
  (chainTip P ((lowest height chain).map (·.block))).blockHash

/-- A solid chain no two blocks of which have one hash. -/
structure Route (P : Params) (chain : List Connected) : Prop where
  solid : Solid P chain
  apart : ∀ {i j}, i ≤ chain.length → j ≤ chain.length → hashOf P chain i = hashOf P chain j → i = j

/-- The block of a route on top of those up to a height. -/
structure Above (P : Params) (chain : List Connected) (height : Nat) (c : Connected) : Prop where
  top : lowest (height + 1) chain = c :: lowest height chain
  passes : Passes P c (lowest height chain)
  level : c.block.header.height.toNat = height + 1
  hash : c.block.getHash P.sha256 = hashOf P chain (height + 1)
  prev : c.block.header.prevBlockHash = hashOf P chain height

theorem Route.above {P : Params} {chain : List Connected} (route : Route P chain) {height : Nat}
    {c : Connected} (at' : chain.reverse[height]? = some c) : Above P chain height c := by
  have inside : height < chain.length := by
    have listed := (List.getElem?_eq_some_iff.mp at').1
    rwa [List.length_reverse] at listed
  obtain ⟨d, top, there⟩ := lowest_succ inside
  obtain rfl : d = c := Option.some.inj (there.symm.trans at')
  have solid : Solid P (d :: lowest height chain) := by
    rw [← top, lowest]
    exact route.solid.drop _
  have next := height_of_follows solid.1.follows
  rw [List.length_map, length_lowest inside.le] at next
  refine ⟨top, solid.1, next.1, ?_, next.2⟩
  rw [hashOf, top]
  rfl

namespace Ledger

variable {P : Params} {L : Ledger}

/-- Of a node that stands on part of a chain, part of its chain. -/
theorem Bare.drop_blocks {chain : List Connected} {height : Nat} (le : height ≤ chain.length)
    (bare : L.Bare P (lowest height chain)) (n : Nat) :
    L.blocks.drop n = (lowest (height - n) chain).map (·.block) := by
  rw [bare.blocks, ← List.map_drop, lowest, lowest, List.drop_drop]
  by_cases inside : n ≤ height
  · rw [show chain.length - height + n = chain.length - (height - n) by omega]
  · rw [List.drop_eq_nil_of_le (by omega), List.drop_eq_nil_of_le (by omega)]

/-- A node that stands on part of a route holds the blocks up to there. -/
theorem Bare.tree_isSome_iff {chain : List Connected} {height : Nat} (le : height ≤ chain.length)
    (bare : L.Bare P (lowest height chain)) (blockHash : Bytes32) :
    (L.tree blockHash).isSome = true ↔ ∃ h ≤ height, blockHash = hashOf P chain h := by
  constructor
  · intro known
    obtain ⟨st, stored⟩ := Option.isSome_iff_exists.mp known
    obtain ⟨n, same⟩ := bare.only stored
    have keyed := (bare.valid.planted stored).keyed
    rw [same, bare.drop_blocks le] at keyed
    exact ⟨height - n, Nat.sub_le _ _, keyed.symm⟩
  · rintro ⟨h, below, rfl⟩
    have found := (bare.valid.linked.drop (height - h)).top bare.valid.genesisHash bare.valid.genesis
    rw [bare.drop_blocks le, show height - (height - h) = h by omega] at found
    rw [hashOf, found]
    rfl

/-- The chain of a node is a route for others. -/
theorem route {given : Block → Prop} (start : (initial P).Valid P)
    (moves : Moves P given (fun _ => False) (initial P) L) (ids : DistinctAmong L.Stores)
    (grows : Grows P L.blocks) : Route P L.chain where
  solid := by
    have valid := Moves.valid moves (fun _ => nofun) start
    have followed : Followed P L.blocks :=
      moves.keeps (p := fun L => Followed P L.blocks) Move.followed trivial
    exact solid start moves ids valid.linked (Moves.exact_of_distinct start moves ids).applied
      followed grows
  apart := by
    have valid := Moves.valid moves (fun _ => nofun) start
    intro i j le le' same
    have at' (h : Nat) (le : h ≤ L.chain.length) :
        ∃ st, L.tree (hashOf P L.chain h) = some st ∧ st.height = h := by
      rw [hashOf, lowest, List.map_drop]
      refine ⟨_, (valid.linked.drop _).top valid.genesisHash valid.genesis, ?_⟩
      rw [height_topBlock, List.length_drop, List.length_map]
      omega
    obtain ⟨st, stored, level⟩ := at' i le
    obtain ⟨st', stored', level'⟩ := at' j le'
    rw [same] at stored
    rw [← level, ← level', Option.some.inj (stored.symm.trans stored')]

end Ledger

/-! ### A node on its way -/

/-- A node that has the blocks of a chain up to a height, and no other. -/
def ChainState.UpTo (P : Params) (chain : List Connected) (height : Nat) (s : ChainState) : Prop :=
  ∃ L, Represents P s L ∧ L.Bare P (lowest height chain)

namespace ChainState.UpTo

variable {P : Params} {chain : List Connected} {height : Nat} {s : ChainState} {c : Connected}

theorem mBestChain (upTo : s.UpTo P chain height) (le : height ≤ chain.length) :
    s.mBestChain.height = height := by
  obtain ⟨L, rep, bare⟩ := upTo
  rw [rep.height, bare.length, length_lowest le]

theorem hasBlock_iff (upTo : s.UpTo P chain height) (le : height ≤ chain.length)
    (blockHash : Bytes32) :
    s.mBlockData.hasBlock blockHash = true ↔ ∃ h ≤ height, blockHash = hashOf P chain h := by
  obtain ⟨L, rep, bare⟩ := upTo
  rw [rep.hasBlock_eq]
  exact bare.tree_isSome_iff le blockHash

/-- Of a route a node has the hashes up to its height. -/
theorem hasBlock_hashOf (upTo : s.UpTo P chain height) (route : Route P chain)
    (le : height ≤ chain.length) {h : Nat} (within : h ≤ chain.length) :
    s.mBlockData.hasBlock (hashOf P chain h) = true ↔ h ≤ height := by
  rw [upTo.hasBlock_iff le]
  constructor
  · rintro ⟨m, below, same⟩
    exact route.apart within (below.trans le) same ▸ below
  · exact fun below => ⟨h, below, rfl⟩

/-- The step lemma: the block above takes the node one up. -/
theorem accept (upTo : s.UpTo P chain height) (route : Route P chain)
    (at' : chain.reverse[height]? = some c) {now : UInt64} (due : Due now c.block) :
    (s.acceptBlock P now c.block).1 = true ∧
      (s.acceptBlock P now c.block).2.UpTo P chain (height + 1) := by
  obtain ⟨L, rep, bare⟩ := upTo
  have above := route.above at'
  have inside : height < chain.length := by
    have listed := (List.getElem?_eq_some_iff.mp at').1
    rwa [List.length_reverse] at listed
  have new : L.tree (c.block.getHash P.sha256) = none := by
    rw [← Option.not_isSome_iff_eq_none, above.hash, bare.tree_isSome_iff inside.le]
    rintro ⟨h, below, same⟩
    have equal := route.apart (Nat.succ_le_of_lt inside) (below.trans inside.le) same
    omega
  have matched : Matches P (s.acceptBlock P now c.block) (L.accept P now c.block) :=
    rep.acceptBlock_sim
  obtain ⟨answer, bare'⟩ := bare.accept above.passes due new
  rw [matched.answer]
  exact ⟨answer, _, matched.state, above.top ▸ bare'⟩

theorem activeChain_eq (upTo : s.UpTo P chain height) :
    s.activeChain P = some ((lowest height chain).map (·.block)) := by
  obtain ⟨L, rep, bare⟩ := upTo
  rw [rep.activeChain_eq, bare.blocks]

theorem coins_eq (upTo : s.UpTo P chain height) :
    s.mUTXOSet.toCoinStore = chainCoins P (lowest height chain) := by
  obtain ⟨L, rep, bare⟩ := upTo
  rw [rep.coins, bare.coins]

end ChainState.UpTo

/-- A node that only got blocks retains no others, but for genesis. -/
theorem ChainState.delivered_of_retains {P : Params} {s₀ : ChainState}
    {deliveries : List (UInt64 × Block)} (sound : P.SoundGenesis)
    (opened : ChainState.initializeState P (.ofDisk .empty) = .ok s₀) {block : Block}
    (stored : (s₀.acceptAll P deliveries).Retains P block) :
    block = P.buildGenesisBlock ∨ block ∈ deliveries.map (·.2) := by
  obtain ⟨L, rep, moves⟩ := accepted deliveries sound opened
  have start := (represents_initial sound opened).valid
  have holds := Ledger.Moves.holds moves (fun _ => nofun) start Ledger.holds_initial
  obtain ⟨blockHash, st, found, rfl⟩ := rep.retains_iff.mp stored
  rcases holds _ _ found with genesis | ⟨now, given⟩ | none
  · exact .inl genesis
  · exact .inr (List.mem_map_of_mem given)
  · exact none.elim

/-- A node with a chain. -/
def ChainState.On (P : Params) (chain : List Connected) (s : ChainState) : Prop :=
  ∃ L, Represents P s L ∧ L.chain = chain

/-- The active chain of a node is a route, and the coins of the node are those of it. -/
theorem ChainState.route {P : Params} {s₀ : ChainState} {deliveries : List (UInt64 × Block)}
    {blocks : List Block} (sound : P.SoundGenesis)
    (opened : ChainState.initializeState P (.ofDisk .empty) = .ok s₀)
    (ids : DistinctAmong ((s₀.acceptAll P deliveries).Retains P))
    (active : (s₀.acceptAll P deliveries).activeChain P = some blocks) (grows : Grows P blocks) :
    ∃ chain, blocks = chain.map (·.block) ∧ Route P chain ∧
      (s₀.acceptAll P deliveries).On P chain ∧
      (s₀.acceptAll P deliveries).mUTXOSet.toCoinStore = chainCoins P chain := by
  obtain ⟨L, rep, moves⟩ := accepted deliveries sound opened
  have start := (represents_initial sound opened).valid
  have ids : DistinctAmong L.Stores := ids.mono fun b stored => rep.retains_iff.mpr stored
  rw [rep.activeChain_eq] at active
  obtain rfl := Option.some.inj active
  refine ⟨L.chain, rfl, Ledger.route start moves ids grows, ⟨L, rep, rfl⟩, ?_⟩
  rw [rep.coins, (Ledger.Moves.exact_of_distinct start moves ids).coins]

theorem ChainState.upTo_initial {P : Params} {s₀ : ChainState} (sound : P.SoundGenesis)
    (opened : ChainState.initializeState P (.ofDisk .empty) = .ok s₀) (chain : List Connected) :
    s₀.UpTo P chain 0 := by
  have rep := represents_initial sound opened
  exact ⟨_, rep, by rw [lowest_zero]; exact Ledger.bare_initial rep.valid⟩

end QmaskCore
