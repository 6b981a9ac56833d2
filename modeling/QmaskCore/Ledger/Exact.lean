import QmaskCore.Ledger.Runs

/-!
The coins are those of the active chain.

`chainCoins` are the coins a chain comes to, block by block from genesis. A
ledger is `Exact` when its coins are these and every block of its chain applies
in turn. Connecting and disconnecting keep it (`Exact.connect`,
`Exact.disconnect`) as long as a block that comes on top brings a coinbase id
the chain does not hold: nothing is then ever stored over a coin. `Moves.exact`
is the run lemma.
-/

namespace QmaskCore

/-- The coins of a chain, the blocks added one after the other. -/
def chainCoins (P : Params) : List Connected → CoinStore
  | [] => genesisStore P
  | c :: rest => (chainCoins P rest).afterAll (nextHeight rest) c.block.transactions

/-- Each block of a chain applies to the coins of those below it. -/
def Applied (P : Params) : List Connected → Prop
  | [] => True
  | c :: rest =>
      AppliesWith P (nextHeight rest) (chainCoins P rest) c.block c.done ∧ Applied P rest

theorem Applied.backed {P : Params} : ∀ {chain : List Connected}, Applied P chain →
    Backed P chain (chainCoins P chain) := by
  intro chain
  induction chain with
  | nil => exact fun _ => .genesis (.refl _)
  | cons c rest ih => exact fun applied => (ih applied.2).connect applied.1

theorem Applied.drop {P : Params} : ∀ {chain : List Connected}, Applied P chain →
    ∀ n, Applied P (chain.drop n) := by
  intro chain
  induction chain with
  | nil => exact fun applied n => by simpa
  | cons c rest ih =>
      intro applied n
      cases n with
      | zero => exact applied
      | succ n => exact ih applied.2 n

/-- A block brings no id a chain already holds: a transaction of it with the
hash of one of the chain is that one, and its coinbase is new. -/
structure Fresh (P : Params) (block : Block) (chain : List Connected) : Prop where
  injective : HashInjective (block.transactions ++ (madeBy P chain).map (·.1))
  coinbase : block.CoinbaseNew (madeBy P chain)

/-- A block of which no payment that goes through creates coins without spending any. -/
def Block.Lively (P : Params) (block : Block) : Prop :=
  ∀ {height V done}, Attempts P height V block done → ∀ d ∈ done, d.1.Active

theorem Params.ValueOutExact.lively {P : Params} (values : P.ValueOutExact) (block : Block) :
    block.Lively P := fun attempts => attempts.pays.active values

theorem Block.lively_of_spends {P : Params} {block : Block}
    (spends : ∀ tx ∈ block.payments, tx.inputs ≠ []) : block.Lively P :=
  fun attempts d mem => .inl (spends d.1 (attempts.part.subset (List.mem_map_of_mem mem)))

namespace Ledger

/-- The coins are exactly those of the chain. -/
structure Exact (P : Params) (L : Ledger) : Prop where
  applied : Applied P L.chain
  coins : L.coins = chainCoins P L.chain

variable {P : Params} {L : Ledger}

theorem exact_initial (P : Params) : (initial P).Exact P := ⟨trivial, rfl⟩

/-- What a block that is fresh on a chain does is taken back without a trace. -/
theorem Exact.undone (exact : L.Exact P) {block : Block}
    {done : List (Transaction × List Coin)} (lively : block.Lively P)
    (fresh : Fresh P block L.chain)
    (attempts : Attempts P (nextHeight L.chain) L.coins block done) :
    (L.coins.afterAll (nextHeight L.chain) ((block.coinbaseDone ++ done).map (·.1))).undoneAll
      (block.coinbaseDone ++ done) = L.coins := by
  have sourced : Sourced L.coins (madeBy P L.chain) := exact.coins ▸ exact.applied.backed.sourced
  exact attempts.pays.revertibleAll.undoneAll fun hit =>
    attempts.kept sourced (lively attempts) fresh.injective
      (fresh.coinbase.not_held sourced) hit

theorem Exact.connect (exact : L.Exact P) {block : Block} (lively : block.Lively P)
    (shaped : block.Shaped) (fresh : follows P L.blocks block = true → Fresh P block L.chain) :
    (L.connect P block).2.Exact P := by
  have free : L.coins.NullFree := exact.coins ▸ exact.applied.backed.nullFree
  rw [Ledger.connect]
  dsimp only
  split
  · exact exact
  · rename_i next
    have fresh := fresh (by simpa using next)
    rcases applyBlockTwoPhase_eq free shaped with ⟨applies, ran⟩ | ⟨attempts, ran⟩
    · rw [ran]
      refine ⟨⟨exact.coins ▸ applies, exact.applied⟩, ?_⟩
      rw [chainCoins, ← exact.coins]
    · rw [ran]
      refine ⟨exact.applied, Eq.trans ?_ exact.coins⟩
      exact exact.undone lively fresh attempts

/-- The tip goes, and the coins are those of the rest. `fresh` is that of the
block when it came. -/
theorem Exact.disconnect (exact : L.Exact P)
    (lively : ∀ c rest, L.chain = c :: rest → c.block.Lively P)
    (fresh : ∀ c rest, L.chain = c :: rest → Fresh P c.block rest) :
    (L.disconnect P).2.Exact P := by
  rw [Ledger.disconnect]
  split
  · exact exact
  · rename_i c rest chain
    split
    · have applied := exact.applied
      have coins := exact.coins
      rw [chain] at applied coins
      have below : ({ L with chain := rest, coins := chainCoins P rest } : Ledger).Exact P :=
        ⟨applied.2, rfl⟩
      have back := below.undone (lively c rest chain) (fresh c rest chain) applied.1.attempts
      rw [applied.1.map_fst] at back
      exact ⟨applied.2, (congrArg (CoinStore.undoneAll (c.block.coinbaseDone ++ c.done)) coins).trans
        back⟩
    · exact exact

end Ledger

/-! ### Distinct ids -/

/-- Blocks that stand on each other, down to genesis. -/
def ChainOf (P : Params) (blocks : List Block) : List Block → Prop
  | [] => True
  | block :: rest =>
      block ∈ blocks ∧ block.header.prevBlockHash = (chainTip P rest).blockHash ∧
        ChainOf P blocks rest

/-- The ids of the coinbases along a chain, genesis last. -/
def coinbaseIds (P : Params) (chain : List Block) : List Bytes32 :=
  (chain ++ [P.buildGenesisBlock]).filterMap fun block => block.coinbase?.map (·.hash)

/-- The ids of the blocks' transactions name them, and no chain the blocks form
has two coinbases with one id. -/
structure DistinctIds (P : Params) (blocks : List Block) : Prop where
  injective : HashInjective ((P.buildGenesisBlock :: blocks).flatMap (·.transactions))
  coinbases : ∀ chain, ChainOf P blocks chain → (coinbaseIds P chain).Nodup

theorem ChainOf.mem {P : Params} {blocks : List Block} : ∀ {chain : List Block},
    ChainOf P blocks chain → ∀ block ∈ chain, block ∈ blocks := by
  intro chain
  induction chain with
  | nil => simp
  | cons b rest ih =>
      rintro ⟨mem, -, below⟩ block listed
      rcases List.mem_cons.mp listed with rfl | listed
      · exact mem
      · exact ih below block listed

/-- A transaction of a chain is one of its blocks or of genesis. -/
theorem mem_madeBy {P : Params} {m : Transaction × UInt32} : ∀ {chain : List Connected},
    m ∈ madeBy P chain → (∃ c ∈ chain, m.1 ∈ c.block.transactions) ∨
      m.1 ∈ P.buildGenesisBlock.transactions := by
  intro chain
  induction chain with
  | nil =>
      intro mem
      obtain ⟨tx, listed, rfl⟩ := List.mem_map.mp mem
      exact .inr listed
  | cons c rest ih =>
      intro mem
      rcases List.mem_append.mp mem with here | below
      · obtain ⟨tx, listed, rfl⟩ := List.mem_map.mp here
        exact .inl ⟨c, List.mem_cons_self, listed⟩
      · rcases ih below with ⟨d, memD, listed⟩ | genesis
        · exact .inl ⟨d, List.mem_cons_of_mem _ memD, listed⟩
        · exact .inr genesis

/-- The only coinbase among a block's transactions is the first. -/
theorem Block.OneCoinbase.eq_coinbase {block : Block} (one : block.OneCoinbase) {tx : Transaction}
    (mem : tx ∈ block.transactions) (coinbase : tx.isCoinbase = true) :
    block.coinbase? = some tx := by
  rw [block.transactions_eq] at mem
  rcases List.mem_append.mp mem with first | payment
  · simpa using first
  · rw [one tx payment] at coinbase
    cases coinbase

/-- A block of a chain with distinct ids is fresh on what lies below it. -/
theorem DistinctIds.fresh {P : Params} {blocks : List Block} (ids : DistinctIds P blocks)
    (sound : P.SoundGenesis) {block : Block} {chain : List Connected}
    (chained : ChainOf P blocks (block :: chain.map (·.block)))
    (one : ∀ c ∈ chain, c.block.OneCoinbase) : Fresh P block chain where
  injective := by
    refine ids.injective.mono fun tx mem => ?_
    rw [List.flatMap_cons, List.mem_append]
    rcases List.mem_append.mp mem with own | made
    · exact .inr (List.mem_flatMap.mpr ⟨block, chained.1, own⟩)
    · obtain ⟨m, memM, rfl⟩ := List.mem_map.mp made
      rcases mem_madeBy memM with ⟨c, memC, listed⟩ | genesis
      · exact .inr (List.mem_flatMap.mpr
          ⟨c.block, chained.2.2.mem _ (List.mem_map_of_mem memC), listed⟩)
      · exact .inl genesis
  coinbase := by
    intro tx coinbase m mem same
    have isCoinbase : tx.isCoinbase = true := block.isCoinbase_of_mem coinbase
    have own : tx ∈ block.transactions := by
      rw [block.transactions_eq, coinbase]
      simp
    have distinct := ids.coinbases _ chained
    rw [coinbaseIds, List.cons_append, List.filterMap_cons_some (by rw [coinbase]; rfl),
      List.nodup_cons] at distinct
    -- The transaction below is the coinbase of a block below.
    have below : ∃ b ∈ chain.map (·.block) ++ [P.buildGenesisBlock], b.OneCoinbase ∧
        m.1 ∈ b.transactions := by
      rcases mem_madeBy mem with ⟨c, memC, listed⟩ | genesis
      · exact ⟨c.block, List.mem_append_left _ (List.mem_map_of_mem memC), one c memC, listed⟩
      · exact ⟨_, by simp, by simp [Block.OneCoinbase, sound.single], genesis⟩
    obtain ⟨b, memB, oneB, listed⟩ := below
    have inAll : m.1 ∈ (P.buildGenesisBlock :: blocks).flatMap (·.transactions) := by
      refine List.mem_flatMap.mpr ⟨b, ?_, listed⟩
      rcases List.mem_append.mp memB with above | genesis
      · exact List.mem_cons_of_mem _ (chained.2.2.mem b above)
      · exact List.mem_cons.mpr (.inl (List.mem_singleton.mp genesis))
    have ownAll : tx ∈ (P.buildGenesisBlock :: blocks).flatMap (·.transactions) :=
      List.mem_flatMap.mpr ⟨block, List.mem_cons_of_mem _ chained.1, own⟩
    have equal : m.1 = tx := ids.injective m.1 inAll tx ownAll same
    rw [equal] at listed
    refine distinct.1 (List.mem_filterMap.mpr ⟨b, memB, ?_⟩)
    rw [oneB.eq_coinbase listed isCoinbase]
    rfl

/-! ### Over the small steps -/

namespace Ledger

variable {P : Params} {given direct : Block → Prop} {L L' : Ledger} {blocks : List Block}

theorem Linked.chainOf (valid : L.Valid P) (holds : L.Holds P given direct)
    (came : ∀ b, given b ∨ direct b → b ∈ blocks) : ∀ {chain : List Block},
    Linked P L.tree chain → ChainOf P blocks chain := by
  intro chain
  induction chain with
  | nil => exact fun _ => trivial
  | cons block rest ih =>
      rintro ⟨stored, prev, below⟩
      refine ⟨?_, prev, ih below⟩
      rcases holds _ _ stored with genesis | other
      · -- A block above genesis is not the genesis block: its height is not zero.
        have height := valid.height_of_tree stored
        have zero : block = P.buildGenesisBlock := genesis
        rw [height_topBlock, topBlock, zero, valid.sound.header.2] at height
        cases height
      · exact came block other

theorem Exact.one (exact : L.Exact P) : ∀ c ∈ L.chain, c.block.OneCoinbase := by
  have each : ∀ {chain : List Connected}, Applied P chain →
      ∀ c ∈ chain, c.block.OneCoinbase := by
    intro chain
    induction chain with
    | nil => simp
    | cons d rest ih =>
        intro applied c mem
        rcases List.mem_cons.mp mem with rfl | mem
        · exact applied.1.one
        · exact ih applied.2 c mem
  exact each exact.applied

/-- Every small step keeps the coins those of the chain. -/
theorem Move.exact (move : Move P given direct L L') (values : P.ValueOutExact)
    (ids : DistinctIds P blocks) (came : ∀ b, given b ∨ direct b → b ∈ blocks)
    (shaped : ∀ b, direct b → b.Shaped) (valid : L.Valid P)
    (holds : L.Holds P given direct) (exact : L.Exact P) : L'.Exact P := by
  have chained := valid.linked.chainOf valid holds came
  have onTop {block : Block} (known : given block ∨ direct block)
      (next : follows P L.blocks block = true) : Fresh P block L.chain :=
    ids.fresh valid.sound ⟨came block known, (height_of_follows next).2, chained⟩ exact.one
  cases move with
  | store _ _ _ _ => exact ⟨exact.applied, exact.coins⟩
  | connect stored =>
      refine exact.connect (values.lively _) (valid.shape stored) fun next => ?_
      rcases holds _ _ stored with genesis | known
      · have height := (height_of_follows next).1
        rw [genesis, valid.sound.header.2] at height
        cases height
      · exact onTop known next
  | connectDirect mem _ =>
      exact exact.connect (values.lively _) (shaped _ mem) (onTop (.inr mem))
  | disconnect =>
      refine exact.disconnect (fun _ _ _ => values.lively _) fun c rest chain => ?_
      have one := exact.one
      rw [Ledger.blocks, chain] at chained
      rw [chain] at one
      exact ids.fresh valid.sound chained fun d mem => one d (List.mem_cons_of_mem _ mem)

/-- Any run of small steps from a new ledger keeps the coins those of the chain. -/
theorem Moves.exact (moves : Moves P given direct (initial P) L) (values : P.ValueOutExact)
    (ids : DistinctIds P blocks) (came : ∀ b, given b ∨ direct b → b ∈ blocks)
    (shaped : ∀ b, direct b → b.Shaped) (valid : (initial P).Valid P) : L.Exact P := by
  have all : L.Valid P ∧ L.Holds P given direct ∧ L.Exact P :=
    moves.keeps (p := fun L => L.Valid P ∧ L.Holds P given direct ∧ L.Exact P)
      (fun move ⟨valid, holds, exact⟩ =>
        ⟨move.valid shaped valid, move.holds valid holds,
          move.exact values ids came shaped valid holds exact⟩)
      ⟨valid, holds_initial, exact_initial P⟩
  exact all.2.2

end Ledger

end QmaskCore
