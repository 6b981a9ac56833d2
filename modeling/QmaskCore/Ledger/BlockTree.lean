import QmaskCore.Ledger.ActiveChain
import QmaskCore.Ledger.Overwrites

/-!
Trees of valid blocks.

`ValidTree` is a set of blocks each of which is valid in the state its own
ancestors come to, which `connectAll` builds on a node of its own. On a ledger
whose coins are exact such a block connects wherever its ancestors are the chain
(`Exact.fits`), and when none of the blocks stores over an unspent coin the coins
of a ledger that has been delivered some of them stay exact (`Hears.exact`).
-/

namespace QmaskCore

namespace ChainState

/-- `ConnectBlock` for the blocks of a chain, which lists them tip first. -/
def connectAll (P : Params) (s : ChainState) : List Block → Option ChainState
  | [] => some s
  | block :: below =>
      match s.connectAll P below with
      | none => none
      | some s =>
          match s.connectBlock P block with
          | (true, s) => some s
          | (false, _) => none

/-- The block passes `ValidateBlock` on the coins of the active chain. -/
def Passes (P : Params) (s : ChainState) (now : UInt64) (block : Block) : Prop :=
  BlockValidation.validateBlock P now s.mUTXOSet.view block.header.height block = .ok ()

instance (P : Params) (s : ChainState) (now : UInt64) (block : Block) :
    Decidable (s.Passes P now block) :=
  inferInstanceAs (Decidable (_ = _))

end ChainState

/-- On a new node that has connected the block's own ancestors, the block passes
`ValidateBlock` and `ConnectBlock` connects it. -/
def OwnValid (P : Params) (s₀ : ChainState) (now : UInt64) (below : List Block) (block : Block) :
    Prop :=
  ∃ s, s₀.connectAll P below = some s ∧ s.Passes P now block ∧ (s.connectBlock P block).1 = true

/-- Blocks, no two and none with genesis of one hash, each with its ancestors
among them and valid in the state these come to. -/
structure ValidTree (P : Params) (s₀ : ChainState) (now : UInt64) (blocks : List Block) : Prop where
  hashes : ((P.buildGenesisBlock :: blocks).map (·.getHash P.sha256)).Nodup
  valid : ∀ block ∈ blocks, ∃ below, ChainOf P blocks (block :: below) ∧
    OwnValid P s₀ now below block

/-- No block stores an output over a coin that is unspent after its own ancestors. -/
def NoneStoredOver (P : Params) (s₀ : ChainState) (blocks : List Block) : Prop :=
  ∀ block below s, ChainOf P blocks (block :: below) → s₀.connectAll P below = some s →
    ∀ o, clobbers o block.transactions = true → s.getCoin o = none

/-! ### Trees of blocks -/

namespace ValidTree

variable {P : Params} {s₀ : ChainState} {now : UInt64} {blocks : List Block}

theorem hash_injective (tree : ValidTree P s₀ now blocks) {b b' : Block}
    (mem : b ∈ P.buildGenesisBlock :: blocks) (mem' : b' ∈ P.buildGenesisBlock :: blocks)
    (same : b.getHash P.sha256 = b'.getHash P.sha256) : b = b' :=
  List.inj_on_of_nodup_map tree.hashes mem mem' same

theorem hash_ne_genesis (tree : ValidTree P s₀ now blocks) {b : Block} (mem : b ∈ blocks) :
    b.getHash P.sha256 ≠ P.buildGenesisBlock.getHash P.sha256 := by
  intro same
  have distinct := tree.hashes
  rw [List.map_cons, List.nodup_cons] at distinct
  exact distinct.1 (List.mem_map.mpr ⟨b, mem, same⟩)

/-- The hash of its tip tells a chain of the tree. -/
theorem eq_of_top (tree : ValidTree P s₀ now blocks) : ∀ {chain chain' : List Block},
    ChainOf P blocks chain → ChainOf P blocks chain' →
    (chainTip P chain).blockHash = (chainTip P chain').blockHash → chain = chain' := by
  intro chain
  induction chain with
  | nil =>
      intro chain' _ chained' same
      cases chain' with
      | nil => rfl
      | cons b' below' => exact absurd same.symm (tree.hash_ne_genesis chained'.1)
  | cons b below ih =>
      rintro chain' ⟨mem, prev, chained⟩ chained' same
      cases chain' with
      | nil => exact absurd same (tree.hash_ne_genesis mem)
      | cons b' below' =>
          obtain ⟨mem', prev', chained'⟩ := chained'
          obtain rfl : b = b' := tree.hash_injective (List.mem_cons_of_mem _ mem)
            (List.mem_cons_of_mem _ mem') same
          rw [ih chained chained' (prev.symm.trans prev')]

/-- The ancestors a block is valid on are those of any chain it tops. -/
theorem valid_on (tree : ValidTree P s₀ now blocks) {block : Block} {below : List Block}
    (chained : ChainOf P blocks (block :: below)) : OwnValid P s₀ now below block := by
  obtain ⟨own, chained', valid⟩ := tree.valid block chained.1
  obtain rfl := tree.eq_of_top chained.2.2 chained'.2.2 (chained.2.1.symm.trans chained'.2.1)
  exact valid

theorem shaped (tree : ValidTree P s₀ now blocks) {block : Block} (mem : block ∈ blocks) :
    block.Shaped := by
  obtain ⟨_, -, _, -, passes, -⟩ := tree.valid block mem
  exact (BlockValidation.validateBlock_ok passes).shaped

end ValidTree

/-! ### In the ledger -/

namespace Ledger

variable {P : Params} {s₀ : ChainState} {now : UInt64} {blocks : List Block} {L L' : Ledger}

/-- The coins that are exact are told by the blocks. -/
theorem Exact.coins_eq (exact : L.Exact P) (exact' : L'.Exact P) (sound : P.SoundGenesis)
    (same : L'.blocks = L.blocks) : L'.coins = L.coins := by
  have store := chainStore_eq sound exact.applied
  have store' := chainStore_eq sound exact'.applied
  change chainStore P L'.blocks = _ at store'
  rw [same] at store'
  rw [exact.coins, exact'.coins]
  exact Option.some.inj (store'.symm.trans store)

/-- The ledger of the node that connects a chain block by block. -/
theorem exists_of_connectAll (sound : P.SoundGenesis)
    (opened : ChainState.initializeState P (.ofDisk .empty) = .ok s₀)
    (tree : ValidTree P s₀ now blocks) : ∀ {below : List Block} {s : ChainState},
    ChainOf P blocks below → s₀.connectAll P below = some s →
    ∃ L, Represents P s L ∧ L.blocks = below ∧ L.Exact P ∧
      ∀ blockHash st, L.tree blockHash = some st → st.block ∈ P.buildGenesisBlock :: blocks := by
  intro below
  induction below with
  | nil =>
      intro s _ ran
      cases ran
      refine ⟨initial P, represents_initial sound opened, rfl, exact_initial P, ?_⟩
      intro blockHash st stored
      dsimp only [initial] at stored
      split at stored
      · cases stored
        exact List.mem_cons_self
      · cases stored
  | cons block below ih =>
      rintro s ⟨mem, -, chained⟩ ran
      rw [ChainState.connectAll] at ran
      cases before : s₀.connectAll P below with
      | none => simp [before] at ran
      | some s₁ =>
          rw [before] at ran
          dsimp only at ran
          obtain ⟨L, rep, rfl, exact, holds⟩ := ih chained before
          have agrees : L.Agrees P block := by
            intro st stored
            have keyed := (rep.valid.planted stored).keyed
            rw [tree.hash_injective (holds _ _ stored) (List.mem_cons_of_mem _ mem) keyed]
          have shape := tree.shaped mem
          obtain ⟨ok, s', L', ranS, ranL, rep'⟩ := (rep.connectBlock_sim agrees shape).split
          rw [ranS] at ran
          cases ok with
          | false => cases ran
          | true =>
              cases ran
              obtain ⟨next, applies, after⟩ := connect_eq_true rep.valid shape (by rw [ranL])
              rw [ranL] at after
              dsimp only at after
              subst after
              refine ⟨_, rep', rfl, ⟨⟨exact.coins ▸ applies, exact.applied⟩, ?_⟩, ?_⟩
              · dsimp only
                rw [chainCoins, ← exact.coins]
              · intro blockHash st stored
                rw [tree_put] at stored
                split at stored
                · cases stored
                  exact List.mem_cons_of_mem _ mem
                · exact holds blockHash st stored

/-- The block can be connected on top of the chain. -/
structure Fits (P : Params) (L : Ledger) (block : Block) : Prop where
  next : follows P L.blocks block = true
  applies : AppliesWith P (nextHeight L.chain) L.coins block
    (block.paid P (nextHeight L.chain) L.coins)

/-- A block that is valid on its own ancestors fits wherever these are the chain
and the coins are exact. -/
theorem Exact.fits (exact : L.Exact P) (sound : P.SoundGenesis)
    (opened : ChainState.initializeState P (.ofDisk .empty) = .ok s₀)
    (tree : ValidTree P s₀ now blocks) {block : Block}
    (chained : ChainOf P blocks (block :: L.blocks)) : L.Fits P block := by
  obtain ⟨s, ran, -, connected⟩ := tree.valid_on chained
  obtain ⟨L', rep, same, exact', holds⟩ := exists_of_connectAll sound opened tree chained.2.2 ran
  have agrees : L'.Agrees P block := by
    intro st stored
    have keyed := (rep.valid.planted stored).keyed
    rw [tree.hash_injective (holds _ _ stored) (List.mem_cons_of_mem _ chained.1) keyed]
  have shape := tree.shaped chained.1
  rw [(rep.connectBlock_sim agrees shape).answer] at connected
  obtain ⟨next, applies, -⟩ := connect_eq_true rep.valid shape connected
  have level : nextHeight L'.chain = nextHeight L.chain := by
    rw [nextHeight, nextHeight, ← length_blocks, ← length_blocks, same]
  rw [level, exact.coins_eq exact' sound same] at applies
  exact ⟨same ▸ next, applies⟩

theorem Fits.connect {block : Block} (exact : L.Exact P) (fits : L.Fits P block) :
    ∃ L', L.connect P block = (true, L') ∧ L'.blocks = block :: L.blocks ∧ L'.Exact P := by
  rw [Ledger.connect, if_neg (by simp [fits.next]), fits.applies.apply]
  refine ⟨_, rfl, rfl, ⟨⟨exact.coins ▸ fits.applies, exact.applied⟩, ?_⟩⟩
  dsimp only
  rw [chainCoins, ← exact.coins]

/-- What the top block of a chain created goes without a trace. -/
theorem undone_of_tree (sound : P.SoundGenesis)
    (opened : ChainState.initializeState P (.ofDisk .empty) = .ok s₀)
    (tree : ValidTree P s₀ now blocks) (spared : NoneStoredOver P s₀ blocks) {c : Connected}
    {rest : List Connected} (chained : ChainOf P blocks ((c :: rest).map (·.block)))
    (applied : Applied P (c :: rest)) :
    (chainCoins P (c :: rest)).undoneAll (c.block.coinbaseDone ++ c.done) = chainCoins P rest := by
  obtain ⟨s, ran, -, -⟩ := tree.valid_on chained
  obtain ⟨L, rep, same, exact, -⟩ := exists_of_connectAll sound opened tree chained.2.2 ran
  have below : ({ initial P with chain := rest, coins := chainCoins P rest } : Ledger).Exact P :=
    ⟨applied.2, rfl⟩
  have coins : L.coins = chainCoins P rest := below.coins_eq exact sound same
  have back := applied.1.pays.revertibleAll.undoneAll fun {o} hit => by
    rw [applied.1.map_fst] at hit
    have free := spared _ _ s chained ran o hit
    rw [← coins, ← rep.coins, UTXOSet.getCoin_toCoinStore]
    exact free
  rwa [applied.1.map_fst] at back

/-- The ledger has been delivered blocks of the set. -/
def Hears (P : Params) (blocks : List Block) (L : Ledger) : Prop :=
  Moves P (· ∈ blocks) (fun _ => False) (initial P) L

theorem Hears.valid (hears : L.Hears P blocks) (start : (initial P).Valid P) : L.Valid P :=
  Moves.valid hears (fun _ => nofun) start

theorem Hears.holds (hears : L.Hears P blocks) (start : (initial P).Valid P) :
    L.Holds P (· ∈ blocks) (fun _ => False) :=
  Moves.holds hears (fun _ => nofun) start holds_initial

/-- The blocks of a chain of the ledger form a chain of the set. -/
theorem Hears.chainOf (hears : L.Hears P blocks) (start : (initial P).Valid P)
    {chain : List Block} (linked : Linked P L.tree chain) : ChainOf P blocks chain :=
  Linked.chainOf (hears.valid start) (hears.holds start) (fun _ mem => mem.resolve_right id) linked

/-- When every block is valid on its own ancestors and none stores over a coin,
the coins stay those of the chain. -/
theorem Hears.exact (hears : L.Hears P blocks) (start : (initial P).Valid P)
    (opened : ChainState.initializeState P (.ofDisk .empty) = .ok s₀)
    (tree : ValidTree P s₀ now blocks) (spared : NoneStoredOver P s₀ blocks) : L.Exact P := by
  induction hears with
  | refl => exact exact_initial P
  | @tail L L' before move exact =>
      have hears : L.Hears P blocks := before
      have valid := hears.valid start
      have chained := hears.chainOf start valid.linked
      cases move with
      | store _ _ _ _ => exact ⟨exact.applied, exact.coins⟩
      | @connect blockHash st stored =>
          by_cases next : follows P L.blocks st.block = true
          · have mem : st.block ∈ blocks := by
              rcases hears.holds start _ _ stored with genesis | mem | none
              · have height := (height_of_follows next).1
                rw [genesis, valid.sound.header.2] at height
                cases height
              · exact mem
              · exact none.elim
            have fits := exact.fits valid.sound opened tree
              ⟨mem, (height_of_follows next).2, chained⟩
            obtain ⟨L', ran, -, exact'⟩ := fits.connect exact
            rw [ran]
            exact exact'
          · rw [Ledger.connect, if_pos (by simpa using next)]
            exact exact
      | connectDirect none _ => exact none.elim
      | disconnect =>
          rw [Ledger.disconnect]
          unfold Ledger.blocks at chained
          split
          · exact exact
          · rename_i c rest whole
            split
            · have applied := exact.applied
              have coins := exact.coins
              rw [whole] at applied coins chained
              refine ⟨applied.2, ?_⟩
              dsimp only
              rw [coins, undone_of_tree valid.sound opened tree spared chained applied]
            · exact exact

end Ledger

end QmaskCore
