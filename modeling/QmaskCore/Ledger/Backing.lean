import QmaskCore.Ledger.Chain
import QmaskCore.Storage.StoreBlocks

/-!
What stands behind the coins of a chain.

Taking a block back can lose coins but never brings any in (`undoneAll_within`),
so the coins of a node are always within those its chain was built on: that is
`Backed`, which every step of the node keeps. From it, each coin was created by
a transaction of the chain and each leaf a chain's transaction reveals is spent
(`Backed.sourced`). `AppliesWith.kept` says when a block loses nothing: its
coinbase has an id the chain does not hold yet.
-/

namespace QmaskCore

namespace CoinStore

/-- `V` holds no other coins than `W`, and the same leaves. -/
structure Within (V W : CoinStore) : Prop where
  coins : ∀ {o c}, V.getCoin o = some c → W.getCoin o = some c
  leaves : V.leaves = W.leaves

theorem Within.refl (V : CoinStore) : V.Within V := ⟨id, rfl⟩

theorem Within.trans {V W X : CoinStore} (first : V.Within W) (second : W.Within X) : V.Within X :=
  ⟨second.coins ∘ first.coins, first.leaves.trans second.leaves⟩

theorem Within.nullFree {V W : CoinStore} (within : V.Within W) (free : W.NullFree) :
    V.NullFree := by
  intro o null
  by_contra found
  obtain ⟨c, found⟩ := Option.ne_none_iff_exists'.mp found
  have larger := within.coins found
  rw [free o null] at larger
  cases larger

theorem NullFree.afterAll {height : UInt32} : ∀ {txs : List Transaction} {V : CoinStore},
    V.NullFree → (V.afterAll height txs).NullFree := by
  intro txs
  induction txs with
  | nil => exact id
  | cons tx txs ih => exact fun free => ih (free.after height tx)

end CoinStore

open CoinStore (Within)

/-- Taking one transaction back brings no coin in that was not there before it. -/
theorem undone_within {height : UInt32} {V U : CoinStore} {tx : Transaction} {coins : List Coin}
    (back : Revertible V tx coins) (within : U.Within (V.after height tx)) :
    (U.undone tx coins).Within V where
  coins := by
    intro o c found
    rw [getCoin_undone U back.found] at found
    split at found
    · exact found
    · rename_i unspent
      split at found
      · cases found
      · rename_i notOwn
        rw [← CoinStore.getCoin_after_of_untouched unspent notOwn]
        exact within.coins found
  leaves := by
    rw [leaves_undone, within.leaves, CoinStore.leaves_after]
    ext key
    have free := back.free key
    simp only [Finset.mem_sdiff, Finset.mem_union, List.mem_toFinset]
    tauto

theorem undoneAll_within {height : UInt32} : ∀ {done : List (Transaction × List Coin)}
    {V U : CoinStore}, RevertibleAll height V done → U.Within (V.afterAll height (done.map (·.1))) →
    (U.undoneAll done).Within V := by
  intro done
  induction done with
  | nil => exact fun _ within => within
  | cons d done ih =>
      rintro V U ⟨here, later⟩ within
      exact undone_within here (ih later within)

/-! ### Chains and their coins -/

/-- A block of the chain, with the coins each of its payments spent. -/
structure Connected where
  block : Block
  done : List (Transaction × List Coin)

/-- The height of the block that comes on top of a chain. -/
def nextHeight {α : Type} (chain : List α) : UInt32 := UInt32.ofNat (chain.length + 1)

/-- The coins of the genesis block. -/
def genesisStore (P : Params) : CoinStore :=
  CoinStore.empty.afterAll 0 P.buildGenesisBlock.transactions

/-- The coins of a chain come from its blocks: each block was applied to a store
backed by the chain below it, and what there is now lies within the result. -/
inductive Backed (P : Params) : List Connected → CoinStore → Prop
  | genesis {V : CoinStore} : V.Within (genesisStore P) → Backed P [] V
  | block {c : Connected} {rest : List Connected} {V₀ V : CoinStore} : Backed P rest V₀ →
      AppliesWith P (nextHeight rest) V₀ c.block c.done →
      V.Within (V₀.afterAll (nextHeight rest) c.block.transactions) → Backed P (c :: rest) V

namespace Backed

variable {P : Params} {chain rest : List Connected} {c : Connected} {V U : CoinStore}

theorem within (backed : Backed P chain V) (less : U.Within V) : Backed P chain U := by
  cases backed with
  | genesis base => exact .genesis (less.trans base)
  | block below applies base => exact .block below applies (less.trans base)

theorem connect {block : Block} {done : List (Transaction × List Coin)} (backed : Backed P chain V)
    (applies : AppliesWith P (nextHeight chain) V block done) :
    Backed P (⟨block, done⟩ :: chain) (V.afterAll (nextHeight chain) block.transactions) :=
  .block backed applies (.refl _)

theorem disconnect (backed : Backed P (c :: rest) V) :
    Backed P rest (V.undoneAll (c.block.coinbaseDone ++ c.done)) := by
  cases backed with
  | block below applies base =>
      refine below.within (undoneAll_within applies.pays.revertibleAll ?_)
      rw [List.map_append, c.block.map_fst_coinbaseDone, ← applies.all, ← c.block.transactions_eq]
      exact base

theorem refuse (backed : Backed P chain V) {done : List (Transaction × List Coin)}
    (back : RevertibleAll (nextHeight chain) V done) :
    Backed P chain ((V.afterAll (nextHeight chain) (done.map (·.1))).undoneAll done) :=
  backed.within (undoneAll_within back (.refl _))

theorem nullFree : ∀ {chain : List Connected} {V : CoinStore}, Backed P chain V → V.NullFree := by
  intro chain V backed
  induction backed with
  | genesis base => exact base.nullFree (CoinStore.NullFree.afterAll CoinStore.nullFree_empty)
  | block _ _ base ih => exact base.nullFree ih.afterAll

end Backed

/-! ### Where coins come from -/

/-- Every coin was created by one of the transactions, each at its height, and
every leaf they reveal is spent. -/
structure Sourced (V : CoinStore) (made : List (Transaction × UInt32)) : Prop where
  coins : ∀ {o c}, V.getCoin o = some c → ∃ m ∈ made, m.1.creates m.2 o = some c
  leaves : ∀ m ∈ made, ∀ key ∈ m.1.reveals, key ∈ V.leaves

namespace Sourced

variable {V U : CoinStore} {made : List (Transaction × UInt32)}

theorem within (sourced : Sourced V made) (less : U.Within V) : Sourced U made where
  coins found := sourced.coins (less.coins found)
  leaves := by
    rw [less.leaves]
    exact sourced.leaves

theorem after (sourced : Sourced V made) (height : UInt32) (tx : Transaction) :
    Sourced (V.after height tx) ((tx, height) :: made) where
  coins := by
    intro o c found
    rw [CoinStore.getCoin_after] at found
    cases new : tx.creates height o with
    | some c' =>
        rw [new, Option.some_or] at found
        exact ⟨(tx, height), List.mem_cons_self, new.trans found⟩
    | none =>
        rw [new, Option.none_or] at found
        split at found
        · cases found
        · obtain ⟨m, mem, created⟩ := sourced.coins found
          exact ⟨m, List.mem_cons_of_mem _ mem, created⟩
  leaves := by
    intro m mem key revealed
    rw [CoinStore.leaves_after, Finset.mem_union, List.mem_toFinset]
    rcases List.mem_cons.mp mem with rfl | mem
    · exact .inl revealed
    · exact .inr (sourced.leaves m mem key revealed)

theorem mono {more : List (Transaction × UInt32)} (sourced : Sourced V made)
    (same : ∀ m, m ∈ made ↔ m ∈ more) : Sourced V more where
  coins found := by
    obtain ⟨m, mem, created⟩ := sourced.coins found
    exact ⟨m, (same m).mp mem, created⟩
  leaves m mem := sourced.leaves m ((same m).mpr mem)

theorem afterAll (height : UInt32) : ∀ {txs : List Transaction} {V : CoinStore}
    {made : List (Transaction × UInt32)}, Sourced V made →
    Sourced (V.afterAll height txs) (txs.map (·, height) ++ made) := by
  intro txs
  induction txs with
  | nil => exact fun sourced => sourced
  | cons tx txs ih =>
      intro V made sourced
      refine (ih (sourced.after height tx)).mono fun m => ?_
      simp only [List.map_cons, List.cons_append, List.mem_append, List.mem_cons]
      tauto

end Sourced

/-- The transactions of a chain, genesis included, each with the height of its block. -/
def madeBy (P : Params) : List Connected → List (Transaction × UInt32)
  | [] => P.buildGenesisBlock.transactions.map (·, 0)
  | c :: rest => c.block.transactions.map (·, nextHeight rest) ++ madeBy P rest

theorem Backed.sourced {P : Params} {chain : List Connected} {V : CoinStore}
    (backed : Backed P chain V) : Sourced V (madeBy P chain) := by
  have none : Sourced CoinStore.empty [] := by
    constructor
    · intro o c found
      cases found
    · simp
  induction backed with
  | genesis base =>
      have genesis : Sourced (genesisStore P) (madeBy P [] ++ []) := none.afterAll 0
      rw [List.append_nil] at genesis
      exact genesis.within base
  | block _ _ base ih => exact (ih.afterAll _).within base

/-! ### Blocks that lose nothing -/

/-- A payment that spends anything reveals a leaf. -/
theorem Payable.exists_reveals {P : Params} {V : CoinStore} {tx : Transaction} {coins : List Coin}
    (payable : Payable P V tx coins) (payment : tx.isCoinbase = false) (spends : tx.inputs ≠ []) :
    ∃ key ∈ tx.reveals, key ∉ V.leaves := by
  obtain ⟨input, inputs, shape⟩ := List.exists_cons_of_ne_nil spends
  obtain ⟨present, parses⟩ := payable.parse input (by simp [shape])
  obtain ⟨key, keys, first⟩ := List.exists_cons_of_ne_nil (TxInput.leaves_ne_nil present parses)
  have mem : key ∈ leavesOf tx.inputs := by simp [shape, first]
  refine ⟨key, by simpa [Transaction.reveals, payment] using mem, ?_⟩
  simpa [CoinStore.isNoiseLeafSpent] using payable.claim.2 key mem

/-- A payment without inputs pays nothing out, so it creates no coin. -/
theorem Payable.spends_or_idle {P : Params} (exact : P.ValueOutExact) {V : CoinStore}
    {tx : Transaction} {coins : List Coin} (payable : Payable P V tx coins) :
    tx.inputs ≠ [] ∨ ∀ height o, tx.creates height o = none := by
  by_cases spends : tx.inputs = []
  · right
    obtain ⟨valueIn, total, covers⟩ := payable.covers
    have found := payable.found
    rw [spends] at found
    cases found
    cases total
    obtain ⟨nonneg, value⟩ := exact.of_nonneg (Int64.not_lt.mp fun low => covers (.inl low))
    have small : tx.totalOut ≤ 0 := by
      rw [← value, ← Int64.toInt_zero]
      exact Int64.le_iff_toInt_le.mp (Int64.not_lt.mp fun hit => covers (.inr hit))
    intro height o
    by_contra created
    obtain ⟨c, new⟩ := Option.ne_none_iff_exists'.mp created
    unfold Transaction.creates Transaction.newCoinAt at new
    split at new
    · obtain ⟨out, listed, becomes⟩ := Option.bind_eq_some_iff.mp new
      have mem : out ∈ tx.outputs := List.mem_of_getElem? listed
      have below : out.value.toInt ≤ tx.totalOut := by
        apply List.single_le_sum
        · intro v memV
          obtain ⟨out', memOut, rfl⟩ := List.mem_map.mp memV
          exact Int64.le_iff_toInt_le.mp (nonneg out' memOut)
        · exact List.mem_map_of_mem mem
      have worth := (TxOutput.toCoin_eq_some becomes).1
      rw [Int64.lt_iff_toInt_lt, Int64.toInt_zero] at worth
      omega
    · cases new
  · exact .inl spends

/-- A transaction that spends something or creates nothing. -/
def Transaction.Active (tx : Transaction) : Prop :=
  tx.inputs ≠ [] ∨ ∀ height o, tx.creates height o = none

theorem PaysAll.active {P : Params} (exact : P.ValueOutExact) {height : UInt32} :
    ∀ {done : List (Transaction × List Coin)} {V : CoinStore}, PaysAll P height V done →
    ∀ d ∈ done, d.1.Active := by
  intro done
  induction done with
  | nil => simp
  | cons d done ih =>
      intro V pays e mem
      rcases List.mem_cons.mp mem with rfl | mem
      · exact pays.1.spends_or_idle exact
      · exact ih pays.2 e mem

/-- Transactions with one hash are one transaction. -/
def HashInjective (txs : List Transaction) : Prop :=
  ∀ tx ∈ txs, ∀ tx' ∈ txs, tx.hash = tx'.hash → tx = tx'

theorem HashInjective.mono {txs less : List Transaction} (injective : HashInjective txs)
    (sub : ∀ tx ∈ less, tx ∈ txs) : HashInjective less :=
  fun tx mem tx' mem' => injective tx (sub tx mem) tx' (sub tx' mem')

/-- A payable payment stores nothing over a coin: were there one, the payment
would be in the chain already and its leaves spent. -/
theorem Payable.fresh {P : Params} {V : CoinStore} {tx : Transaction} {coins : List Coin}
    {made : List (Transaction × UInt32)} (sourced : Sourced V made)
    (payable : Payable P V tx coins) (payment : tx.isCoinbase = false)
    (active : tx.Active)
    (injective : HashInjective (tx :: made.map (·.1))) {o : OutPoint} (own : o ∈ tx.outpoints) :
    V.getCoin o = none := by
  by_contra found
  obtain ⟨c, found⟩ := Option.ne_none_iff_exists'.mp found
  obtain ⟨m, mem, created⟩ := sourced.coins found
  have hash : m.1.hash = tx.hash :=
    (Transaction.mem_outpoints.mp (Transaction.mem_outpoints_of_newCoinAt created)).1.symm.trans
      (Transaction.mem_outpoints.mp own).1
  have same : m.1 = tx :=
    injective m.1 (List.mem_cons_of_mem _ (List.mem_map_of_mem mem)) tx List.mem_cons_self hash
  rcases active with spends | idle
  · obtain ⟨key, revealed, unspent⟩ := payable.exists_reveals payment spends
    exact unspent (sourced.leaves m mem key (same ▸ revealed))
  · rw [same, idle] at created
    cases created

/-- Payments that are payable in turn store nothing over a coin. -/
theorem PaysAll.kept {P : Params} {height : UInt32} : ∀ {done : List (Transaction × List Coin)}
    {V : CoinStore} {made : List (Transaction × UInt32)}, Sourced V made →
    PaysAll P height V done → (∀ d ∈ done, d.1.isCoinbase = false) →
    (∀ d ∈ done, d.1.Active) →
    HashInjective (done.map (·.1) ++ made.map (·.1)) → ∀ {o : OutPoint},
    clobbers o (done.map (·.1)) = true → V.getCoin o = none := by
  intro done
  induction done with
  | nil => exact fun _ _ _ _ _ _ hit => nomatch hit
  | cons d done ih =>
      intro V made sourced pays payments active injective o hit
      rw [List.map_cons, clobbers] at hit
      by_cases spent : o ∈ d.1.spends
      · simp [spent] at hit
      · by_cases own : o ∈ d.1.outpoints
        · refine pays.1.fresh sourced (payments d List.mem_cons_self)
            (active d List.mem_cons_self) (injective.mono fun tx mem => ?_) own
          simp only [List.map_cons, List.cons_append, List.mem_cons, List.mem_append] at mem ⊢
          tauto
        · simp only [spent, own, if_false] at hit
          have later := ih (sourced.after height d.1) pays.2
            (fun e mem => payments e (List.mem_cons_of_mem _ mem))
            (fun e mem => active e (List.mem_cons_of_mem _ mem))
            (injective.mono fun tx mem => by
              simp only [List.map_cons, List.cons_append, List.mem_cons, List.mem_append] at mem ⊢
              tauto) hit
          rwa [CoinStore.getCoin_after_of_untouched spent own] at later

/-- An unspent coin has the id of the block's coinbase. -/
def Block.CoinbaseIdHeld (block : Block) (V : CoinStore) : Prop :=
  ∃ tx ∈ block.coinbase?, ∃ o, o.txHash = tx.hash ∧ (V.getCoin o).isSome = true

/-- The coinbase of a block is new to a chain. -/
def Block.CoinbaseNew (block : Block) (made : List (Transaction × UInt32)) : Prop :=
  ∀ tx ∈ block.coinbase?, ∀ m ∈ made, m.1.hash ≠ tx.hash

/-- No coin of a chain has the id of a coinbase that is new to it. -/
theorem Block.CoinbaseNew.not_held {block : Block} {V : CoinStore}
    {made : List (Transaction × UInt32)} (new : block.CoinbaseNew made)
    (sourced : Sourced V made) : ¬ block.CoinbaseIdHeld V := by
  rintro ⟨tx, coinbase, o, id, held⟩
  obtain ⟨c, found⟩ := Option.isSome_iff_exists.mp held
  obtain ⟨m, mem, created⟩ := sourced.coins found
  refine new tx coinbase m mem ?_
  exact (Transaction.mem_outpoints.mp
    (Transaction.mem_outpoints_of_newCoinAt created)).1.symm.trans id

/-- As far as a block goes through whose coinbase has the id of no coin, it
stores nothing over a coin. -/
theorem Attempts.kept {P : Params} {height : UInt32} {V : CoinStore} {block : Block}
    {done : List (Transaction × List Coin)} {made : List (Transaction × UInt32)}
    (attempts : Attempts P height V block done) (sourced : Sourced V made)
    (active : ∀ d ∈ done, d.1.Active)
    (injective : HashInjective (block.transactions ++ made.map (·.1)))
    (free : ¬ block.CoinbaseIdHeld V) {o : OutPoint}
    (hit : clobbers o ((block.coinbaseDone ++ done).map (·.1)) = true) : V.getCoin o = none := by
  have pays := attempts.pays
  have listed : ∀ tx ∈ done.map (·.1), tx ∈ block.transactions := by
    intro tx mem
    rw [block.transactions_eq]
    exact List.mem_append_right _ (attempts.part.subset mem)
  rw [List.map_append, block.map_fst_coinbaseDone] at hit
  unfold BlockPays at pays
  cases coinbase : block.coinbase? with
  | none =>
      rw [coinbase] at pays hit
      refine PaysAll.kept sourced pays attempts.payments active (injective.mono fun tx mem => ?_) hit
      exact (List.mem_append.mp mem).elim (fun mem => List.mem_append_left _ (listed tx mem))
        (List.mem_append_right _)
  | some tx =>
      have here : tx ∈ block.transactions := by simp [block.transactions_eq, coinbase]
      rw [coinbase] at pays hit
      have spends : tx.spends = [] := by
        simp [Transaction.spends, block.isCoinbase_of_mem coinbase]
      simp only [Option.toList_some, List.singleton_append, clobbers, spends, List.not_mem_nil,
        if_false] at hit
      by_cases own : o ∈ tx.outpoints
      · by_contra found
        have held := Option.ne_none_iff_isSome.mp found
        exact free ⟨tx, coinbase, o, (Transaction.mem_outpoints.mp own).1, held⟩
      · rw [if_neg own] at hit
        have later := PaysAll.kept (sourced.after height tx) pays attempts.payments active
          (injective.mono fun t mem => by
            simp only [List.map_cons, List.mem_append, List.mem_cons] at mem ⊢
            rcases mem with mem | rfl | mem
            · exact .inl (listed t mem)
            · exact .inl here
            · exact .inr mem) hit
        rwa [CoinStore.getCoin_after_of_untouched (by simp [spends]) own] at later

/-- Taking transactions back that stored nothing over a coin gives back the store
they were applied to. -/
theorem RevertibleAll.undoneAll {height : UInt32} {V : CoinStore}
    {done : List (Transaction × List Coin)} (back : RevertibleAll height V done)
    (kept : ∀ {o}, clobbers o (done.map (·.1)) = true → V.getCoin o = none) :
    (V.afterAll height (done.map (·.1))).undoneAll done = V := by
  refine CoinStore.ext_view (fun o => ?_) fun key => ?_
  · rw [getCoin_undoneAll back]
    split
    · rename_i hit
      exact (kept hit).symm
    · rfl
  · rw [leaves_undoneAll back]

/-- What goes through of a whole block is its transactions. -/
theorem AppliesWith.map_fst {P : Params} {height : UInt32} {V : CoinStore} {block : Block}
    {done : List (Transaction × List Coin)} (applies : AppliesWith P height V block done) :
    (block.coinbaseDone ++ done).map (·.1) = block.transactions := by
  rw [List.map_append, block.map_fst_coinbaseDone, ← applies.all, ← block.transactions_eq]

end QmaskCore
