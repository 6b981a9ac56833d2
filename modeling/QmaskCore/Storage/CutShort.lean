import QmaskCore.Storage.FailingStores
import QmaskCore.Storage.StoreBlocks

/-!
What is left of the coins when a block is cut short.

Transactions applied and not taken back leave the store alone only if they spend
nothing and store no coin that was not there (`afterAll_eq_iff`). A rollback
gives the store back under the condition `GivesBack`
(`rollbackFailing_restores_iff`): `Rolling` describes the store between two
transactions taken back. `applyPaymentsFailing_spec` says how far the payments
of a block get.
-/

namespace QmaskCore

/-! ### Transactions that are not taken back -/

/-- The coin that the last of the transactions to store one under an outpoint
stores there. -/
def createdBy (height : UInt32) (o : OutPoint) : List Transaction → Option Coin
  | [] => none
  | tx :: txs => (createdBy height o txs).or (tx.creates height o)

/-- Transactions that spend nothing and store no coin that was not there. -/
def LeavesAlone (height : UInt32) (coins : OutPoint → Option Coin) (txs : List Transaction) : Prop :=
  (∀ tx ∈ txs, tx.spends = []) ∧ ∀ o, (createdBy height o txs).or (coins o) = coins o

theorem eq_nil_of_leavesOf {inputs : List TxInput} (parse : ProofsParse inputs)
    (none : leavesOf inputs = []) : inputs = [] := by
  cases inputs with
  | nil => rfl
  | cons input inputs =>
      have here := (proofsParse_cons.mp parse).1
      rw [leavesOf_cons, List.append_eq_nil_iff] at none
      exact absurd none.1 (TxInput.leaves_ne_nil here.1 here.2)

theorem Transaction.reveals_of_spends {tx : Transaction} (idle : tx.spends = []) :
    tx.reveals = [] := by
  unfold spends at idle
  unfold reveals
  split
  · rfl
  · rename_i payment
    rw [if_neg payment, List.map_eq_nil_iff] at idle
    rw [idle]
    rfl

theorem Revertible.spends_of_reveals {V : CoinStore} {tx : Transaction} {coins : List Coin}
    (back : Revertible V tx coins) (none : tx.reveals = []) : tx.spends = [] := by
  unfold Transaction.reveals at none
  unfold Transaction.spends
  split
  · rfl
  · rename_i payment
    rw [if_neg payment] at none
    rw [eq_nil_of_leavesOf (back.parse (by simpa using payment)) none]
    rfl

section

variable {height : UInt32}

theorem RevertibleAll.of_prefix {second : List (Transaction × List Coin)} :
    ∀ {first : List (Transaction × List Coin)} {V : CoinStore},
    RevertibleAll height V (first ++ second) → RevertibleAll height V first := by
  intro first
  induction first with
  | nil => exact fun _ => trivial
  | cons d first ih => exact fun back => ⟨back.1, ih back.2⟩

/-- Each transaction takes leaves that were free at the start, and can be taken back. -/
theorem RevertibleAll.each : ∀ {done : List (Transaction × List Coin)} {V : CoinStore},
    RevertibleAll height V done → ∀ d ∈ done,
    (∃ W, Revertible W d.1 d.2) ∧ ∀ key ∈ d.1.reveals, key ∉ V.leaves := by
  intro done
  induction done with
  | nil => simp
  | cons first done ih =>
      rintro V ⟨here, later⟩ d mem
      rcases List.mem_cons.mp mem with rfl | mem
      · exact ⟨⟨V, here⟩, here.free⟩
      · obtain ⟨back, free⟩ := ih later d mem
        refine ⟨back, fun key revealed old => free key revealed ?_⟩
        rw [CoinStore.leaves_after]
        exact Finset.mem_union_right _ old

/-- No new leaf is spent exactly when no coin is. -/
theorem leaves_afterAll_eq_iff {done : List (Transaction × List Coin)} {V : CoinStore}
    (back : RevertibleAll height V done) :
    (V.afterAll height (done.map (·.1))).leaves = V.leaves ↔
      ∀ tx ∈ done.map (·.1), tx.spends = [] := by
  rw [CoinStore.leaves_afterAll]
  constructor
  · intro same tx mem
    obtain ⟨d, memDone, rfl⟩ := List.mem_map.mp mem
    obtain ⟨⟨W, revertible⟩, free⟩ := back.each d memDone
    refine revertible.spends_of_reveals (List.eq_nil_iff_forall_not_mem.mpr fun key revealed => ?_)
    have old : key ∈ V.leaves := by
      rw [← same]
      exact Finset.mem_union_left _
        (List.mem_toFinset.mpr (List.mem_flatMap.mpr ⟨d.1, mem, revealed⟩))
    exact free key revealed old
  · intro idle
    have none : (done.map (·.1)).flatMap (·.reveals) = [] :=
      List.flatMap_eq_nil_iff.mpr fun tx mem => Transaction.reveals_of_spends (idle tx mem)
    simp [none]

/-- Where nothing is spent the coins are those stored and those before. -/
theorem getCoin_afterAll_of_idle (o : OutPoint) : ∀ {txs : List Transaction} {V : CoinStore},
    (∀ tx ∈ txs, tx.spends = []) →
    (V.afterAll height txs).getCoin o = (createdBy height o txs).or (V.getCoin o) := by
  intro txs
  induction txs with
  | nil => exact fun _ => rfl
  | cons tx txs ih =>
      intro V idle
      have here := idle tx List.mem_cons_self
      have rest := @ih (V.after height tx) fun t mem => idle t (List.mem_cons_of_mem _ mem)
      rw [CoinStore.getCoin_after, here, if_neg List.not_mem_nil] at rest
      rw [createdBy, Option.or_assoc]
      exact rest

/-- What is applied and not taken back leaves the store as it was only where
there was nothing to take back. -/
theorem afterAll_eq_iff {done : List (Transaction × List Coin)} {V : CoinStore}
    (back : RevertibleAll height V done) :
    V.afterAll height (done.map (·.1)) = V ↔ LeavesAlone height V.getCoin (done.map (·.1)) := by
  constructor
  · intro same
    have idle := (leaves_afterAll_eq_iff back).mp (congrArg CoinStore.leaves same)
    refine ⟨idle, fun o => ?_⟩
    rw [← getCoin_afterAll_of_idle o idle, same]
  · rintro ⟨idle, stored⟩
    refine CoinStore.ext_view (fun o => ?_) fun key => ?_
    · rw [getCoin_afterAll_of_idle o idle, stored]
    · rw [(leaves_afterAll_eq_iff back).mpr idle]

end

/-! ### A rollback that is cut short -/

namespace UTXOSet

/-- The coin the database has under an outpoint. -/
def dbCoin (u : UTXOSet) (o : OutPoint) : Option Coin :=
  (u.mDB.coins.lookup o).filter fun coin => !coin.isSpent

/-- What is under an outpoint once the `later` transactions were taken back and
of the newest of the others, `cut`, the outputs before the `n`-th: that one has
left the cache and not the database. -/
def leftByCut (height : UInt32) (u : UTXOSet) (others : List Transaction) (cut : Transaction)
    (n : Nat) (later : List Transaction) (o : OutPoint) : Option Coin :=
  if o ∈ cut.outpoints.take n then none
  else if o = cut.outpoint n then
    if later.any (o ∈ ·.outpoints) then none else u.dbCoin o
  else if clobbers o later then none
  else (createdBy height o others).or (u.getCoin o)

/-- The rollback of transactions, the newest first, gives back every answer: it
is not cut short and no unspent coin was stored over, or what is left when it is
cut short is what was there. `later` are those taken back before. -/
def GivesBack (height : UInt32) (u : UTXOSet) :
    Option Nat → List Transaction → List Transaction → Prop
  | _, [], later => ∀ o, (u.getCoin o).isSome = true → clobbers o later = false
  | none, tx :: rest, later => u.GivesBack height none rest (tx :: later)
  | some n, tx :: rest, later =>
      if n < tx.outputs.length then
        (∀ t ∈ (tx :: rest).reverse, t.spends = []) ∧
          ∀ o, u.leftByCut height (tx :: rest).reverse tx n later o = u.getCoin o
      else u.GivesBack height (some (n - tx.outputs.length)) rest (tx :: later)

theorem dbCoin_eraseOutput (u : UTXOSet) (o o' : OutPoint) :
    (u.eraseOutput o').dbCoin o = if o = o' then none else u.dbCoin o := by
  change ((u.mDB.coins.erase o').lookup o).filter _ = _
  split
  · rename_i same
    rw [same, AList.lookup_erase]
    rfl
  · rename_i other
    rw [AList.lookup_erase_ne other]
    rfl

theorem dbCoin_eraseOutputs (o : OutPoint) : ∀ (outpoints : List OutPoint) (u : UTXOSet),
    (outpoints.foldl eraseOutput u).dbCoin o = if o ∈ outpoints then none else u.dbCoin o := by
  intro outpoints
  induction outpoints with
  | nil => exact fun _ => rfl
  | cons first outpoints ih =>
      intro u
      rw [List.foldl_cons, ih, dbCoin_eraseOutput]
      by_cases here : o = first <;> simp [here]

/-- Operations that leave the database alone do so one after the other. -/
theorem mDB_foldl {α : Type} {f : UTXOSet → α → UTXOSet} (step : ∀ u a, (f u a).mDB = u.mDB) :
    ∀ (l : List α) (u : UTXOSet), (l.foldl f u).mDB = u.mDB := by
  intro l
  induction l with
  | nil => exact fun _ => rfl
  | cons a l ih => exact fun u => (ih (f u a)).trans (step u a)

theorem mDB_restoreInputs : ∀ (l : List (TxInput × Coin)) (u : UTXOSet),
    (restoreInputs l u).2.mDB = u.mDB := by
  intro l
  induction l with
  | nil => exact fun _ => rfl
  | cons found l ih =>
      intro u
      have restored := mDB_foldl (f := unmarkNoiseLeafSpent) (fun _ _ => rfl) found.1.leaves.1
        (u.cacheEntry found.1.outpoint ⟨found.2.restored, true, false⟩)
      rw [restoreInputs]
      split
      · exact (ih _).trans restored
      · exact restored

/-- Taking a transaction back touches the database under its own outpoints only. -/
theorem dbCoin_undoTransaction (tx : Transaction) (coins : List Coin) (u : UTXOSet) (o : OutPoint) :
    (u.undoTransaction tx coins).2.dbCoin o = if o ∈ tx.outpoints then none else u.dbCoin o := by
  rw [← dbCoin_eraseOutputs]
  have same : (u.undoTransaction tx coins).2.mDB = (tx.outpoints.foldl eraseOutput u).mDB := by
    rw [undoTransaction]
    split
    · rfl
    · split
      · rfl
      · exact mDB_restoreInputs _ _
  rw [dbCoin, same]
  rfl

/-- Behind the cache lies the database. -/
theorem getCoin_of_uncached {u : UTXOSet} {o : OutPoint} (absent : u.mCache.lookup o = none) :
    u.getCoin o = u.dbCoin o := by
  rw [getCoin, absent, dbCoin]
  cases u.mDB.coins.lookup o with
  | none => rfl
  | some coin => cases spent : coin.isSpent <;> simp [spent, Option.filter]

theorem getCoin_eraseCut {tx : Transaction} {n : Nat} (inside : n < tx.outputs.length)
    (u : UTXOSet) (o : OutPoint) :
    (u.eraseCut tx n).getCoin o =
      if o ∈ tx.outpoints.take n then none
      else if o = tx.outpoint n then u.dbCoin o else u.getCoin o := by
  let w := (tx.outpoints.take n).foldl eraseOutput u
  have erased : w.getCoin o = if o ∈ tx.outpoints.take n then none else u.getCoin o := by
    rw [← getCoin_toCoinStore, ← getCoin_toCoinStore, ← CoinStore.getCoin_eraseAll]
    exact congrArg (CoinStore.getCoin · o) (toCoinStore_foldl toCoinStore_eraseOutput _ u)
  by_cases here : o = tx.outpoint n
  · -- The `n`-th output is not among those before it.
    have apart : o ∉ tx.outpoints.take n := by
      rw [here, Transaction.outpoints, ← List.map_take, List.take_range]
      intro mem
      obtain ⟨i, before, same⟩ := List.mem_map.mp mem
      have before : i < min n tx.outputs.length := List.mem_range.mp before
      have same := tx.outpoint_inj (by omega) inside same
      omega
    have db := dbCoin_eraseOutputs o (tx.outpoints.take n) u
    rw [if_neg apart] at db
    rw [if_neg apart, if_pos here, ← db, here]
    exact getCoin_of_uncached (AList.lookup_erase _ _)
  · rw [if_neg here, ← erased]
    have cached : (u.eraseCut tx n).mCache.lookup o = w.mCache.lookup o :=
      AList.lookup_erase_ne here
    rw [getCoin, cached]
    rfl

theorem leaves_eraseCut (tx : Transaction) (n : Nat) (u : UTXOSet) :
    (u.eraseCut tx n).toCoinStore.leaves = u.toCoinStore.leaves := by
  have erased : ((tx.outpoints.take n).foldl eraseOutput u).toCoinStore =
      u.toCoinStore.eraseAll (tx.outpoints.take n) := toCoinStore_foldl toCoinStore_eraseOutput _ u
  refine Eq.trans ?_ ((congrArg CoinStore.leaves erased).trans (CoinStore.leaves_eraseAll _ _))
  rfl

/-- The store in the middle of a rollback: `before` is applied, `later` was taken
back. `db` is what the database held under each outpoint at first. -/
structure Rolling (height : UInt32) (V : CoinStore) (db : OutPoint → Option Coin)
    (before : List (Transaction × List Coin)) (later : List Transaction) (u : UTXOSet) : Prop where
  coins : ∀ o, u.getCoin o =
    if clobbers o later then none else (V.afterAll height (before.map (·.1))).getCoin o
  leaves : u.toCoinStore.leaves = (V.afterAll height (before.map (·.1))).leaves
  db : ∀ o, u.dbCoin o = if later.any (o ∈ ·.outpoints) then none else db o

section

variable {height : UInt32} {V : CoinStore} {db : OutPoint → Option Coin}
  {before : List (Transaction × List Coin)} {d : Transaction × List Coin}
  {later : List Transaction} {u : UTXOSet}

theorem afterAll_concat (V : CoinStore) (before : List (Transaction × List Coin))
    (d : Transaction × List Coin) :
    V.afterAll height ((before ++ [d]).map (·.1)) =
      (V.afterAll height (before.map (·.1))).after height d.1 := by
  simp [CoinStore.afterAll]

/-- One transaction is taken back. -/
theorem Rolling.undo (rolling : Rolling height V db (before ++ [d]) later u)
    (back : RevertibleAll height V (before ++ [d])) :
    Rolling height V db before (d.1 :: later) (u.undoTransaction d.1 d.2).2 := by
  have here : Revertible (V.afterAll height (before.map (·.1))) d.1 d.2 := back.of_append.1
  have undone : (u.undoTransaction d.1 d.2).2.toCoinStore = u.toCoinStore.undone d.1 d.2 := by
    have same := u.toCoinStore_undoTransaction d.1 d.2
    rw [show u.toCoinStore.undoTransaction d.1 d.2 = _ from here.undoTransaction _] at same
    exact congrArg Prod.snd same
  constructor
  · intro o
    rw [← getCoin_toCoinStore, undone, getCoin_undone _ here.found, clobbers]
    by_cases spent : o ∈ d.1.spends
    · simp [spent]
    · by_cases own : o ∈ d.1.outpoints
      · simp [spent, own]
      · rw [if_neg spent, if_neg own, if_neg spent, if_neg own, getCoin_toCoinStore, rolling.coins,
          afterAll_concat, CoinStore.getCoin_after_of_untouched spent own]
  · rw [undone, leaves_undone, rolling.leaves, afterAll_concat, CoinStore.leaves_after]
    ext key
    have free := here.free key
    simp only [Finset.mem_sdiff, Finset.mem_union, List.mem_toFinset]
    tauto
  · intro o
    rw [dbCoin_undoTransaction, rolling.db, List.any_cons]
    by_cases own : o ∈ d.1.outpoints <;> simp [own]

/-- A rollback that reached the end. -/
theorem Rolling.restores_iff (rolling : Rolling height V db [] later u) :
    u.toCoinStore = V ↔ ∀ o, (V.getCoin o).isSome = true → clobbers o later = false := by
  constructor
  · intro same o held
    have found := rolling.coins o
    rw [← getCoin_toCoinStore, same] at found
    by_contra stored
    rw [if_pos (by simpa using stored)] at found
    rw [found] at held
    cases held
  · intro kept
    refine CoinStore.ext_view (fun o => ?_) fun key => by rw [rolling.leaves]; rfl
    rw [getCoin_toCoinStore, rolling.coins]
    change (if clobbers o later then none else V.getCoin o) = V.getCoin o
    cases held : V.getCoin o with
    | none => exact ite_self _
    | some coin => rw [kept o (by rw [held]; rfl)]; rfl

/-- A rollback that is cut short at an output of its newest transaction. -/
theorem Rolling.cut_iff (rolling : Rolling height V db (before ++ [d]) later u)
    (back : RevertibleAll height V (before ++ [d])) {u₀ : UTXOSet} (start : u₀.toCoinStore = V)
    (same : ∀ o, u₀.dbCoin o = db o) {n : Nat} (inside : n < d.1.outputs.length) :
    (u.eraseCut d.1 n).toCoinStore = V ↔
      (∀ tx ∈ (before ++ [d]).map (·.1), tx.spends = []) ∧
        ∀ o, u₀.leftByCut height ((before ++ [d]).map (·.1)) d.1 n later o = u₀.getCoin o := by
  have left (idle : ∀ tx ∈ (before ++ [d]).map (·.1), tx.spends = []) (o : OutPoint) :
      (u.eraseCut d.1 n).getCoin o =
        u₀.leftByCut height ((before ++ [d]).map (·.1)) d.1 n later o := by
    rw [getCoin_eraseCut inside, leftByCut, rolling.db, rolling.coins, same,
      getCoin_afterAll_of_idle o idle, ← start, getCoin_toCoinStore]
  constructor
  · intro whole
    have idle : ∀ tx ∈ (before ++ [d]).map (·.1), tx.spends = [] := by
      rw [← leaves_afterAll_eq_iff back, ← rolling.leaves, ← leaves_eraseCut d.1 n, whole]
    refine ⟨idle, fun o => ?_⟩
    rw [← left idle, ← getCoin_toCoinStore, whole, ← start, getCoin_toCoinStore]
  · rintro ⟨idle, kept⟩
    refine CoinStore.ext_view (fun o => ?_) fun key => ?_
    · rw [getCoin_toCoinStore, left idle, kept, ← start, getCoin_toCoinStore]
    · rw [leaves_eraseCut, rolling.leaves, (leaves_afterAll_eq_iff back).mpr idle]

end

/-- **Rolling back on a database that may throw.** -/
theorem rollbackFailing_restores_iff {height : UInt32} {u₀ : UTXOSet}
    (done : List (Transaction × List Coin)) : ∀ {failing : Option Nat} {later : List Transaction}
    {u : UTXOSet}, Rolling height u₀.toCoinStore u₀.dbCoin done later u →
    RevertibleAll height u₀.toCoinStore done →
    ((u.rollbackFailing failing done.reverse).2.toCoinStore = u₀.toCoinStore ↔
      u₀.GivesBack height failing (done.reverse.map (·.1)) later) := by
  induction done using List.reverseRecOn with
  | nil =>
      intro failing later u rolling back
      rw [List.reverse_nil, List.map_nil, GivesBack]
      simpa [rollbackFailing] using rolling.restores_iff
  | append_singleton before d ih =>
      intro failing later u rolling back
      rw [List.reverse_append, List.reverse_singleton, List.singleton_append, List.map_cons]
      cases failing with
      | none => exact ih (rolling.undo back) back.of_prefix
      | some n =>
          rw [rollbackFailing, GivesBack]
          split
          · rename_i inside
            have order : (d.1 :: before.reverse.map (·.1)).reverse = (before ++ [d]).map (·.1) := by
              simp
            rw [order]
            exact rolling.cut_iff back rfl (fun _ => rfl) inside
          · exact ih (rolling.undo back) back.of_prefix

end UTXOSet

/-! ### How far the payments get -/

/-- How the payments of a block come to an end: a read throws, one is refused,
or all are applied. -/
inductive Stop where
  | thrown
  | refused
  | whole
deriving DecidableEq

/-- What `applyPaymentsFailing` returns. -/
def Stop.result : Stop → Option Bool
  | .thrown => none
  | .refused => some false
  | .whole => some true

namespace UTXOSet

/-- How payments come to an end, and those before. -/
def stop (P : Params) (height : UInt32) (failures : Nat → Option ReadFailure) :
    Nat → List Transaction → UTXOSet → Stop × List Transaction
  | _, [], _ => (.whole, [])
  | i, tx :: txs, u =>
      match u.stopsPayment P tx (failures i) with
      | some .coin => (.thrown, [])
      | some .leaf => (.refused, [])
      | none =>
          match applyPayment P height tx u with
          | (none, _) => (.refused, [])
          | (some _, u) => (stop P height failures (i + 1) txs u).map id (tx :: ·)

theorem mDB_applyTransaction (tx : Transaction) (height : UInt32) (isCoinbase : Bool)
    (u : UTXOSet) : (u.applyTransaction tx height isCoinbase).2.mDB = u.mDB := by
  have adds (l : List (OutPoint × Coin)) (w : UTXOSet) : (l.foldl addOutput w).mDB = w.mDB :=
    mDB_foldl (f := addOutput) (fun _ _ => rfl) l w
  have marks (l : List NoiseLeafKey) (w : UTXOSet) : (l.foldl markNoiseLeafSpent w).mDB = w.mDB :=
    mDB_foldl (f := markNoiseLeafSpent) (fun _ _ => rfl) l w
  have spends (l : List (OutPoint × Coin)) (w : UTXOSet) :
      (l.foldl spendGathered w).mDB = w.mDB := by
    refine mDB_foldl (fun w found => ?_) l w
    unfold spendGathered
    split <;> rfl
  rw [applyTransaction]
  split
  · exact adds _ u
  · split
    · rfl
    · dsimp only
      rw [adds, marks, spends]

theorem mDB_applyPayment (P : Params) (height : UInt32) (tx : Transaction) (u : UTXOSet) :
    (applyPayment P height tx u).2.mDB = u.mDB := by
  unfold applyPayment
  split
  · rfl
  · split
    · rfl
    · split
      · rfl
      · exact u.mDB_applyTransaction tx height false

theorem mDB_applyCoinbase (height : UInt32) (coinbase : Option Transaction) (u : UTXOSet) :
    (applyCoinbase height coinbase u).2.mDB = u.mDB := by
  cases coinbase with
  | none => rfl
  | some tx =>
      have same := u.mDB_applyTransaction tx height true
      rw [applyCoinbase]
      change (match u.applyTransaction tx height true with
        | (none, s) => (false, s)
        | (some _, s) => (true, s)).2.mDB = _
      generalize u.applyTransaction tx height true = out at same ⊢
      rcases out with ⟨_ | spent, w⟩ <;> exact same

/-- What payments come to: those before the end are payable in turn, and are applied. -/
structure Paid (P : Params) (height : UInt32) (u : UTXOSet) (txs : List Transaction)
    (stop : Stop × List Transaction) (applied : List (Transaction × List Coin))
    (out : Option Bool × List (Transaction × List Coin) × UTXOSet)
    (done : List (Transaction × List Coin)) : Prop where
  listed : stop.2 = done.map (·.1)
  payments : ∀ d ∈ done, d.1.isCoinbase = false
  pays : PaysAll P height u.toCoinStore done
  result : out.1 = stop.1.result
  applied : out.2.1 = done.reverse ++ applied
  coins : out.2.2.toCoinStore = u.toCoinStore.afterAll height (done.map (·.1))
  db : out.2.2.mDB = u.mDB
  whole : stop.1 = .whole → txs = done.map (·.1)

theorem applyPaymentsFailing_spec {P : Params} {height : UInt32}
    {failures : Nat → Option ReadFailure} : ∀ {txs : List Transaction} {i : Nat}
    {applied : List (Transaction × List Coin)} {u : UTXOSet}, u.toCoinStore.NullFree →
    (∀ tx ∈ txs, tx.CoinbaseShape) →
    ∃ done, Paid P height u txs (u.stop P height failures i txs) applied
      (u.applyPaymentsFailing P height failures i applied txs) done := by
  intro txs
  induction txs with
  | nil => exact fun _ _ => ⟨[], rfl, by simp, trivial, rfl, rfl, rfl, rfl, fun _ => rfl⟩
  | cons tx txs ih =>
      intro i applied u free shape
      rw [stop, applyPaymentsFailing, applyPaymentFailing]
      cases u.stopsPayment P tx (failures i) with
      | some failure =>
          cases failure with
          | coin => exact ⟨[], rfl, by simp, trivial, rfl, rfl, rfl, rfl, by simp⟩
          | leaf => exact ⟨[], rfl, by simp, trivial, rfl, rfl, rfl, rfl, by simp⟩
      | none =>
          have same := applyPayment_hom toCoinStore_hom P height tx u
          have kept := u.mDB_applyPayment P height tx
          dsimp only
          generalize applyPayment P height tx u = out at same kept ⊢
          rcases out with ⟨_ | spent, w⟩
          · exact ⟨[], rfl, by simp, trivial, rfl, rfl, applyPayment_eq_none same, kept, by simp⟩
          · cases coinbase : tx.isCoinbase with
            | true =>
                rw [applyPayment_of_coinbase free (shape tx List.mem_cons_self) coinbase] at same
                cases same
            | false =>
                obtain ⟨payable, after⟩ := (applyPayment_eq_some coinbase).mp same
                have after : w.toCoinStore = u.toCoinStore.after height tx := after
                obtain ⟨done, paid⟩ := @ih (i + 1) ((tx, spent) :: applied) w
                  (after ▸ free.after height tx) fun t mem => shape t (List.mem_cons_of_mem _ mem)
                refine ⟨(tx, spent) :: done, congrArg (tx :: ·) paid.listed, ?_, ?_, paid.result,
                  ?_, ?_, paid.db.trans kept, fun all => congrArg (tx :: ·) (paid.whole all)⟩
                · intro d mem
                  rcases List.mem_cons.mp mem with rfl | mem
                  · exact coinbase
                  · exact paid.payments d mem
                · exact ⟨payable, after ▸ paid.pays⟩
                · simpa using paid.applied
                · refine paid.coins.trans ?_
                  rw [after]
                  rfl

end UTXOSet

end QmaskCore
