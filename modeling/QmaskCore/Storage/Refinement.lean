import QmaskCore.Storage.CoinStore

/-!
The cached set behaves as the plain store.

`UTXOSet.toCoinStore` reads a set as one map and one set of leaves. Every query
gives the answer the store would give (`coinsWhere_toCoinStore`,
`isNoiseLeafSpent_toCoinStore`, ...), and every operation commutes with the
reading (`toCoinStore_addCoin`, `toCoinStore_applyTransaction`, ...), whatever
the flags in the cache say.
-/

namespace QmaskCore

namespace UTXOSet

/-! ### Reading the set as a store -/

theorem mem_walkCoins {u : UTXOSet} {wanted : Coin → Bool} {o : OutPoint} {c : Coin} :
    (o, c) ∈ u.walkCoins wanted ↔ u.getCoin o = some c ∧ wanted c = true := by
  simp only [walkCoins, List.mem_append, AList.mem_select, getCoin]
  cases u.mCache.lookup o with
  | none => cases u.mDB.coins.lookup o <;> grind
  | some entry => grind

/-- A walk meets every outpoint at most once. -/
theorem nodup_walkCoins (u : UTXOSet) (wanted : Coin → Bool) :
    ((u.walkCoins wanted).map (·.1)).Nodup := by
  rw [walkCoins, List.map_append, List.nodup_append]
  refine ⟨AList.nodup_keys_select _ _ _, AList.nodup_keys_select _ _ _, ?_⟩
  intro o inCache o' inDB same
  subst same
  obtain ⟨⟨_, c⟩, mem, rfl⟩ := List.mem_map.mp inCache
  obtain ⟨⟨_, d⟩, mem', rfl⟩ := List.mem_map.mp inDB
  obtain ⟨entry, found, -⟩ := AList.mem_select.mp mem
  obtain ⟨coin, -, absent, -⟩ := AList.mem_select.mp mem'
  simp_all

/-- The unspent coins of the set as one map. -/
def liveCoins (u : UTXOSet) : Finmap fun _ : OutPoint => Coin :=
  ((u.walkCoins fun _ => true).map fun found => (⟨found.1, found.2⟩ : (_ : OutPoint) × Coin)).toFinmap

theorem lookup_liveCoins (u : UTXOSet) (o : OutPoint) : u.liveCoins.lookup o = u.getCoin o := by
  have distinct : ((u.walkCoins fun _ => true).map
      fun found => (⟨found.1, found.2⟩ : (_ : OutPoint) × Coin)).NodupKeys := by
    have keys := u.nodup_walkCoins fun _ => true
    rw [List.NodupKeys, List.keys, List.map_map]
    exact keys
  ext c
  rw [liveCoins, Finmap.dlookup_list_toFinmap, ← Option.mem_def, List.mem_dlookup_iff distinct]
  simp only [List.mem_map, Sigma.mk.injEq, heq_eq_eq, Prod.exists]
  constructor
  · rintro ⟨_, _, mem, rfl, rfl⟩
    exact (mem_walkCoins.mp mem).1
  · intro found
    exact ⟨o, c, mem_walkCoins.mpr ⟨found, rfl⟩, rfl, rfl⟩

theorem isSpent_eq_false {u : UTXOSet} {o : OutPoint} {c : Coin} (found : u.getCoin o = some c) :
    c.isSpent = false := by
  unfold getCoin at found
  grind

def toCoinStore (u : UTXOSet) : CoinStore where
  coins := u.liveCoins
  leaves := (u.mSpentLeafCache ++ u.mDB.leaves.filter (· ∉ u.mErasedLeafDirty)).toFinset
  unspent := fun found => isSpent_eq_false ((u.lookup_liveCoins _).symm.trans found)

@[simp] theorem getCoin_toCoinStore (u : UTXOSet) (o : OutPoint) :
    u.toCoinStore.getCoin o = u.getCoin o := u.lookup_liveCoins o

theorem mem_leaves_toCoinStore {u : UTXOSet} {k : NoiseLeafKey} :
    k ∈ u.toCoinStore.leaves ↔
      k ∈ u.mSpentLeafCache ∨ (k ∈ u.mDB.leaves ∧ k ∉ u.mErasedLeafDirty) := by
  simp [toCoinStore]

@[simp] theorem isNoiseLeafSpent_toCoinStore (u : UTXOSet) (k : NoiseLeafKey) :
    u.toCoinStore.isNoiseLeafSpent k = u.isNoiseLeafSpent k := by
  rw [CoinStore.isNoiseLeafSpent, isNoiseLeafSpent, Bool.eq_iff_iff, decide_eq_true_iff,
    mem_leaves_toCoinStore]
  split
  · simp_all
  · split <;> simp_all

@[simp] theorem haveCoin_toCoinStore (u : UTXOSet) (o : OutPoint) :
    u.toCoinStore.haveCoin o = u.haveCoin o := by
  rw [CoinStore.haveCoin, getCoin_toCoinStore, getCoin, haveCoin]
  grind

@[simp] theorem view_toCoinStore (u : UTXOSet) : u.toCoinStore.view = u.view := by
  simp [CoinStore.view, view, funext_iff]

/-! ### The queries -/

/-- A walk lists exactly the coins of the store that pass, each once. -/
theorem coinsWhere_toCoinStore (u : UTXOSet) (wanted : Coin → Bool) :
    (u.toCoinStore.coinsWhere wanted).val = u.walkCoins wanted := by
  have distinct : (u.walkCoins wanted).Nodup := (u.nodup_walkCoins wanted).of_map
  refine (Multiset.Nodup.ext (Finset.nodup _) (Multiset.coe_nodup.mpr distinct)).mpr ?_
  rintro ⟨o, c⟩
  rw [Finset.mem_val, CoinStore.mem_coinsWhere, Multiset.mem_coe, mem_walkCoins,
    getCoin_toCoinStore]

@[simp] theorem getBalance_toCoinStore (u : UTXOSet) (pubkeyHash : Bytes32) :
    u.toCoinStore.getBalance pubkeyHash = u.getBalance pubkeyHash := by
  rw [CoinStore.getBalance, coinsWhere_toCoinStore, getBalance, Multiset.map_coe,
    Multiset.coe_fold_l, List.foldl_map]

/-! ### The operations -/

theorem getCoin_cacheEntry (u : UTXOSet) (o o' : OutPoint) (e : UTXOEntry) :
    (u.cacheEntry o e).getCoin o' =
      if o' = o then (if e.coin.isSpent then none else some e.coin) else u.getCoin o' := by
  unfold getCoin cacheEntry
  by_cases same : o' = o
  · subst same
    rw [AList.lookup_insert, if_pos rfl]
  · rw [AList.lookup_insert_ne same, if_neg same]

@[simp] theorem toCoinStore_cacheEntry (u : UTXOSet) (o : OutPoint) (e : UTXOEntry) :
    (u.cacheEntry o e).toCoinStore = u.toCoinStore.put o e.coin := by
  refine CoinStore.ext_view (fun o' => ?_) fun k => ?_
  · rw [getCoin_toCoinStore, getCoin_cacheEntry, CoinStore.getCoin_put, getCoin_toCoinStore]
  · rw [CoinStore.leaves_put, mem_leaves_toCoinStore, mem_leaves_toCoinStore]
    rfl

@[simp] theorem toCoinStore_markNoiseLeafSpent (u : UTXOSet) (k : NoiseLeafKey) :
    (u.markNoiseLeafSpent k).toCoinStore = u.toCoinStore.mark k := by
  refine CoinStore.ext_view (fun o => ?_) fun k' => ?_
  · rw [getCoin_toCoinStore, CoinStore.getCoin_mark, getCoin_toCoinStore]
    rfl
  · simp only [CoinStore.leaves_mark, Finset.mem_insert, mem_leaves_toCoinStore,
      markNoiseLeafSpent, List.mem_insert_iff, List.mem_filter, decide_eq_true_eq]
    tauto

@[simp] theorem toCoinStore_unmarkNoiseLeafSpent (u : UTXOSet) (k : NoiseLeafKey) :
    (u.unmarkNoiseLeafSpent k).toCoinStore = u.toCoinStore.unmark k := by
  refine CoinStore.ext_view (fun o => ?_) fun k' => ?_
  · rw [getCoin_toCoinStore, CoinStore.getCoin_unmark, getCoin_toCoinStore]
    rfl
  · simp only [CoinStore.leaves_unmark, Finset.mem_erase, mem_leaves_toCoinStore,
      unmarkNoiseLeafSpent, List.mem_insert_iff, List.mem_filter, decide_eq_true_eq]
    tauto

theorem toCoinStore_spendCoin (u : UTXOSet) (o : OutPoint) :
    Prod.map id toCoinStore (u.spendCoin o) = u.toCoinStore.spendCoin o := by
  unfold CoinStore.spendCoin
  rw [getCoin_toCoinStore, getCoin, spendCoin]
  cases u.mCache.lookup o with
  | some entry =>
      cases spent : entry.coin.isSpent <;> simp [spent, CoinStore.put]
  | none =>
      cases u.mDB.coins.lookup o with
      | none => simp
      | some coin => cases spent : coin.isSpent <;> simp [spent, CoinStore.put]

theorem toCoinStore_addCoin (u : UTXOSet) (o : OutPoint) (c : Coin) :
    Prod.map id toCoinStore (u.addCoin o c) = u.toCoinStore.addCoin o c := by
  unfold CoinStore.addCoin
  rw [haveCoin_toCoinStore, haveCoin, addCoin]
  cases u.mCache.lookup o with
  | some entry => cases spent : entry.coin.isSpent <;> simp [spent]
  | none =>
      cases u.mDB.coins.lookup o with
      | none => simp
      | some coin => cases spent : coin.isSpent <;> simp [spent]

@[simp] theorem toCoinStore_eraseOutput (u : UTXOSet) (o : OutPoint) :
    (u.eraseOutput o).toCoinStore = u.toCoinStore.erase o := by
  refine CoinStore.ext_view (fun o' => ?_) fun k => ?_
  · rw [getCoin_toCoinStore, CoinStore.getCoin_erase, getCoin_toCoinStore]
    by_cases same : o' = o
    · subst same
      simp [getCoin, eraseOutput, writeBatch, UTXODB.writeBatch, UTXODB.write]
    · simp [getCoin, eraseOutput, writeBatch, UTXODB.writeBatch, UTXODB.write,
        AList.lookup_erase_ne same, same]
  · rw [CoinStore.leaves_erase, mem_leaves_toCoinStore, mem_leaves_toCoinStore]
    rfl

@[simp] theorem toCoinStore_setBestBlock (u : UTXOSet) (h : Bytes32) :
    (u.setBestBlock h).toCoinStore = u.toCoinStore := rfl

/-- A gathered coin is gone after it is flagged, whichever store held it. -/
@[simp] theorem toCoinStore_spendGathered (u : UTXOSet) (found : OutPoint × Coin) :
    (u.spendGathered found).toCoinStore = u.toCoinStore.erase found.1 := by
  unfold spendGathered
  split <;> simp [CoinStore.put]

@[simp] theorem toCoinStore_addOutput (u : UTXOSet) (out : OutPoint × Coin) :
    (u.addOutput out).toCoinStore = u.toCoinStore.put out.1 out.2 :=
  toCoinStore_cacheEntry u out.1 _

/-- Erasing where there is no coin changes nothing. -/
theorem erase_of_getCoin_eq_none {V : CoinStore} {o : OutPoint} (absent : V.getCoin o = none) :
    V.erase o = V := by
  refine CoinStore.ext_view (fun o' => ?_) fun k => Iff.rfl
  rw [CoinStore.getCoin_erase]
  split
  · rename_i same
    rw [same, absent]
  · rfl

@[simp] theorem toCoinStore_spendCoinIfPresent (u : UTXOSet) (o : OutPoint) :
    (u.spendCoinIfPresent o).toCoinStore = u.toCoinStore.erase o := by
  have absent (none : u.getCoin o = none) : u.toCoinStore = u.toCoinStore.erase o :=
    (erase_of_getCoin_eq_none ((u.getCoin_toCoinStore o).trans none)).symm
  unfold spendCoinIfPresent
  unfold getCoin at absent
  split
  · split
    · exact absent (by simp_all)
    · simp [CoinStore.put]
  · split
    · exact absent (by simp_all)
    · split
      · exact absent (by simp_all)
      · simp [CoinStore.put]

/-- A fold of operations that each commute with the reading commutes with it. -/
theorem toCoinStore_foldl {α : Type} {f : UTXOSet → α → UTXOSet} {g : CoinStore → α → CoinStore}
    (step : ∀ u a, (f u a).toCoinStore = g u.toCoinStore a) (l : List α) (u : UTXOSet) :
    (l.foldl f u).toCoinStore = l.foldl g u.toCoinStore := by
  induction l generalizing u with
  | nil => rfl
  | cons a l ih => rw [List.foldl_cons, List.foldl_cons, ih, step]

theorem toCoinStore_applyTransaction (tx : Transaction) (height : UInt32) (isCoinbase : Bool)
    (u : UTXOSet) :
    Prod.map id toCoinStore (u.applyTransaction tx height isCoinbase) =
      u.toCoinStore.applyTransaction tx height isCoinbase := by
  have adds (l : List (OutPoint × Coin)) (w : UTXOSet) :
      (l.foldl addOutput w).toCoinStore = w.toCoinStore.putAll l :=
    toCoinStore_foldl toCoinStore_addOutput l w
  have marks (l : List NoiseLeafKey) (w : UTXOSet) :
      (l.foldl markNoiseLeafSpent w).toCoinStore = w.toCoinStore.markAll l :=
    toCoinStore_foldl toCoinStore_markNoiseLeafSpent l w
  have spends (l : List (OutPoint × Coin)) (w : UTXOSet) :
      (l.foldl spendGathered w).toCoinStore = w.toCoinStore.eraseAll (l.map (·.1)) := by
    rw [CoinStore.eraseAll, List.foldl_map]
    exact toCoinStore_foldl toCoinStore_spendGathered l w
  have leaf : u.toCoinStore.isNoiseLeafSpent = u.view.isNoiseLeafSpent :=
    funext u.isNoiseLeafSpent_toCoinStore
  unfold applyTransaction CoinStore.applyTransaction
  cases isCoinbase with
  | true => simp [adds]
  | false =>
      rw [gatherInputs_eq List.nodup_nil, view_toCoinStore, leaf]
      cases found : u.view.coinsOf tx.inputs with
      | none => simp
      | some coins =>
          have same : coins.length = (tx.inputs.map (·.outpoint)).length := by
            rw [CoinsView.length_coinsOf found, List.length_map]
          by_cases ok : ProofsParse tx.inputs ∧
              Claimable u.view.isNoiseLeafSpent [] (leavesOf tx.inputs)
          · simp [ok, adds, marks, spends, List.map_fst_zip same.ge, List.map_snd_zip same.le]
          · simp [ok]

theorem toCoinStore_restoreInputs (l : List (TxInput × Coin)) (u : UTXOSet) :
    Prod.map id toCoinStore (restoreInputs l u) = CoinStore.restoreInputs l u.toCoinStore := by
  induction l generalizing u with
  | nil => rfl
  | cons found l ih =>
      have unmarks (keys : List NoiseLeafKey) (w : UTXOSet) :
          (keys.foldl unmarkNoiseLeafSpent w).toCoinStore = w.toCoinStore.unmarkAll keys :=
        toCoinStore_foldl toCoinStore_unmarkNoiseLeafSpent keys w
      rw [restoreInputs, CoinStore.restoreInputs]
      split
      · rw [ih, unmarks, toCoinStore_cacheEntry]
      · rw [Prod.map_apply, unmarks, toCoinStore_cacheEntry]
        rfl

theorem toCoinStore_undoTransaction (tx : Transaction) (spentCoins : List Coin) (u : UTXOSet) :
    Prod.map id toCoinStore (u.undoTransaction tx spentCoins) =
      u.toCoinStore.undoTransaction tx spentCoins := by
  have erases : (tx.outpoints.foldl eraseOutput u).toCoinStore =
      u.toCoinStore.eraseAll tx.outpoints :=
    toCoinStore_foldl toCoinStore_eraseOutput _ u
  unfold undoTransaction CoinStore.undoTransaction
  rw [← erases]
  dsimp only
  split
  · rfl
  · split
    · rfl
    · exact toCoinStore_restoreInputs _ _

theorem toCoinStore_replayLeaves (keys : List NoiseLeafKey) (seen : List NoiseLeafKey)
    (u : UTXOSet) :
    Prod.map id toCoinStore (replayLeaves seen keys u) =
      CoinStore.replayLeaves seen keys u.toCoinStore := by
  induction keys generalizing seen u with
  | nil => rfl
  | cons key keys ih =>
      rw [replayLeaves, CoinStore.replayLeaves]
      split
      · rfl
      · rw [ih, toCoinStore_markNoiseLeafSpent]

theorem toCoinStore_replayInputs (inputs : List TxInput) (seen : List NoiseLeafKey)
    (u : UTXOSet) :
    Prod.map id toCoinStore (replayInputs seen inputs u) =
      CoinStore.replayInputs seen inputs u.toCoinStore := by
  induction inputs generalizing seen u with
  | nil => rfl
  | cons input inputs ih =>
      rw [replayInputs, CoinStore.replayInputs, ← toCoinStore_spendCoinIfPresent]
      split
      · exact ih _ _
      · have leaves := toCoinStore_replayLeaves input.leaves.1 seen
          (u.spendCoinIfPresent input.outpoint)
        rw [← leaves]
        rcases replayLeaves seen input.leaves.1 (u.spendCoinIfPresent input.outpoint) with
          ⟨_ | marked, w⟩
        · rfl
        · dsimp only [Prod.map_apply, id]
          split
          · exact ih _ _
          · rfl

theorem toCoinStore_applyTransactionForReplay (tx : Transaction) (height : UInt32)
    (isCoinbase : Bool) (u : UTXOSet) :
    Prod.map id toCoinStore (u.applyTransactionForReplay tx height isCoinbase) =
      u.toCoinStore.applyTransactionForReplay tx height isCoinbase := by
  have adds (l : List (OutPoint × Coin)) (w : UTXOSet) :
      (l.foldl addOutput w).toCoinStore = w.toCoinStore.putAll l :=
    toCoinStore_foldl toCoinStore_addOutput l w
  unfold applyTransactionForReplay CoinStore.applyTransactionForReplay
  cases isCoinbase with
  | true => simp [adds]
  | false =>
      have inputs := toCoinStore_replayInputs tx.inputs [] u
      simp only [Bool.false_eq_true, if_false]
      rw [← inputs]
      rcases replayInputs [] tx.inputs u with ⟨_ | _, w⟩
      · rfl
      · simp [adds]

end UTXOSet

end QmaskCore
