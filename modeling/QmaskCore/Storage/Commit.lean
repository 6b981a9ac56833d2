import QmaskCore.Storage.Refinement

/-!
Committing the cache.

`UTXOSet.WF` says the cache's flags tell the truth: an entry that is not dirty
is what the database holds, and a leaf is dirty only if it is cached. A commit
writes several batches; `flushCache_spec` describes the set it leaves and every
state of the database on the way. Every operation keeps `WF`, and under it a
commit does not change what the set answers (`toCoinStore_flushCache`).
-/

namespace QmaskCore

/-- What the database holds for an entry once it is written. -/
def UTXOEntry.stored (entry : UTXOEntry) : Option Coin :=
  if entry.coin.isSpent then none else some entry.coin

/-- The coin the database answers with. -/
def UTXODB.getCoin (db : UTXODB) (outpoint : OutPoint) : Option Coin :=
  (db.coins.lookup outpoint).filter fun coin => !coin.isSpent

/-- Two database states that differ in coins only. -/
structure UTXODB.SameButCoins (D D' : UTXODB) : Prop where
  leaves : D.leaves = D'.leaves
  best : D.best = D'.best
  heads : D.heads = D'.heads

theorem UTXODB.SameButCoins.trans {D D' D'' : UTXODB} (first : D.SameButCoins D')
    (second : D'.SameButCoins D'') : D.SameButCoins D'' :=
  ⟨first.leaves.trans second.leaves, first.best.trans second.best,
    first.heads.trans second.heads⟩

/-- A batch that only writes and erases coins. -/
def CoinsOnly (batch : List UTXOWrite) : Prop :=
  ∀ w ∈ batch, (∃ o c, w = .writeCoin o c) ∨ ∃ o, w = .eraseCoin o

namespace UTXODB

theorem writeBatch_append (D : UTXODB) (first second : List UTXOWrite) :
    D.writeBatch (first ++ second) = (D.writeBatch first).writeBatch second :=
  List.foldl_append

theorem sameButCoins_writeBatch {batch : List UTXOWrite} (coins : CoinsOnly batch) (D : UTXODB) :
    (D.writeBatch batch).SameButCoins D := by
  induction batch generalizing D with
  | nil => exact ⟨rfl, rfl, rfl⟩
  | cons w batch ih =>
      refine (ih (fun w' mem => coins w' (List.mem_cons_of_mem _ mem)) (D.write w)).trans ?_
      rcases coins w List.mem_cons_self with ⟨o, c, rfl⟩ | ⟨o, rfl⟩ <;> exact ⟨rfl, rfl, rfl⟩

end UTXODB

namespace UTXOSet

/-- The write an entry turns into. -/
def entryWrite (outpoint : OutPoint) (entry : UTXOEntry) : UTXOWrite :=
  if entry.coin.isSpent then .eraseCoin outpoint else .writeCoin outpoint entry.coin

theorem lookup_entryWrite (D : UTXODB) (o o' : OutPoint) (entry : UTXOEntry) :
    (D.write (entryWrite o entry)).coins.lookup o' =
      if o' = o then entry.stored else D.coins.lookup o' := by
  unfold entryWrite UTXOEntry.stored
  by_cases same : o' = o
  · subst same
    cases entry.coin.isSpent <;> simp [UTXODB.write]
  · cases entry.coin.isSpent <;>
      simp [UTXODB.write, same, AList.lookup_insert_ne, AList.lookup_erase_ne]

/-- What a commit must bring to the database under an outpoint, if anything. -/
def pending (u : UTXOSet) (outpoint : OutPoint) : Option (Option Coin) :=
  (u.mCache.lookup outpoint).bind fun entry => if entry.isDirty then some entry.stored else none

/-- What a set opened on the database answers once a commit came to its end. -/
def settled (u : UTXOSet) (outpoint : OutPoint) : Option Coin :=
  (u.pending outpoint).getD (u.mDB.getCoin outpoint)

theorem getCoin_eq (u : UTXOSet) (o : OutPoint) :
    u.getCoin o = ((u.mCache.lookup o).map UTXOEntry.stored).getD (u.mDB.getCoin o) := by
  unfold getCoin UTXODB.getCoin
  cases u.mCache.lookup o with
  | some entry => rfl
  | none =>
      cases u.mDB.coins.lookup o with
      | none => rfl
      | some coin => cases spent : coin.isSpent <;> simp [Option.filter, spent]

theorem pending_eq_some {u : UTXOSet} {o : OutPoint} {coin : Option Coin} :
    u.pending o = some coin ↔
      ∃ entry, u.mCache.lookup o = some entry ∧ entry.isDirty = true ∧ entry.stored = coin := by
  rw [pending]
  cases u.mCache.lookup o with
  | none => simp
  | some entry => simp

/-- The walk over the dirty entries: after it the cache is clean, and the
database together with the batch still unsent holds what was pending. Every
state of the database on the way holds, under each outpoint, the old coin or
the new one. -/
structure FlushedEntries (keys : List OutPoint) (batch : List UTXOWrite) (u : UTXOSet)
    (batch' : List UTXOWrite) (u' : UTXOSet) : Prop where
  coinsOnly : CoinsOnly batch'
  sameBest : u'.mBestBlock = u.mBestBlock
  sameLeafCache : u'.mSpentLeafCache = u.mSpentLeafCache
  sameLeafDirty : u'.mSpentLeafDirty = u.mSpentLeafDirty
  sameErased : u'.mErasedLeafDirty = u.mErasedLeafDirty
  sameDB : u'.mDB.SameButCoins u.mDB
  stored : ∀ o, (u'.mDB.writeBatch batch').coins.lookup o =
    if o ∈ keys then (u.pending o).getD ((u.mDB.writeBatch batch).coins.lookup o)
    else (u.mDB.writeBatch batch).coins.lookup o
  cache : ∀ o, u'.mCache.lookup o =
    if o ∈ keys then (u.mCache.lookup o).map fun entry => { entry with isDirty := false }
    else u.mCache.lookup o
  history : ∃ states, u'.mHistory = u.mHistory ++ states ∧ ∀ D ∈ states, D.SameButCoins u.mDB ∧
    ∀ o, D.coins.lookup o = (u.mDB.writeBatch batch).coins.lookup o ∨
      u.pending o = some (D.coins.lookup o)

section FlushedEntries

variable {keys keys' : List OutPoint} {batch batch₁ batch₂ : List UTXOWrite} {u u₁ u₂ : UTXOSet}

/-- What is pending outside the walked keys stays pending. -/
theorem FlushedEntries.pending_of_not_mem (walked : FlushedEntries keys batch u batch₁ u₁)
    {o : OutPoint} (outside : o ∉ keys) : u₁.pending o = u.pending o := by
  rw [pending, walked.cache o, if_neg outside, pending]

/-- Nothing is pending under a walked key. -/
theorem FlushedEntries.pending_of_mem (walked : FlushedEntries keys batch u batch₁ u₁)
    {o : OutPoint} (inside : o ∈ keys) : u₁.pending o = none := by
  rw [pending, walked.cache o, if_pos inside]
  cases u.mCache.lookup o <;> rfl

theorem FlushedEntries.trans (first : FlushedEntries keys batch u batch₁ u₁)
    (second : FlushedEntries keys' batch₁ u₁ batch₂ u₂) (disjoint : ∀ o ∈ keys, o ∉ keys') :
    FlushedEntries (keys ++ keys') batch u batch₂ u₂ where
  coinsOnly := second.coinsOnly
  sameBest := second.sameBest.trans first.sameBest
  sameLeafCache := second.sameLeafCache.trans first.sameLeafCache
  sameLeafDirty := second.sameLeafDirty.trans first.sameLeafDirty
  sameErased := second.sameErased.trans first.sameErased
  sameDB := second.sameDB.trans first.sameDB
  stored := by
    intro o
    rw [second.stored o, first.stored o]
    by_cases inFirst : o ∈ keys
    · simp [inFirst, disjoint o inFirst]
    · simp [inFirst, first.pending_of_not_mem inFirst]
  cache := by
    intro o
    rw [second.cache o, first.cache o]
    by_cases inFirst : o ∈ keys
    · simp [inFirst, disjoint o inFirst]
    · simp [inFirst]
  history := by
    obtain ⟨states, hist, onWay⟩ := first.history
    obtain ⟨states', hist', onWay'⟩ := second.history
    refine ⟨states ++ states', by rw [hist', hist, List.append_assoc], ?_⟩
    intro D mem
    rcases List.mem_append.mp mem with mem | mem
    · exact onWay D mem
    · obtain ⟨same, coins⟩ := onWay' D mem
      refine ⟨same.trans first.sameDB, fun o => ?_⟩
      by_cases inFirst : o ∈ keys
      · rcases coins o with old | new
        · rw [first.stored o, if_pos inFirst] at old
          cases waits : u.pending o with
          | none => exact .inl (by rw [old, waits]; rfl)
          | some coin => exact .inr (by rw [old, waits]; rfl)
        · rw [first.pending_of_mem inFirst] at new
          cases new
      · rcases coins o with old | new
        · exact .inl (by rw [old, first.stored o, if_neg inFirst])
        · exact .inr (by rw [← first.pending_of_not_mem inFirst, new])

/-- Walking past a key under which nothing is dirty. -/
theorem FlushedEntries.skip {key : OutPoint} (coins : CoinsOnly batch)
    (clean : ∀ entry, u.mCache.lookup key = some entry → entry.isDirty = false) :
    FlushedEntries [key] batch u batch u where
  coinsOnly := coins
  sameBest := rfl
  sameLeafCache := rfl
  sameLeafDirty := rfl
  sameErased := rfl
  sameDB := ⟨rfl, rfl, rfl⟩
  stored := by
    intro o
    split
    · rename_i mem
      have none : u.pending o = none := by
        rw [List.mem_singleton.mp mem, pending]
        cases found : u.mCache.lookup key with
        | none => rfl
        | some entry => simp [clean entry found]
      rw [none]
      rfl
    · rfl
  cache := by
    intro o
    split
    · rename_i mem
      rw [List.mem_singleton.mp mem]
      cases found : u.mCache.lookup key with
      | none => rfl
      | some entry =>
          have flag := clean entry found
          cases entry
          simp_all
    · rfl
  history := ⟨[], by simp, by simp⟩

theorem coinsOnly_append (coins : CoinsOnly batch) (o : OutPoint) (entry : UTXOEntry) :
    CoinsOnly (batch ++ [entryWrite o entry]) := by
  intro w mem
  rcases List.mem_append.mp mem with mem | mem
  · exact coins w mem
  · rw [List.mem_singleton.mp mem, entryWrite]
    cases entry.coin.isSpent <;> simp

/-- Walking past a dirty entry without sending the batch off. -/
theorem FlushedEntries.collect {key : OutPoint} {entry : UTXOEntry} (coins : CoinsOnly batch)
    (found : u.mCache.lookup key = some entry) (dirty : entry.isDirty = true) :
    FlushedEntries [key] batch u (batch ++ [entryWrite key entry])
      (u.cacheEntry key { entry with isDirty := false }) where
  coinsOnly := coinsOnly_append coins key entry
  sameBest := rfl
  sameLeafCache := rfl
  sameLeafDirty := rfl
  sameErased := rfl
  sameDB := ⟨rfl, rfl, rfl⟩
  stored := by
    intro o
    rw [UTXODB.writeBatch_append]
    refine (lookup_entryWrite _ key o entry).trans ?_
    by_cases same : o = key
    · subst same
      simp [pending, found, dirty]
    · simp [same, cacheEntry]
  cache := by
    intro o
    by_cases same : o = key
    · subst same
      simp [cacheEntry, found]
    · simp [cacheEntry, same, AList.lookup_insert_ne]
  history := ⟨[], by simp [cacheEntry], by simp⟩

/-- Sending the batch off. -/
theorem FlushedEntries.send (walked : FlushedEntries keys batch u batch₁ u₁) :
    FlushedEntries keys batch u [] (u₁.writeBatch batch₁) where
  coinsOnly := by simp [CoinsOnly]
  sameBest := walked.sameBest
  sameLeafCache := walked.sameLeafCache
  sameLeafDirty := walked.sameLeafDirty
  sameErased := walked.sameErased
  sameDB := (UTXODB.sameButCoins_writeBatch walked.coinsOnly _).trans walked.sameDB
  stored := walked.stored
  cache := walked.cache
  history := by
    obtain ⟨states, hist, onWay⟩ := walked.history
    refine ⟨states ++ [u₁.mDB.writeBatch batch₁], by simp [writeBatch, hist], ?_⟩
    intro D mem
    rcases List.mem_append.mp mem with mem | mem
    · exact onWay D mem
    · rw [List.mem_singleton.mp mem]
      refine ⟨(UTXODB.sameButCoins_writeBatch walked.coinsOnly _).trans walked.sameDB, fun o => ?_⟩
      rw [walked.stored o]
      split
      · cases waits : u.pending o with
        | none => exact .inl rfl
        | some coin => exact .inr rfl
      · exact .inl rfl

end FlushedEntries

theorem flushEntries_spec (keys : List OutPoint) : ∀ {batch : List UTXOWrite} {size : Nat}
    {u : UTXOSet}, keys.Nodup → CoinsOnly batch →
    FlushedEntries keys batch u (flushEntries keys batch size u).1
      (flushEntries keys batch size u).2 := by
  induction keys with
  | nil =>
      intro batch size u _ coins
      exact ⟨coins, rfl, rfl, rfl, rfl, ⟨rfl, rfl, rfl⟩, by simp [flushEntries],
        by simp [flushEntries], [], by simp [flushEntries], by simp⟩
  | cons key keys ih =>
      intro batch size u distinct coins
      obtain ⟨fresh, distinct⟩ := List.nodup_cons.mp distinct
      have apart : ∀ o ∈ [key], o ∉ keys := by
        intro o mem
        rw [List.mem_singleton.mp mem]
        exact fresh
      rw [flushEntries]
      cases found : u.mCache.lookup key with
      | none =>
          have step : FlushedEntries [key] batch u batch u :=
            .skip coins fun entry other => by rw [found] at other; cases other
          exact step.trans (ih distinct coins) apart
      | some entry =>
          cases dirty : entry.isDirty with
          | false =>
              have step : FlushedEntries [key] batch u batch u :=
                .skip coins fun entry' other => by
                  rw [found] at other
                  cases other
                  exact dirty
              simpa [dirty] using step.trans (ih distinct coins) apart
          | true =>
              have step := FlushedEntries.collect coins found dirty
              simp only [dirty, Bool.not_true, Bool.false_eq_true, if_false]
              split
              · exact step.send.trans (ih distinct step.send.coinsOnly) apart
              · exact step.trans (ih distinct step.coinsOnly) apart

/-! ### The whole commit -/

/-- What a commit leaves, and the states the database goes through. -/
structure Committed (bestBlock : Bytes32) (u u' : UTXOSet) : Prop where
  sameBest : u'.mBestBlock = bestBlock
  sameLeafCache : u'.mSpentLeafCache = u.mSpentLeafCache
  noLeafDirty : u'.mSpentLeafDirty = []
  noErased : u'.mErasedLeafDirty = []
  best : u'.mDB.best = some bestBlock
  heads : u'.mDB.heads = none
  leaves : ∀ k, k ∈ u'.mDB.leaves ↔
    (k ∈ u.mDB.leaves ∨ k ∈ u.mSpentLeafDirty) ∧ k ∉ u.mErasedLeafDirty
  stored : ∀ o, u'.mDB.coins.lookup o = (u.pending o).getD (u.mDB.coins.lookup o)
  cache : ∀ o entry, u'.mCache.lookup o = some entry ↔ ∃ entry₀, u.mCache.lookup o = some entry₀ ∧
    entry₀.coin.isSpent = false ∧ entry = { entry₀ with isDirty := false }
  history : ∃ states, u'.mHistory = u.mHistory ++ states ++ [u'.mDB] ∧ ∀ D ∈ states,
    D.leaves = u.mDB.leaves ∧ D.best = none ∧ D.heads = some (bestBlock, u.oldTip) ∧
    ∀ o, D.coins.lookup o = u.mDB.coins.lookup o ∨ u.pending o = some (D.coins.lookup o)

theorem leaves_writeBatch_writeLeaf (keys : List NoiseLeafKey) (D : UTXODB) :
    (D.writeBatch (keys.map .writeLeaf)).coins = D.coins ∧
      ∀ k, k ∈ (D.writeBatch (keys.map .writeLeaf)).leaves ↔ k ∈ D.leaves ∨ k ∈ keys := by
  induction keys generalizing D with
  | nil => simp [UTXODB.writeBatch]
  | cons key keys ih =>
      obtain ⟨coins, leaves⟩ := ih (D.write (.writeLeaf key))
      refine ⟨coins, fun k => (leaves k).trans ?_⟩
      simp only [UTXODB.write, List.mem_insert_iff, List.mem_cons]
      tauto

theorem leaves_writeBatch_eraseLeaf (keys : List NoiseLeafKey) (D : UTXODB) :
    (D.writeBatch (keys.map .eraseLeaf)).coins = D.coins ∧
      ∀ k, k ∈ (D.writeBatch (keys.map .eraseLeaf)).leaves ↔ k ∈ D.leaves ∧ k ∉ keys := by
  induction keys generalizing D with
  | nil => simp [UTXODB.writeBatch]
  | cons key keys ih =>
      obtain ⟨coins, leaves⟩ := ih (D.write (.eraseLeaf key))
      refine ⟨coins, fun k => (leaves k).trans ?_⟩
      simp only [UTXODB.write, List.mem_filter, List.mem_cons, decide_eq_true_eq]
      tauto

/-- What the last batch of a commit does to the database. -/
theorem finishCommit_spec (bestBlock : Bytes32) {batch : List UTXOWrite} (coins : CoinsOnly batch)
    (u : UTXOSet) :
    (u.finishCommit bestBlock batch).mDB.best = some bestBlock ∧
      (u.finishCommit bestBlock batch).mDB.heads = none ∧
      (u.finishCommit bestBlock batch).mDB.coins = (u.mDB.writeBatch batch).coins ∧
      ∀ k, k ∈ (u.finishCommit bestBlock batch).mDB.leaves ↔
        (k ∈ u.mDB.leaves ∨ k ∈ u.mSpentLeafDirty) ∧ k ∉ u.mErasedLeafDirty := by
  have onlyCoins := UTXODB.sameButCoins_writeBatch coins u.mDB
  have marks := leaves_writeBatch_writeLeaf u.mSpentLeafDirty (u.mDB.writeBatch batch)
  have erases := leaves_writeBatch_eraseLeaf u.mErasedLeafDirty
    ((u.mDB.writeBatch batch).writeBatch (u.mSpentLeafDirty.map .writeLeaf))
  have shape : (u.finishCommit bestBlock batch).mDB =
      { ((u.mDB.writeBatch batch).writeBatch (u.mSpentLeafDirty.map .writeLeaf)).writeBatch
          (u.mErasedLeafDirty.map .eraseLeaf) with best := some bestBlock, heads := none } := by
    simp only [finishCommit, writeBatch]
    rw [UTXODB.writeBatch_append, UTXODB.writeBatch_append, UTXODB.writeBatch_append]
    rfl
  refine ⟨by rw [shape], by rw [shape], ?_, fun k => ?_⟩
  · rw [shape]
    exact erases.1.trans marks.1
  · rw [shape]
    refine (erases.2 k).trans ?_
    rw [marks.2 k, onlyCoins.leaves]

theorem flushCache_spec (P : Params) (bestBlock : Bytes32) (u : UTXOSet) :
    Committed bestBlock u (u.flushCache P bestBlock) := by
  have order := P.cacheOrder_perm u.mCache.keys
  have distinct : (P.cacheOrder u.mCache.keys).Nodup := order.nodup_iff.mpr u.mCache.keys_nodup
  have every : ∀ {o entry}, u.mCache.lookup o = some entry → o ∈ P.cacheOrder u.mCache.keys := by
    intro o entry found
    rw [order.mem_iff, ← AList.mem_keys, ← AList.lookup_isSome, found]
    rfl
  have notPending : ∀ {o}, o ∉ P.cacheOrder u.mCache.keys → u.pending o = none := by
    intro o outside
    rw [pending]
    cases found : u.mCache.lookup o with
    | none => rfl
    | some entry => exact absurd (every found) outside
  have walked : FlushedEntries (P.cacheOrder u.mCache.keys) [] (u.beginCommit bestBlock)
      (flushEntries (P.cacheOrder u.mCache.keys) [] 0 (u.beginCommit bestBlock)).1
      (flushEntries (P.cacheOrder u.mCache.keys) [] 0 (u.beginCommit bestBlock)).2 :=
    flushEntries_spec _ distinct (by simp [CoinsOnly])
  unfold flushCache
  generalize flushEntries (P.cacheOrder u.mCache.keys) [] 0 (u.beginCommit bestBlock) = sent
    at walked ⊢
  obtain ⟨best, heads, coins, leaves⟩ := finishCommit_spec bestBlock walked.coinsOnly sent.2
  refine ⟨rfl, walked.sameLeafCache, rfl, rfl, best, heads, fun k => ?_, fun o => ?_,
    fun o entry => ?_, ?_⟩
  · rw [leaves k, walked.sameLeafDirty, walked.sameErased, walked.sameDB.leaves]
    rfl
  · rw [coins, walked.stored o]
    split
    · rfl
    · rename_i outside
      rw [notPending outside]
      rfl
  · refine AList.lookup_filter.trans ?_
    rw [walked.cache o]
    change (if o ∈ P.cacheOrder u.mCache.keys then
      (u.mCache.lookup o).map fun entry => { entry with isDirty := false }
      else u.mCache.lookup o) = some entry ∧ _ ↔ _
    cases found : u.mCache.lookup o with
    | none => simp
    | some entry₀ =>
        rw [if_pos (every found), Option.map_some, Option.some.injEq]
        constructor
        · rintro ⟨rfl, unspent⟩
          exact ⟨entry₀, rfl, by simpa using unspent, rfl⟩
        · rintro ⟨entry', same, unspent, rfl⟩
          cases same
          exact ⟨rfl, by simpa using unspent⟩
  · obtain ⟨states, hist, onWay⟩ := walked.history
    refine ⟨(u.beginCommit bestBlock).mDB :: states, ?_, ?_⟩
    · simp only [finishCommit, writeBatch, hist]
      simp [beginCommit, writeBatch]
    · intro D mem
      rcases List.mem_cons.mp mem with rfl | mem
      · exact ⟨rfl, rfl, rfl, fun o => .inl rfl⟩
      · obtain ⟨same, coins⟩ := onWay D mem
        exact ⟨same.leaves, same.best, same.heads, coins⟩

/-! ### The invariant of the cache -/

/-- The flags tell the truth: a clean entry is what the database holds, a dirty
leaf is cached, a cached leaf is dirty or stored, an erased leaf is not cached. -/
structure WF (u : UTXOSet) : Prop where
  clean : ∀ {o entry}, u.mCache.lookup o = some entry → entry.isDirty = false →
    entry.coin.isSpent = false ∧ u.mDB.coins.lookup o = some entry.coin
  dirtyLeaf : ∀ {k}, k ∈ u.mSpentLeafDirty → k ∈ u.mSpentLeafCache
  cachedLeaf : ∀ {k}, k ∈ u.mSpentLeafCache → k ∈ u.mSpentLeafDirty ∨ k ∈ u.mDB.leaves
  erasedLeaf : ∀ {k}, k ∈ u.mErasedLeafDirty → k ∉ u.mSpentLeafCache

theorem wf_ofDisk (db : UTXODB) : (ofDisk db).WF where
  clean := by simp [ofDisk]
  dirtyLeaf := by simp [ofDisk]
  cachedLeaf := by simp [ofDisk]
  erasedLeaf := by simp [ofDisk]

/-- The history has no part in it. -/
theorem WF.withHistory {u : UTXOSet} (wf : u.WF) (history : List UTXODB) :
    { u with mHistory := history }.WF :=
  ⟨wf.clean, wf.dirtyLeaf, wf.cachedLeaf, wf.erasedLeaf⟩

theorem WF.setBestBlock {u : UTXOSet} (wf : u.WF) (h : Bytes32) : (u.setBestBlock h).WF :=
  ⟨wf.clean, wf.dirtyLeaf, wf.cachedLeaf, wf.erasedLeaf⟩

/-- What of it is true also between a commit that failed and the next: for a clean
entry the database answers as the set does. -/
structure Truthful (u : UTXOSet) : Prop where
  settled : ∀ o, u.settled o = u.getCoin o
  dirtyLeaf : ∀ {k}, k ∈ u.mSpentLeafDirty → k ∈ u.mSpentLeafCache
  cachedLeaf : ∀ {k}, k ∈ u.mSpentLeafCache → k ∈ u.mSpentLeafDirty ∨ k ∈ u.mDB.leaves
  erasedLeaf : ∀ {k}, k ∈ u.mErasedLeafDirty → k ∉ u.mSpentLeafCache

theorem WF.truthful {u : UTXOSet} (wf : u.WF) : u.Truthful where
  settled o := by
    rw [UTXOSet.settled, getCoin_eq, pending]
    cases found : u.mCache.lookup o with
    | none => rfl
    | some entry =>
        cases flag : entry.isDirty with
        | true => simp [flag]
        | false =>
            obtain ⟨unspent, stored⟩ := wf.clean found flag
            simp [flag, UTXODB.getCoin, stored, UTXOEntry.stored, unspent]
  dirtyLeaf := wf.dirtyLeaf
  cachedLeaf := wf.cachedLeaf
  erasedLeaf := wf.erasedLeaf

theorem Truthful.setBestBlock {u : UTXOSet} (truthful : u.Truthful) (h : Bytes32) :
    (u.setBestBlock h).Truthful :=
  ⟨truthful.settled, truthful.dirtyLeaf, truthful.cachedLeaf, truthful.erasedLeaf⟩

theorem settled_cacheEntry {u : UTXOSet} {o : OutPoint} {entry : UTXOEntry}
    (dirty : entry.isDirty = true) (o' : OutPoint) :
    (u.cacheEntry o entry).settled o' = if o' = o then entry.stored else u.settled o' := by
  unfold settled pending UTXOSet.cacheEntry
  by_cases same : o' = o
  · subst same
    simp [dirty]
  · simp [same, AList.lookup_insert_ne]

theorem settled_eraseOutput (u : UTXOSet) (o o' : OutPoint) :
    (u.eraseOutput o).settled o' = if o' = o then none else u.settled o' := by
  unfold settled pending UTXOSet.eraseOutput UTXODB.getCoin
  by_cases same : o' = o
  · subst same
    simp [writeBatch, UTXODB.writeBatch, UTXODB.write]
  · simp [same, writeBatch, UTXODB.writeBatch, UTXODB.write, AList.lookup_erase_ne]

theorem WF.cacheEntry {u : UTXOSet} (wf : u.WF) (o : OutPoint) {entry : UTXOEntry}
    (dirty : entry.isDirty = true) : (u.cacheEntry o entry).WF where
  clean := by
    intro o' entry' found flag
    by_cases same : o' = o
    · subst same
      rw [UTXOSet.cacheEntry, AList.lookup_insert, Option.some.injEq] at found
      subst found
      rw [dirty] at flag
      cases flag
    · rw [UTXOSet.cacheEntry, AList.lookup_insert_ne same] at found
      exact wf.clean found flag
  dirtyLeaf := wf.dirtyLeaf
  cachedLeaf := wf.cachedLeaf
  erasedLeaf := wf.erasedLeaf

theorem Truthful.cacheEntry {u : UTXOSet} (truthful : u.Truthful) (o : OutPoint)
    {entry : UTXOEntry} (dirty : entry.isDirty = true) : (u.cacheEntry o entry).Truthful where
  settled o' := by
    rw [settled_cacheEntry dirty, getCoin_cacheEntry, truthful.settled]
    rfl
  dirtyLeaf := truthful.dirtyLeaf
  cachedLeaf := truthful.cachedLeaf
  erasedLeaf := truthful.erasedLeaf

theorem WF.eraseOutput {u : UTXOSet} (wf : u.WF) (o : OutPoint) : (u.eraseOutput o).WF where
  clean := by
    intro o' entry found flag
    have differ : o' ≠ o := by
      rintro rfl
      simp [UTXOSet.eraseOutput, writeBatch] at found
    simp only [UTXOSet.eraseOutput, writeBatch, AList.lookup_erase_ne differ] at found
    obtain ⟨unspent, stored⟩ := wf.clean found flag
    refine ⟨unspent, ?_⟩
    rw [← stored]
    exact AList.lookup_erase_ne differ
  dirtyLeaf := wf.dirtyLeaf
  cachedLeaf := wf.cachedLeaf
  erasedLeaf := wf.erasedLeaf

theorem Truthful.eraseOutput {u : UTXOSet} (truthful : u.Truthful) (o : OutPoint) :
    (u.eraseOutput o).Truthful where
  settled o' := by
    rw [settled_eraseOutput, ← getCoin_toCoinStore, toCoinStore_eraseOutput,
      CoinStore.getCoin_erase, truthful.settled, getCoin_toCoinStore]
  dirtyLeaf := truthful.dirtyLeaf
  cachedLeaf := truthful.cachedLeaf
  erasedLeaf := truthful.erasedLeaf

theorem Truthful.markNoiseLeafSpent {u : UTXOSet} (truthful : u.Truthful) (k : NoiseLeafKey) :
    (u.markNoiseLeafSpent k).Truthful where
  settled := truthful.settled
  dirtyLeaf := by
    simp only [UTXOSet.markNoiseLeafSpent, List.mem_insert_iff]
    exact fun mem => mem.imp_right truthful.dirtyLeaf
  cachedLeaf := by
    simp only [UTXOSet.markNoiseLeafSpent, List.mem_insert_iff]
    rintro k' (rfl | mem)
    · exact .inl (.inl rfl)
    · exact (truthful.cachedLeaf mem).imp_left .inr
  erasedLeaf := by
    simp only [UTXOSet.markNoiseLeafSpent, List.mem_insert_iff, List.mem_filter,
      decide_eq_true_eq]
    rintro k' ⟨mem, differ⟩ (same | cached)
    · exact differ same
    · exact truthful.erasedLeaf mem cached

theorem WF.markNoiseLeafSpent {u : UTXOSet} (wf : u.WF) (k : NoiseLeafKey) :
    (u.markNoiseLeafSpent k).WF :=
  have marked := wf.truthful.markNoiseLeafSpent k
  ⟨wf.clean, marked.dirtyLeaf, marked.cachedLeaf, marked.erasedLeaf⟩

theorem Truthful.unmarkNoiseLeafSpent {u : UTXOSet} (truthful : u.Truthful) (k : NoiseLeafKey) :
    (u.unmarkNoiseLeafSpent k).Truthful where
  settled := truthful.settled
  dirtyLeaf := by
    simp only [UTXOSet.unmarkNoiseLeafSpent, List.mem_filter]
    exact fun mem => ⟨truthful.dirtyLeaf mem.1, mem.2⟩
  cachedLeaf := by
    simp only [UTXOSet.unmarkNoiseLeafSpent, List.mem_filter]
    exact fun mem => (truthful.cachedLeaf mem.1).imp_left fun dirty => ⟨dirty, mem.2⟩
  erasedLeaf := by
    simp only [UTXOSet.unmarkNoiseLeafSpent, List.mem_insert_iff, List.mem_filter,
      decide_eq_true_eq]
    rintro k' (rfl | mem) ⟨cached, differ⟩
    · exact differ rfl
    · exact truthful.erasedLeaf mem cached

theorem WF.unmarkNoiseLeafSpent {u : UTXOSet} (wf : u.WF) (k : NoiseLeafKey) :
    (u.unmarkNoiseLeafSpent k).WF :=
  have unmarked := wf.truthful.unmarkNoiseLeafSpent k
  ⟨wf.clean, unmarked.dirtyLeaf, unmarked.cachedLeaf, unmarked.erasedLeaf⟩

/-! ### What the operations keep -/

/-- A property that the small writes to the set keep: a dirty entry cached, an
output erased, a leaf marked or unmarked. -/
structure Steady (holds : UTXOSet → Prop) : Prop where
  cacheEntry : ∀ {u : UTXOSet} (o : OutPoint) {entry : UTXOEntry}, entry.isDirty = true →
    holds u → holds (u.cacheEntry o entry)
  eraseOutput : ∀ {u : UTXOSet} (o : OutPoint), holds u → holds (u.eraseOutput o)
  markNoiseLeafSpent : ∀ {u : UTXOSet} (k : NoiseLeafKey), holds u → holds (u.markNoiseLeafSpent k)
  unmarkNoiseLeafSpent : ∀ {u : UTXOSet} (k : NoiseLeafKey), holds u →
    holds (u.unmarkNoiseLeafSpent k)

theorem WF.steady : Steady UTXOSet.WF where
  cacheEntry o _ dirty wf := wf.cacheEntry o dirty
  eraseOutput o wf := wf.eraseOutput o
  markNoiseLeafSpent k wf := wf.markNoiseLeafSpent k
  unmarkNoiseLeafSpent k wf := wf.unmarkNoiseLeafSpent k

theorem Truthful.steady : Steady UTXOSet.Truthful where
  cacheEntry o _ dirty truthful := truthful.cacheEntry o dirty
  eraseOutput o truthful := truthful.eraseOutput o
  markNoiseLeafSpent k truthful := truthful.markNoiseLeafSpent k
  unmarkNoiseLeafSpent k truthful := truthful.unmarkNoiseLeafSpent k

/-- Only commits move the set to another block. -/
theorem steady_mBestBlock (h : Bytes32) : Steady fun u => u.mBestBlock = h where
  cacheEntry _ _ _ same := same
  eraseOutput _ same := same
  markNoiseLeafSpent _ same := same
  unmarkNoiseLeafSpent _ same := same

namespace Steady

variable {holds : UTXOSet → Prop} {u : UTXOSet}

theorem foldl {α : Type} {f : UTXOSet → α → UTXOSet}
    (step : ∀ {u : UTXOSet} (a : α), holds u → holds (f u a)) (l : List α) {u : UTXOSet}
    (now : holds u) : holds (l.foldl f u) := by
  induction l generalizing u with
  | nil => exact now
  | cons a l ih => exact ih (step a now)

theorem addOutput (steady : Steady holds) {u : UTXOSet} (out : OutPoint × Coin) (now : holds u) :
    holds (u.addOutput out) :=
  steady.cacheEntry out.1 rfl now

theorem spendGathered (steady : Steady holds) {u : UTXOSet} (found : OutPoint × Coin)
    (now : holds u) : holds (u.spendGathered found) := by
  unfold UTXOSet.spendGathered
  split
  · exact steady.cacheEntry _ rfl now
  · exact steady.cacheEntry _ rfl now

theorem spendCoin (steady : Steady holds) (o : OutPoint) (now : holds u) :
    holds (u.spendCoin o).2 := by
  unfold UTXOSet.spendCoin
  split
  · split
    · exact now
    · exact steady.cacheEntry _ rfl now
  · split
    · exact now
    · split
      · exact now
      · exact steady.cacheEntry _ rfl now

theorem addCoin (steady : Steady holds) (o : OutPoint) (c : Coin) (now : holds u) :
    holds (u.addCoin o c).2 := by
  unfold UTXOSet.addCoin
  split
  · split
    · exact now
    · exact steady.cacheEntry _ rfl now
  · split
    · split
      · exact now
      · exact steady.cacheEntry _ rfl now
    · exact steady.cacheEntry _ rfl now

theorem applyTransaction (steady : Steady holds) (tx : Transaction) (height : UInt32)
    (isCoinbase : Bool) (now : holds u) : holds (u.applyTransaction tx height isCoinbase).2 := by
  unfold UTXOSet.applyTransaction
  split
  · exact foldl steady.addOutput _ now
  · split
    · exact now
    · exact foldl steady.addOutput _ (foldl steady.markNoiseLeafSpent _
        (foldl steady.spendGathered _ now))

theorem restoreInputs (steady : Steady holds) (l : List (TxInput × Coin)) : ∀ {u : UTXOSet},
    holds u → holds (UTXOSet.restoreInputs l u).2 := by
  induction l with
  | nil => exact fun now => now
  | cons found l ih =>
      intro u now
      have restored : holds (found.1.leaves.1.foldl UTXOSet.unmarkNoiseLeafSpent
          (u.cacheEntry found.1.outpoint ⟨found.2.restored, true, false⟩)) :=
        foldl steady.unmarkNoiseLeafSpent _ (steady.cacheEntry _ rfl now)
      rw [UTXOSet.restoreInputs]
      split
      · exact ih restored
      · exact restored

theorem undoTransaction (steady : Steady holds) (tx : Transaction) (spentCoins : List Coin)
    (now : holds u) : holds (u.undoTransaction tx spentCoins).2 := by
  have erased : holds (tx.outpoints.foldl UTXOSet.eraseOutput u) :=
    foldl steady.eraseOutput _ now
  unfold UTXOSet.undoTransaction
  dsimp only
  split
  · exact erased
  · split
    · exact erased
    · exact steady.restoreInputs _ erased

theorem spendCoinIfPresent (steady : Steady holds) (o : OutPoint) (now : holds u) :
    holds (u.spendCoinIfPresent o) := by
  unfold UTXOSet.spendCoinIfPresent
  split
  · split
    · exact now
    · exact steady.cacheEntry _ rfl now
  · split
    · exact now
    · split
      · exact now
      · exact steady.cacheEntry _ rfl now

theorem replayLeaves (steady : Steady holds) (keys : List NoiseLeafKey) :
    ∀ {seen : List NoiseLeafKey} {u : UTXOSet}, holds u →
      holds (UTXOSet.replayLeaves seen keys u).2 := by
  induction keys with
  | nil => exact fun now => now
  | cons key keys ih =>
      intro seen u now
      rw [UTXOSet.replayLeaves]
      split
      · exact now
      · exact ih (steady.markNoiseLeafSpent key now)

theorem replayInputs (steady : Steady holds) (inputs : List TxInput) :
    ∀ {seen : List NoiseLeafKey} {u : UTXOSet}, holds u →
      holds (UTXOSet.replayInputs seen inputs u).2 := by
  induction inputs with
  | nil => exact fun now => now
  | cons input inputs ih =>
      intro seen u now
      have spent := steady.spendCoinIfPresent input.outpoint now
      have marked : holds (UTXOSet.replayLeaves seen input.leaves.1 _).2 :=
        steady.replayLeaves _ spent
      rw [UTXOSet.replayInputs]
      split
      · exact ih spent
      · generalize UTXOSet.replayLeaves seen input.leaves.1 _ = out at marked ⊢
        rcases out with ⟨_ | seen, u⟩
        · exact marked
        · dsimp only
          split
          · exact ih marked
          · exact marked

theorem applyTransactionForReplay (steady : Steady holds) (tx : Transaction) (height : UInt32)
    (isCoinbase : Bool) (now : holds u) :
    holds (u.applyTransactionForReplay tx height isCoinbase).2 := by
  unfold UTXOSet.applyTransactionForReplay
  have inputs : holds (if isCoinbase then (true, u) else UTXOSet.replayInputs [] tx.inputs u).2 := by
    split
    · exact now
    · exact steady.replayInputs tx.inputs now
  generalize (if isCoinbase then (true, u) else UTXOSet.replayInputs [] tx.inputs u) = out
    at inputs ⊢
  rcases out with ⟨_ | _, u⟩
  · exact inputs
  · exact foldl steady.addOutput _ inputs

end Steady

theorem Committed.getCoin {bestBlock : Bytes32} {u u' : UTXOSet} (done : Committed bestBlock u u')
    (o : OutPoint) : u'.mDB.getCoin o = u.settled o := by
  rw [UTXODB.getCoin, done.stored o, settled]
  cases waits : u.pending o with
  | none => rfl
  | some coin =>
      obtain ⟨entry, -, -, rfl⟩ := pending_eq_some.mp waits
      unfold UTXOEntry.stored
      cases spent : entry.coin.isSpent <;> simp [spent]

/-- A commit that comes to its end makes up for one that did not. -/
theorem Truthful.flushCache {u : UTXOSet} (truthful : u.Truthful) (P : Params)
    (bestBlock : Bytes32) : (u.flushCache P bestBlock).WF := by
  have done := u.flushCache_spec P bestBlock
  refine ⟨?_, ?_, ?_, ?_⟩
  · intro o entry found _
    obtain ⟨entry₀, found₀, unspent, rfl⟩ := (done.cache o entry).mp found
    have answered : (u.flushCache P bestBlock).mDB.getCoin o = some entry₀.coin := by
      rw [done.getCoin, truthful.settled, getCoin_eq, found₀]
      simp [UTXOEntry.stored, unspent]
    exact ⟨unspent, (Option.filter_eq_some_iff.mp answered).1⟩
  · simp [done.noLeafDirty]
  · intro k cached
    rw [done.sameLeafCache] at cached
    refine .inr ((done.leaves k).mpr ⟨(truthful.cachedLeaf cached).symm, fun erased => ?_⟩)
    exact truthful.erasedLeaf erased cached
  · simp [done.noErased]

theorem WF.flushCache {u : UTXOSet} (wf : u.WF) (P : Params) (bestBlock : Bytes32) :
    (u.flushCache P bestBlock).WF :=
  wf.truthful.flushCache P bestBlock

/-- A commit leaves every answer as it was. -/
theorem Truthful.toCoinStore_flushCache {u : UTXOSet} (truthful : u.Truthful) (P : Params)
    (bestBlock : Bytes32) : (u.flushCache P bestBlock).toCoinStore = u.toCoinStore := by
  have done := u.flushCache_spec P bestBlock
  refine CoinStore.ext_view (fun o => ?_) fun k => ?_
  · rw [getCoin_toCoinStore, getCoin_toCoinStore, getCoin_eq, done.getCoin, truthful.settled]
    cases found : (u.flushCache P bestBlock).mCache.lookup o with
    | none => rfl
    | some entry =>
        obtain ⟨entry₀, found₀, -, rfl⟩ := (done.cache o entry).mp found
        rw [getCoin_eq, found₀]
        rfl
  · rw [mem_leaves_toCoinStore, mem_leaves_toCoinStore, done.sameLeafCache, done.noErased,
      done.leaves k]
    have dirty := @truthful.dirtyLeaf k
    simp only [List.not_mem_nil, not_false_eq_true, and_true]
    tauto

theorem toCoinStore_flushCache {u : UTXOSet} (wf : u.WF) (P : Params) (bestBlock : Bytes32) :
    (u.flushCache P bestBlock).toCoinStore = u.toCoinStore :=
  wf.truthful.toCoinStore_flushCache P bestBlock

/-- A set opened on a database answers with its coins. -/
theorem getCoin_ofDisk (db : UTXODB) (o : OutPoint) : (ofDisk db).getCoin o = db.getCoin o := by
  rw [getCoin_eq]
  simp [ofDisk]

/-- A set opened on a database after a commit answers as the set that committed. -/
theorem Truthful.toCoinStore_reopened {u : UTXOSet} (truthful : u.Truthful) (P : Params)
    (bestBlock : Bytes32) :
    (ofDisk (u.flushCache P bestBlock).mDB).toCoinStore = u.toCoinStore := by
  have done := u.flushCache_spec P bestBlock
  refine CoinStore.ext_view (fun o => ?_) fun k => ?_
  · rw [getCoin_toCoinStore, getCoin_toCoinStore, getCoin_ofDisk, done.getCoin, truthful.settled]
  · have dirty := @truthful.dirtyLeaf k
    have cached := @truthful.cachedLeaf k
    have erased := @truthful.erasedLeaf k
    rw [mem_leaves_toCoinStore, mem_leaves_toCoinStore]
    simp only [ofDisk, List.not_mem_nil, not_false_eq_true, and_true, false_or, done.leaves k]
    tauto

theorem toCoinStore_reopened {u : UTXOSet} (wf : u.WF) (P : Params) (bestBlock : Bytes32) :
    (ofDisk (u.flushCache P bestBlock).mDB).toCoinStore = u.toCoinStore :=
  wf.truthful.toCoinStore_reopened P bestBlock

end UTXOSet

end QmaskCore
