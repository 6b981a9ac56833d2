import QmaskCore.Lib.Runs
import QmaskCore.SmallNetwork
import QmaskCore.Storage.CachedStore
import QmaskCore.Storage.FailingStores

/-!
Commits that fail and leave the process running.

A coin's dirty flag is cleared when its entry joins a batch, not when the batch is
written. `flushEntriesFailing_spec` says what a commit leaves behind that throws at
its `n`-th batch: the coins of that batch wait for nothing any more, and the database
keeps what it had for them (`dropped`). No answer changes by that, but no later
commit brings the coins to the database either: `failed_flush_harmless_iff` says
for which runs nothing is lost.
-/

namespace QmaskCore

/-! ### Batches -/

/-- The `n`-th batch of a list cut into batches of `size`, the last where there are
fewer. -/
def nthBatch {α : Type} (size n : Nat) (l : List α) : List α :=
  (l.drop (min n (l.length / size) * size)).take size

section nthBatch

variable {α : Type} {size n : Nat} {full rest l : List α}

theorem mem_of_mem_nthBatch {a : α} (mem : a ∈ nthBatch size n l) : a ∈ l :=
  List.mem_of_mem_drop (List.mem_of_mem_take mem)

theorem nthBatch_of_length_lt (short : l.length < size) : nthBatch size n l = l := by
  rw [nthBatch, Nat.div_eq_of_lt short, Nat.min_zero, Nat.zero_mul, List.drop_zero,
    List.take_of_length_le short.le]

theorem nthBatch_zero_append (whole : full.length = size) :
    nthBatch size 0 (full ++ rest) = full := by
  rw [nthBatch, Nat.zero_min, Nat.zero_mul, List.drop_zero, ← whole, List.take_left']
  rfl

theorem nthBatch_succ_append (whole : full.length = size) (some : 0 < size) :
    nthBatch size (n + 1) (full ++ rest) = nthBatch size n rest := by
  have count : (full ++ rest).length / size = rest.length / size + 1 := by
    rw [List.length_append, whole, Nat.add_comm, Nat.add_div_right _ some]
  rw [nthBatch, count, Nat.succ_min_succ, Nat.succ_mul, Nat.add_comm, ← whole,
    List.drop_length_add_append]
  rfl

end nthBatch

namespace UTXOSet

/-- How many coins fill a batch. -/
def coinsPerBatch : Nat := (maxBatchSize + entrySize - 1) / entrySize

theorem maxBatchSize_le_iff (count : Nat) :
    maxBatchSize ≤ entrySize * count ↔ coinsPerBatch ≤ count := by
  simp only [maxBatchSize, entrySize, coinsPerBatch]
  omega

/-- The keys whose entries a commit would write, in the order of its walk. -/
def dirtyAmong (u : UTXOSet) (keys : List OutPoint) : List OutPoint :=
  keys.filter fun o => (u.pending o).isSome

theorem dirtyAmong_congr {u u' : UTXOSet} {keys : List OutPoint}
    (same : ∀ o ∈ keys, u'.pending o = u.pending o) : u'.dirtyAmong keys = u.dirtyAmong keys :=
  List.filter_congr fun o mem => by rw [same o mem]

/-- The coins of the batch that is not written where a commit fails. -/
def dropped (P : Params) (u : UTXOSet) : Nat → List OutPoint
  | n + 2 => nthBatch coinsPerBatch n (u.dirtyAmong (P.cacheOrder u.mCache.keys))
  | _ => []

/-! ### What a failed commit leaves -/

/-- From `u` to `u'` some coins were brought to the database and those in `lost` only
taken for it. A coin in `held` was so before. -/
structure CutOff (held lost : List OutPoint) (batch : List UTXOWrite) (u u' : UTXOSet) : Prop where
  sameBest : u'.mBestBlock = u.mBestBlock
  sameLeafCache : u'.mSpentLeafCache = u.mSpentLeafCache
  sameLeafDirty : u'.mSpentLeafDirty = u.mSpentLeafDirty
  sameErased : u'.mErasedLeafDirty = u.mErasedLeafDirty
  sameLeaves : u'.mDB.leaves = u.mDB.leaves
  cached : ∀ o, (u'.mCache.lookup o).map UTXOEntry.stored = (u.mCache.lookup o).map UTXOEntry.stored
  settled : ∀ o, u'.settled o =
    if o ∈ lost then u.mDB.getCoin o
    else if o ∈ held then (u.mDB.writeBatch batch).getCoin o else u.settled o

/-- A batch that writes coins under the outpoints of a list only. -/
def WritesAmong (held : List OutPoint) (batch : List UTXOWrite) : Prop :=
  CoinsOnly batch ∧ ∀ (D : UTXODB), ∀ o ∉ held, (D.writeBatch batch).getCoin o = D.getCoin o

theorem WritesAmong.nil : WritesAmong [] [] := ⟨by simp [CoinsOnly], fun _ _ _ => rfl⟩

theorem getCoin_entryWrite (D : UTXODB) (o o' : OutPoint) (entry : UTXOEntry) :
    (D.write (entryWrite o entry)).getCoin o' = if o' = o then entry.stored else D.getCoin o' := by
  rw [UTXODB.getCoin, lookup_entryWrite]
  split
  · unfold UTXOEntry.stored
    cases spent : entry.coin.isSpent <;> simp [spent]
  · rfl

theorem WritesAmong.append {held : List OutPoint} {batch : List UTXOWrite}
    (among : WritesAmong held batch) (o : OutPoint) (entry : UTXOEntry) :
    WritesAmong (held ++ [o]) (batch ++ [entryWrite o entry]) := by
  refine ⟨coinsOnly_append among.1 o entry, fun D o' outside => ?_⟩
  rw [List.mem_append, List.mem_singleton, not_or] at outside
  rw [UTXODB.writeBatch_append]
  refine (getCoin_entryWrite (D.writeBatch batch) o o' entry).trans ?_
  rw [if_neg outside.2, among.2 D o' outside.1]

/-- An entry loses its flag as it joins the batch. -/
def joined (u : UTXOSet) (o : OutPoint) (entry : UTXOEntry) : UTXOSet :=
  u.cacheEntry o { entry with isDirty := false }

theorem pending_joined (u : UTXOSet) (o o' : OutPoint) (entry : UTXOEntry) :
    (u.joined o entry).pending o' = if o' = o then none else u.pending o' := by
  unfold pending joined UTXOSet.cacheEntry
  by_cases same : o' = o
  · subst same
    simp
  · simp [same, AList.lookup_insert_ne]

theorem stored_joined {u : UTXOSet} {o : OutPoint} {entry : UTXOEntry}
    (found : u.mCache.lookup o = some entry) (o' : OutPoint) :
    ((u.joined o entry).mCache.lookup o').map UTXOEntry.stored =
      (u.mCache.lookup o').map UTXOEntry.stored := by
  unfold joined UTXOSet.cacheEntry
  by_cases same : o' = o
  · subst same
    simp [found, UTXOEntry.stored]
  · simp [same, AList.lookup_insert_ne]

theorem settled_joined {u : UTXOSet} {key o : OutPoint} {entry : UTXOEntry} (differ : o ≠ key) :
    (u.joined key entry).settled o = u.settled o := by
  rw [UTXOSet.settled, pending_joined, if_neg differ]
  rfl

section CutOff

variable {held lost : List OutPoint} {batch : List UTXOWrite} {u u' : UTXOSet} {key : OutPoint}
  {entry : UTXOEntry}

/-- The key whose entry joins the batch is held from then on. -/
theorem CutOff.join (waits : u.pending key = some entry.stored)
    (found : u.mCache.lookup key = some entry) (outside : key ∉ held)
    (cut : CutOff (held ++ [key]) lost (batch ++ [entryWrite key entry]) (u.joined key entry) u') :
    CutOff held lost batch u u' where
  sameBest := cut.sameBest
  sameLeafCache := cut.sameLeafCache
  sameLeafDirty := cut.sameLeafDirty
  sameErased := cut.sameErased
  sameLeaves := cut.sameLeaves
  cached o := (cut.cached o).trans (stored_joined found o)
  settled o := by
    rw [cut.settled o]
    split
    · rfl
    · have written : (u.mDB.writeBatch (batch ++ [entryWrite key entry])).getCoin o =
          if o = key then entry.stored else (u.mDB.writeBatch batch).getCoin o := by
        rw [UTXODB.writeBatch_append]
        exact getCoin_entryWrite (u.mDB.writeBatch batch) key o entry
      by_cases same : o = key
      · subst same
        rw [if_pos (by simp), if_neg outside, UTXOSet.settled, waits]
        exact written.trans (if_pos rfl)
      · by_cases mem : o ∈ held
        · rw [if_pos (by simp [mem]), if_pos mem]
          exact written.trans (if_neg same)
        · rw [if_neg (by simp [mem, same]), if_neg mem, settled_joined same]

/-- What is held reaches the database with the batch. -/
theorem CutOff.send (among : WritesAmong held batch) (idle : ∀ o ∈ held, u.pending o = none)
    (apart : ∀ o ∈ lost, o ∉ held) (cut : CutOff [] lost [] (u.writeBatch batch) u') :
    CutOff held lost batch u u' where
  sameBest := cut.sameBest
  sameLeafCache := cut.sameLeafCache
  sameLeafDirty := cut.sameLeafDirty
  sameErased := cut.sameErased
  sameLeaves := cut.sameLeaves.trans (UTXODB.sameButCoins_writeBatch among.1 u.mDB).leaves
  cached := cut.cached
  settled o := by
    rw [cut.settled o, if_neg (List.not_mem_nil (a := o))]
    split
    · rename_i mem
      exact among.2 u.mDB o (apart o mem)
    · change (u.pending o).getD ((u.mDB.writeBatch batch).getCoin o) = _
      split
      · rename_i mem
        rw [idle o mem]
        rfl
      · rename_i outside
        rw [among.2 u.mDB o outside]
        rfl

/-- The batch that fails takes what is held with it. -/
theorem CutOff.drop (idle : ∀ o ∈ held, u.pending o = none) : CutOff held held batch u u where
  sameBest := rfl
  sameLeafCache := rfl
  sameLeafDirty := rfl
  sameErased := rfl
  sameLeaves := rfl
  cached _ := rfl
  settled o := by
    split
    · rename_i mem
      rw [UTXOSet.settled, idle o mem]
      rfl
    · rfl

end CutOff

theorem flushEntriesFailing_spec (keys : List OutPoint) : ∀ {n : Nat} {held : List OutPoint}
    {batch : List UTXOWrite} {u : UTXOSet}, keys.Nodup → (∀ o ∈ held, o ∉ keys) →
    WritesAmong held batch → (∀ o ∈ held, u.pending o = none) → held.length < coinsPerBatch →
    CutOff held (nthBatch coinsPerBatch n (held ++ u.dirtyAmong keys)) batch u
      (flushEntriesFailing n keys batch (entrySize * held.length) u) := by
  induction keys with
  | nil =>
      intro n held batch u _ _ _ idle short
      rw [dirtyAmong, List.filter_nil, List.append_nil, nthBatch_of_length_lt short]
      exact .drop idle
  | cons key keys ih =>
      intro n held batch u distinct apart among idle short
      obtain ⟨fresh, distinct⟩ := List.nodup_cons.mp distinct
      have apart' : ∀ o ∈ held, o ∉ keys := fun o mem later =>
        apart o mem (List.mem_cons_of_mem key later)
      rw [flushEntriesFailing]
      cases waits : u.pending key with
      | none =>
          have idleKey : u.dirtyAmong (key :: keys) = u.dirtyAmong keys := by
            simp [dirtyAmong, waits]
          rw [idleKey]
          cases found : u.mCache.lookup key with
          | none => exact ih distinct apart' among idle short
          | some entry =>
              have clean : entry.isDirty = false := by
                rw [pending, found] at waits
                simpa using waits
              simp only [clean, Bool.not_false, if_true]
              exact ih distinct apart' among idle short
      | some coin =>
          obtain ⟨entry, found, dirty, rfl⟩ := pending_eq_some.mp waits
          have outside : key ∉ held := fun mem => apart key mem List.mem_cons_self
          -- The key joins what is held.
          have dirtyKey : held ++ u.dirtyAmong (key :: keys) =
              (held ++ [key]) ++ (u.joined key entry).dirtyAmong keys := by
            have same : ∀ o ∈ keys, (u.joined key entry).pending o = u.pending o := by
              intro o mem
              rw [pending_joined, if_neg]
              rintro rfl
              exact fresh mem
            rw [dirtyAmong_congr same]
            simp [dirtyAmong, waits]
          have longer : (held ++ [key]).length = held.length + 1 := by simp
          have idle' : ∀ o ∈ held ++ [key], (u.joined key entry).pending o = none := by
            intro o mem
            rw [pending_joined]
            split
            · rfl
            · rename_i differ
              rcases List.mem_append.mp mem with mem | mem
              · exact idle o mem
              · exact absurd (List.mem_singleton.mp mem) differ
          have among' := among.append key entry
          have apart'' : ∀ o ∈ held ++ [key], o ∉ keys := by
            intro o mem
            rcases List.mem_append.mp mem with mem | mem
            · exact apart' o mem
            · rwa [List.mem_singleton.mp mem]
          have size : entrySize * held.length + entrySize = entrySize * (held ++ [key]).length := by
            rw [longer, Nat.mul_succ]
          rw [found, dirtyKey]
          simp only [dirty, Bool.not_true, Bool.false_eq_true, if_false, size, maxBatchSize_le_iff]
          refine CutOff.join waits found outside ?_
          split
          · rename_i full
            have whole : (held ++ [key]).length = coinsPerBatch := by omega
            cases n with
            | zero =>
                rw [nthBatch_zero_append whole]
                exact .drop idle'
            | succ n =>
                have rest := @ih n [] []
                  ((u.joined key entry).writeBatch (batch ++ [entryWrite key entry])) distinct
                  (by simp) .nil (by simp) (by decide)
                rw [nthBatch_succ_append whole (by decide)]
                refine CutOff.send among' idle' (fun o mem here => ?_) rest
                exact apart'' o here (List.mem_of_mem_filter (mem_of_mem_nthBatch mem))
          · exact ih distinct apart'' among' idle' (by omega)

/-- The batch that fails carries these coins, and no other coin loses its place. -/
theorem flushFailing_spec (P : Params) (failure : Nat) (u : UTXOSet) :
    CutOff [] (u.dropped P failure) [] u (u.flushFailing P (some failure)).2 := by
  match failure with
  | 0 => exact .drop (by simp)
  | 1 => exact .drop (by simp)
  | n + 2 =>
      have distinct : (P.cacheOrder u.mCache.keys).Nodup :=
        (P.cacheOrder_perm u.mCache.keys).nodup_iff.mpr u.mCache.keys_nodup
      -- The marker leaves the coins as they are.
      have cut := @flushEntriesFailing_spec (P.cacheOrder u.mCache.keys) n [] []
        (u.beginCommit u.mBestBlock) distinct (by simp) .nil (by simp) (by decide)
      exact ⟨cut.sameBest, cut.sameLeafCache, cut.sameLeafDirty, cut.sameErased, cut.sameLeaves,
        cut.cached, cut.settled⟩

theorem pending_of_mem_dropped {P : Params} {u : UTXOSet} {failure : Nat} {o : OutPoint}
    (mem : o ∈ u.dropped P failure) : (u.pending o).isSome = true := by
  match failure, mem with
  | n + 2, mem => exact (List.mem_filter.mp (mem_of_mem_nthBatch mem)).2

/-- A commit that fails changes no answer about coins. -/
theorem getCoin_flushFailing (P : Params) (failure : Nat) (u : UTXOSet) (o : OutPoint) :
    (u.flushFailing P (some failure)).2.getCoin o = u.getCoin o := by
  have cut := u.flushFailing_spec P failure
  have cached := cut.cached o
  rw [getCoin_eq, getCoin_eq, cached]
  cases found : u.mCache.lookup o with
  | some entry => rfl
  | none =>
      have idle : u.pending o = none := by rw [pending, found]; rfl
      have gone : (u.flushFailing P (some failure)).2.mCache.lookup o = none := by
        rwa [found, Option.map_none, Option.map_eq_none_iff] at cached
      have kept := cut.settled o
      rw [if_neg, if_neg (List.not_mem_nil (a := o)), settled, settled, pending, gone, idle] at kept
      · exact kept
      · intro mem
        have waits := pending_of_mem_dropped mem
        rw [idle] at waits
        cases waits

/-- Nor one about leaves, which go into the last batch only. -/
theorem isNoiseLeafSpent_flushFailing (P : Params) (failure : Nat) (u : UTXOSet)
    (key : NoiseLeafKey) :
    (u.flushFailing P (some failure)).2.isNoiseLeafSpent key = u.isNoiseLeafSpent key := by
  have cut := u.flushFailing_spec P failure
  rw [isNoiseLeafSpent, cut.sameLeafCache, cut.sameErased, cut.sameLeaves]
  rfl

theorem toCoinStore_flushFailing (P : Params) (failure : Nat) (u : UTXOSet) :
    (u.flushFailing P (some failure)).2.toCoinStore = u.toCoinStore := by
  have cut := u.flushFailing_spec P failure
  refine CoinStore.ext_view (fun o => ?_) fun k => ?_
  · rw [getCoin_toCoinStore, getCoin_toCoinStore, getCoin_flushFailing]
  · rw [mem_leaves_toCoinStore, mem_leaves_toCoinStore, cut.sameLeafCache, cut.sameErased,
      cut.sameLeaves]

/-- For the coins of the batch that failed the database is left with what it had. -/
theorem Truthful.settled_flushFailing {u : UTXOSet} (truthful : u.Truthful) (P : Params)
    (failure : Nat) (o : OutPoint) : (u.flushFailing P (some failure)).2.settled o =
      if o ∈ u.dropped P failure then u.mDB.getCoin o else u.getCoin o := by
  rw [(u.flushFailing_spec P failure).settled o, if_neg (List.not_mem_nil (a := o)),
    truthful.settled]

/-- Nothing is lost where that is what is answered. -/
theorem Truthful.flushFailing {u : UTXOSet} (truthful : u.Truthful) {P : Params} {failure : Nat}
    (held : ∀ o ∈ u.dropped P failure, u.mDB.getCoin o = u.getCoin o) :
    (u.flushFailing P (some failure)).2.Truthful := by
  have cut := u.flushFailing_spec P failure
  refine ⟨fun o => ?_, ?_, ?_, ?_⟩
  · rw [truthful.settled_flushFailing, getCoin_flushFailing]
    split
    · rename_i mem
      exact held o mem
    · rfl
  · rw [cut.sameLeafDirty, cut.sameLeafCache]
    exact truthful.dirtyLeaf
  · rw [cut.sameLeafDirty, cut.sameLeafCache, cut.sameLeaves]
    exact truthful.cachedLeaf
  · rw [cut.sameErased, cut.sameLeafCache]
    exact truthful.erasedLeaf

end UTXOSet

/-! ### Runs in which commits fail -/

/-- What can happen to the set while the process runs. -/
inductive FlushOp where
  | op (op : CoinOp)
  | setBestBlock (blockHash : Bytes32)
  | replay (tx : Transaction) (height : UInt32) (isCoinbase : Bool)
  /-- A commit throws: at its first read, at the marker, or at a batch behind it. -/
  | flushFails (failure : Nat)

def UTXOSet.stepFlush (P : Params) (u : UTXOSet) : FlushOp → UTXOSet
  | .op op => (u.step P op).2
  | .setBestBlock blockHash => u.setBestBlock blockHash
  | .replay tx height isCoinbase => (u.applyTransactionForReplay tx height isCoinbase).2
  | .flushFails failure => (u.flushFailing P (some failure)).2

/-- In the plain store a commit does nothing, failed or not. -/
def CoinStore.stepFlush (V : CoinStore) : FlushOp → CoinStore
  | .op op => (V.step op).2
  | .setBestBlock _ => V
  | .replay tx height isCoinbase => (V.applyTransactionForReplay tx height isCoinbase).2
  | .flushFails _ => V

/-- The set answers `GetCoin` and `IsNoiseLeafSpent` as the store does. -/
def UTXOSet.AnswersAs (u : UTXOSet) (V : CoinStore) : Prop :=
  (∀ outpoint, u.getCoin outpoint = V.getCoin outpoint) ∧
    ∀ key, u.isNoiseLeafSpent key = V.isNoiseLeafSpent key

theorem UTXOSet.answersAs_toCoinStore (u : UTXOSet) : u.AnswersAs u.toCoinStore :=
  ⟨fun o => (u.getCoin_toCoinStore o).symm, fun k => (u.isNoiseLeafSpent_toCoinStore k).symm⟩

/-- The set opened on the database alone, after a commit that comes to its end. -/
def UTXOSet.reopened (P : Params) (u : UTXOSet) : UTXOSet := ofDisk (u.flush P).mDB

/-- A commit fails, if it does, where the database already holds what is answered for
each coin of the batch that is not written: at the read, at the marker, at a batch of
leaves only, or at one that would change none of its coins. -/
def UTXOSet.Spares (P : Params) (u : UTXOSet) : FlushOp → Prop
  | .flushFails failure => ∀ o ∈ u.dropped P failure, u.mDB.getCoin o = u.getCoin o
  | _ => True

instance (P : Params) (u : UTXOSet) (op : FlushOp) : Decidable (u.Spares P op) := by
  cases op <;> unfold UTXOSet.Spares <;> infer_instance

namespace UTXOSet

theorem getCoin_reopened (P : Params) (u : UTXOSet) (o : OutPoint) :
    (u.reopened P).getCoin o = u.settled o := by
  rw [reopened, getCoin_ofDisk, flush, (u.flushCache_spec P u.mBestBlock).getCoin]

theorem Truthful.answersAs_reopened {u : UTXOSet} (truthful : u.Truthful) (P : Params) :
    (u.reopened P).AnswersAs u.toCoinStore := by
  rw [← truthful.toCoinStore_reopened P u.mBestBlock]
  exact answersAs_toCoinStore _

/-- A step that spares the coins keeps the flags true. -/
theorem Truthful.stepFlush {u : UTXOSet} (truthful : u.Truthful) {P : Params} {op : FlushOp}
    (spares : u.Spares P op) : (u.stepFlush P op).Truthful := by
  cases op with
  | op op => exact truthful.step P op
  | setBestBlock h => exact truthful.setBestBlock h
  | replay tx height isCoinbase =>
      exact Truthful.steady.applyTransactionForReplay tx height isCoinbase truthful
  | flushFails failure => exact truthful.flushFailing spares

theorem toCoinStore_stepFlush {u : UTXOSet} (truthful : u.Truthful) (P : Params) (op : FlushOp) :
    (u.stepFlush P op).toCoinStore = u.toCoinStore.stepFlush op := by
  cases op with
  | op op => exact toCoinStore_step_snd truthful P op
  | setBestBlock h => exact u.toCoinStore_setBestBlock h
  | replay tx height isCoinbase =>
      rw [CoinStore.stepFlush, ← toCoinStore_applyTransactionForReplay]
      rfl
  | flushFails failure => exact u.toCoinStore_flushFailing P failure

/-- A commit that loses a coin shows after the next. -/
theorem spares_of_reopened {u : UTXOSet} (truthful : u.Truthful) {P : Params} {op : FlushOp}
    (answers : ((u.stepFlush P op).reopened P).AnswersAs (u.toCoinStore.stepFlush op)) :
    u.Spares P op := by
  cases op with
  | flushFails failure =>
      intro o mem
      have same := answers.1 o
      rwa [getCoin_reopened, stepFlush, truthful.settled_flushFailing, if_pos mem, CoinStore.stepFlush,
        getCoin_toCoinStore] at same
  | _ => trivial

end UTXOSet

/-- **Failed commits.** A commit that fails changes no answer. What is reopened after a
later commit answers as the plain store, all along a run, exactly when each commit that
fails in it spares the coins. -/
theorem failed_flush_harmless_iff (P : Params) (db : UTXODB) (ops : List FlushOp) :
    (∀ (u : UTXOSet) (failure : Nat),
      (∀ o, (u.flushFailing P (some failure)).2.getCoin o = u.getCoin o) ∧
      ∀ key, (u.flushFailing P (some failure)).2.isNoiseLeafSpent key = u.isNoiseLeafSpent key) ∧
    (Run.Meets (UTXOSet.stepFlush P) (UTXOSet.Spares P) ops (.ofDisk db) ↔
      ∀ k, (((ops.take k).foldl (UTXOSet.stepFlush P) (.ofDisk db)).reopened P).AnswersAs
        ((ops.take k).foldl CoinStore.stepFlush (.ofDisk db))) := by
  refine ⟨fun u failure => ⟨u.getCoin_flushFailing P failure,
    u.isNoiseLeafSpent_flushFailing P failure⟩, ?_⟩
  -- The set and the store run side by side; up to a loss the one reads as the other.
  let both (s : UTXOSet × CoinStore) (op : FlushOp) := (s.1.stepFlush P op, s.2.stepFlush op)
  have all := @Run.meets_iff_forall_take _ _ both (fun s op => s.1.Spares P op)
    (fun s => s.1.Truthful ∧ s.1.toCoinStore = s.2)
    (fun s => (s.1.reopened P).AnswersAs s.2)
    (fun s now => now.2 ▸ now.1.answersAs_reopened P)
    (fun s op now spares => ⟨now.1.stepFlush spares, by rw [UTXOSet.toCoinStore_stepFlush now.1, now.2]⟩)
    (fun s op now answers => UTXOSet.spares_of_reopened now.1 (by rwa [now.2]))
    ops (.ofDisk db, .ofDisk db)
    ⟨(UTXOSet.wf_ofDisk db).truthful, UTXOSet.toCoinStore_ofDisk db⟩
  have first := @Run.meets_map _ _ (UTXOSet.stepFlush P) (UTXOSet.Spares P) _ both Prod.fst
    (fun _ _ => rfl) ops (.ofDisk db, .ofDisk db)
  rw [← first, all]
  refine forall_congr' fun k => ?_
  rw [List.foldl_hom₂ (ops.take k) Prod.mk (UTXOSet.stepFlush P) CoinStore.stepFlush both (.ofDisk db)
    (.ofDisk db) fun _ _ _ => rfl]

/-- The coin of a transaction is stored, the last batch of the first commit fails, and
the second commit comes to its end. -/
theorem failed_flush_loses_coin :
    let ops : List FlushOp := [.op (.addCoin ⟨1, 0⟩ ⟨50, 1, 1, false, false⟩), .flushFails 2]
    ((ops.foldl (UTXOSet.stepFlush smallNetwork) (.ofDisk .empty)).reopened smallNetwork).getCoin ⟨1, 0⟩ =
        none ∧
      (ops.foldl CoinStore.stepFlush (.ofDisk .empty)).getCoin ⟨1, 0⟩ =
        some ⟨50, 1, 1, false, false⟩ := by
  decide

end QmaskCore
