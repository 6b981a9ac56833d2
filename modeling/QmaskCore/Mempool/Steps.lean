import QmaskCore.Mempool.Invariant

/-!
What each operation of the pool does to its entries.

`addTransaction_cases` says that expiry comes first and that the transaction is
then refused, or entered and the pool trimmed. `removeForBlock_drops` says
which entries a block takes out: those a transaction of the block touches, and
what depends on them. `mempool_consistent` draws the conclusion for runs.
-/

namespace QmaskCore

namespace Mempool

variable {Rate : Type} {s s' : Mempool Rate}

/-! ### Adding -/

section

variable (A : RateArith Rate) (P : Params) (tx : Transaction) (fee now : Int)

/-- The pool accepts the transaction, its expired entries taken out. -/
structure Admits (s : Mempool Rate) : Prop where
  valid : validateForPool A P tx fee s = true
  free : s.conflictFree tx = true
  sized : P.getSerializedSize tx ≠ 0
  paid : (getMinFeeRateLocked A now s).1 ≤ feePerK fee (P.getSerializedSize tx)
  limits : s.withinLimits tx = true

/-- The decay of the rolling rate is all the fee check may change. -/
theorem getMinFeeRateLocked_snd (s : Mempool Rate) : ∃ rate update,
    (getMinFeeRateLocked A now s).2 =
      { s with mRollingMinFeeRate := rate, mLastRollingFeeUpdate := update } := by
  unfold getMinFeeRateLocked
  split
  · exact ⟨_, _, rfl⟩
  · split
    · dsimp only
      generalize A.decay s.mRollingMinFeeRate (now - s.mLastRollingFeeUpdate) _ = rate
      split
      · exact ⟨_, _, rfl⟩
      · exact ⟨_, _, rfl⟩
    · exact ⟨_, _, rfl⟩

/-- Refused, or entered with the pool trimmed. -/
theorem addTransaction_cases (s : Mempool Rate) : ∃ rate update,
    let t := s.expireLocked now
    let rated := { t with mRollingMinFeeRate := rate, mLastRollingFeeUpdate := update }
    let trimmed := trimLocked A now (insert P tx fee now rated)
    (¬ t.Admits A P tx fee now ∧ addTransaction A P tx fee now s = (false, rated)) ∨
      (t.Admits A P tx fee now ∧ addTransaction A P tx fee now s =
        ((trimmed.mIndex.lookup tx.hash).isSome, trimmed)) := by
  unfold addTransaction
  dsimp only
  generalize s.expireLocked now = t
  have same : t = { t with
      mRollingMinFeeRate := t.mRollingMinFeeRate
      mLastRollingFeeUpdate := t.mLastRollingFeeUpdate } := rfl
  split
  · rename_i invalid
    exact ⟨_, _, .inl ⟨fun admits => by simp [admits.valid] at invalid, congrArg _ same⟩⟩
  split
  · rename_i conflict
    exact ⟨_, _, .inl ⟨fun admits => by simp [admits.free] at conflict, congrArg _ same⟩⟩
  split
  · rename_i unsized
    exact ⟨_, _, .inl ⟨fun admits => admits.sized unsized, congrArg _ same⟩⟩
  rename_i valid free sized
  obtain ⟨rate, update, rated⟩ := getMinFeeRateLocked_snd A now t
  refine ⟨rate, update, ?_⟩
  rw [← rated]
  split
  · rename_i low
    exact .inl ⟨fun admits => absurd admits.paid (by omega), rfl⟩
  have limits : (getMinFeeRateLocked A now t).2.withinLimits tx = t.withinLimits tx := by
    rw [rated]
    rfl
  split
  · rename_i long
    rw [limits] at long
    exact .inl ⟨fun admits => by simp [admits.limits] at long, rfl⟩
  · rename_i paid short
    rw [limits] at short
    exact .inr ⟨⟨by simpa using valid, by simpa using free, sized, by omega, by simpa using short⟩,
      rfl⟩

end

theorem validateForPool_eq_true {A : RateArith Rate} {P : Params} {tx : Transaction} {fee : Int} :
    validateForPool A P tx fee s = true ↔ A.isValid tx = true ∧ tx.isCoinbase = false ∧ 0 ≤ fee ∧
      s.mIndex.lookup tx.hash = none ∧ 0 ≤ P.getValueOut tx ∧ P.dustThreshold ≤ P.getValueOut tx := by
  simp only [validateForPool, Bool.and_eq_true, Bool.not_eq_true', decide_eq_true_eq,
    Option.isNone_iff_eq_none, and_assoc]

/-- An addition in three moves: the expired entries go, the transaction is
entered if it is admitted, and the pool is trimmed if it was. -/
structure Adds (A : RateArith Rate) (P : Params) (tx : Transaction) (fee now : Int)
    (s t u s' : Mempool Rate) (gone : Set Bytes32) : Prop where
  expires : Drops s t (s.enteredBefore (now - expirySeconds))
  enters : u = t ∨ validateForPool A P tx fee t = true ∧ t.conflictFree tx = true ∧
    P.getSerializedSize tx ≠ 0 ∧ u = insert P tx fee now t
  evicts : Drops u s' gone
  down : u.Downward gone
  within : u = t ∨ s'.mTotalBytes ≤ s'.mMaxBytes

theorem addTransaction_adds (A : RateArith Rate) (P : Params) (tx : Transaction) (fee now : Int)
    (wf : s.WF) : ∃ t u gone, Adds A P tx fee now s t u (addTransaction A P tx fee now s).2 gone := by
  obtain ⟨rate, update, ⟨-, out⟩ | ⟨admits, out⟩⟩ := addTransaction_cases A P tx fee now s
  · rw [out]
    have expires := (expireLocked_drops now wf).rated rate update
      (s.expireLocked now).mBlockSinceFeeBump
    refine ⟨_, _, ∅, ⟨expires, .inl rfl, .refl expires.wf, ?_, .inl rfl⟩⟩
    exact fun _ none => none.elim
  · rw [out]
    have expires := (expireLocked_drops now wf).rated rate update
      (s.expireLocked now).mBlockSinceFeeBump
    have new := (validateForPool_eq_true.mp admits.valid).2.2.2.1
    have entered := expires.wf.insert P fee now new admits.free
    obtain ⟨within, gone, evicts, down⟩ := trimLocked_spec A now entered
    refine ⟨_, _, gone, ⟨expires, .inr ⟨?_, admits.free, admits.sized, rfl⟩, evicts, down, .inr within⟩⟩
    exact admits.valid

/-- What is in the pool after an addition was there before or has just been entered. -/
theorem Adds.lookup {A : RateArith Rate} {P : Params} {tx : Transaction} {fee now : Int}
    {t u : Mempool Rate} {gone : Set Bytes32} (adds : Adds A P tx fee now s t u s' gone)
    {h : Bytes32} {e : Entry} (found : s'.mIndex.lookup h = some e) :
    t.mIndex.lookup h = some e ∨ validateForPool A P tx fee t = true ∧ t.conflictFree tx = true ∧
      P.getSerializedSize tx ≠ 0 ∧ h = tx.hash ∧ e = newEntry P tx fee now t := by
  have found := adds.evicts.sub found
  rcases adds.enters with rfl | ⟨valid, free, sized, rfl⟩
  · exact .inl found
  · rw [lookup_insert] at found
    split at found
    · rename_i same
      cases found
      exact .inr ⟨valid, free, sized, same, rfl⟩
    · exact .inl found

/-! ### A block -/

/-- The leaves a transaction consumes: none when a proof does not parse. -/
def consumedLeaves (tx : Transaction) : List NoiseLeafKey :=
  match extractLeafKeys tx.inputs with
  | (_, false) => []
  | (keys, true) => keys

/-- A transaction of a block touches an entry of the pool: it is the same, or
it spends an outpoint or consumes a leaf of the entry's. -/
def Touches (tx : Transaction) (h : Bytes32) (e : Entry) : Prop :=
  tx.isCoinbase = false ∧ (h = tx.hash ∨ (∃ o ∈ outpoints tx, o ∈ outpoints e.tx) ∨
    ∃ key ∈ consumedLeaves tx, key ∈ e.leafKeys)

/-- The entries that pass a test, with what depends on them. -/
def below (s : Mempool Rate) (hit : Bytes32 → Entry → Prop) : Set Bytes32 :=
  {h | ∃ a e, s.mIndex.lookup a = some e ∧ hit a e ∧ s.DescendsFrom a h}

theorem downward_below (s : Mempool Rate) (hit : Bytes32 → Entry → Prop) :
    s.Downward (s.below hit) := by
  rintro a ⟨b, e, found, passes, path⟩ c spends
  exact ⟨b, e, found, passes, path.tail spends⟩

/-- What depends on a dropped transaction is dropped. -/
theorem Downward.descends {gone : Set Bytes32} (down : s.Downward gone) {a b : Bytes32}
    (path : s.DescendsFrom a b) (out : a ∈ gone) : b ∈ gone := by
  induction path with
  | refl => exact out
  | tail _ spends ih => exact down _ ih _ spends

/-- A chain of spends is left whole, or its end goes. -/
theorem Drops.descends {gone : Set Bytes32} (drops : Drops s s' gone) (down : s.Downward gone)
    {a b : Bytes32} (path : s.DescendsFrom a b) : b ∈ gone ∨ s'.DescendsFrom a b := by
  induction path with
  | refl => exact .inr .refl
  | tail _ spends ih =>
      rename_i b c _
      by_cases out : c ∈ gone
      · exact .inl out
      · rcases ih with early | path
        · exact .inl (down _ early _ spends)
        · by_cases early : b ∈ gone
          · exact .inl (down _ early _ spends)
          · exact .inr (path.tail (drops.spendsFrom.mpr ⟨spends, early, out⟩))

/-- Two passes drop what one would. -/
theorem Drops.below_or {s'' : Mempool Rate} {hit hit' : Bytes32 → Entry → Prop}
    (first : Drops s s' (s.below hit)) (second : Drops s' s'' (s'.below hit')) :
    Drops s s'' (s.below fun h e => hit h e ∨ hit' h e) := by
  refine (first.trans second).congr fun h e _ => ?_
  constructor
  · rintro (⟨a, e, found, passes, path⟩ | ⟨a, e, found, passes, path⟩)
    · exact ⟨a, e, found, .inl passes, path⟩
    · refine ⟨a, e, first.sub found, .inr passes, ?_⟩
      exact Relation.ReflTransGen.mono (fun _ _ spends => (first.spendsFrom.mp spends).1) _ _ path
  · rintro ⟨a, e, found, passes, path⟩
    by_cases out : a ∈ s.below hit
    · exact .inl ((downward_below s hit).descends path out)
    · rcases passes with passes | passes
      · exact absurd ⟨a, e, found, passes, .refl⟩ out
      · rcases first.descends (downward_below s hit) path with early | path
        · exact .inl early
        · exact .inr ⟨a, e, first.lookup.mpr ⟨found, out⟩, passes, path⟩

theorem Drops.below_congr {hit hit' : Bytes32 → Entry → Prop} (drops : Drops s s' (s.below hit))
    (same : ∀ h e, s.mIndex.lookup h = some e → (hit h e ↔ hit' h e)) :
    Drops s s' (s.below hit') := by
  refine drops.congr fun h _ _ => ?_
  constructor
  · rintro ⟨a, e, found, passes, path⟩
    exact ⟨a, e, found, (same a e found).mp passes, path⟩
  · rintro ⟨a, e, found, passes, path⟩
    exact ⟨a, e, found, (same a e found).mpr passes, path⟩

/-- One pass for each element of a list. -/
theorem drops_foldl_below {α : Type} {pass : α → Mempool Rate → Mempool Rate}
    {hit : α → Bytes32 → Entry → Prop}
    (one : ∀ a {s : Mempool Rate}, s.WF → Drops s (pass a s) (s.below (hit a))) :
    ∀ (l : List α) {s : Mempool Rate}, s.WF →
      Drops s (l.foldl (fun s a => pass a s) s) (s.below fun h e => ∃ a ∈ l, hit a h e) := by
  intro l
  induction l with
  | nil =>
      intro s wf
      refine (Drops.refl wf).congr fun h _ _ => iff_of_false id ?_
      rintro ⟨a, e, -, ⟨b, mem, -⟩, -⟩
      cases mem
  | cons a l ih =>
      intro s wf
      have first := one a wf
      refine (first.below_or (ih first.wf)).below_congr fun h e _ => ?_
      rw [List.exists_mem_cons_iff]

theorem removeRecursive_below (wf : s.WF) (hashKey : Bytes32) :
    Drops s (removeRecursiveLocked hashKey s) (s.below fun h _ => h = hashKey) := by
  refine (drops_removeRecursive wf hashKey).congr fun h e found => ?_
  constructor
  · intro path
    -- The start is in the pool: it is the end, or an output of it is spent.
    rcases Relation.ReflTransGen.cases_head path with rfl | ⟨b, ⟨first, -, there, -⟩, -⟩
    · exact ⟨_, e, found, rfl, path⟩
    · exact ⟨_, first, there, rfl, path⟩
  · rintro ⟨a, e, -, rfl, path⟩
    exact path

/-- Whoever an index names for a key goes. -/
theorem removeHolder_below {κ : Type} [DecidableEq κ] {m : AList fun _ : κ => Bytes32}
    {keys : Entry → List κ} (wf : s.WF) (ix : m.Indexes s.mIndex keys) (key : κ) :
    Drops s (removeHolder (m.lookup key) s) (s.below fun _ e => key ∈ keys e) := by
  unfold removeHolder
  cases holder : m.lookup key with
  | none =>
      refine (Drops.refl wf).congr fun h _ _ => iff_of_false id ?_
      rintro ⟨a, e, found, mine, -⟩
      rw [ix.lookup found mine] at holder
      cases holder
  | some hashKey =>
      obtain ⟨e, found, mine⟩ := (ix _ _).mp holder
      refine (removeRecursive_below wf hashKey).below_congr fun h e' found' => ?_
      constructor
      · rintro rfl
        rw [found] at found'
        cases found'
        exact mine
      · exact fun mine' => ix.unique found' found mine' mine

theorem removeForTransaction_below (wf : s.WF) (tx : Transaction) :
    Drops s (removeForTransaction tx s) (s.below (Touches tx)) := by
  unfold removeForTransaction
  split
  · rename_i coinbase
    refine (Drops.refl wf).congr fun h _ _ => iff_of_false id ?_
    rintro ⟨a, e, -, ⟨payment, -⟩, -⟩
    rw [coinbase] at payment
    cases payment
  · rename_i payment
    have itself := removeRecursive_below wf tx.hash
    have spenders := itself.below_or
      (drops_foldl_below (fun o _ wf => removeHolder_below wf wf.spends o) (outpoints tx) itself.wf)
    dsimp only
    unfold Touches consumedLeaves
    obtain ⟨keys, parsed⟩ := extractLeafKeys tx.inputs
    cases parsed with
    | false =>
      refine spenders.below_congr fun h e _ => ?_
      simp [payment]
    | true =>
      refine (spenders.below_or (drops_foldl_below
        (fun key _ wf => removeHolder_below wf wf.leaves key) keys spenders.wf)).below_congr ?_
      intro h e _
      simp [payment, or_assoc]

/-- **A block** takes out what its transactions touch, and what depends on that. -/
theorem removeForBlock_drops (wf : s.WF) (blockTxs : List Transaction) :
    Drops s (removeForBlock blockTxs s)
      (s.below fun h e => ∃ tx ∈ blockTxs, Touches tx h e) :=
  (drops_foldl_below (fun tx _ wf => removeForTransaction_below wf tx) blockTxs wf).rated _ _ true

/-! ### Runs -/

variable {A : RateArith Rate} {P : Params}

/-- An entry of the pool was there, and is not past expiry, or is the
transaction just accepted. -/
theorem lookup_addTransaction (wf : s.WF) {tx : Transaction} {fee now : Int}
    {h : Bytes32} {e : Entry}
    (found : (addTransaction A P tx fee now s).2.mIndex.lookup h = some e) :
    (s.mIndex.lookup h = some e ∧ now - expirySeconds ≤ e.entryTime) ∨
      ((s.expireLocked now).Admits A P tx fee now ∧ e.tx = tx ∧ e.entryTime = now) := by
  have left (there : (s.expireLocked now).mIndex.lookup h = some e) :
      s.mIndex.lookup h = some e ∧ now - expirySeconds ≤ e.entryTime := by
    obtain ⟨before, kept⟩ := (expireLocked_drops now wf).lookup.mp there
    exact ⟨before, Int.not_lt.mp fun old => kept ⟨e, before, old⟩⟩
  obtain ⟨rate, update, ⟨-, out⟩ | ⟨admits, out⟩⟩ := addTransaction_cases A P tx fee now s
  · rw [out] at found
    exact .inl (left found)
  · rw [out] at found
    have expires := (expireLocked_drops now wf).rated rate update
      (s.expireLocked now).mBlockSinceFeeBump
    have new := (validateForPool_eq_true.mp admits.valid).2.2.2.1
    have entered := expires.wf.insert P fee now new admits.free
    obtain ⟨-, gone, evicts, -⟩ := trimLocked_spec A now entered
    have found := evicts.sub found
    rw [lookup_insert] at found
    split at found
    · cases found
      exact .inr ⟨admits, rfl, rfl⟩
    · exact .inl (left found)

theorem Consistent.addTransaction (ok : s.Consistent) (tx : Transaction) (fee now : Int) :
    (addTransaction A P tx fee now s).2.Consistent := by
  obtain ⟨t, u, gone, adds⟩ := addTransaction_adds A P tx fee now ok.toWF
  refine ⟨adds.evicts.wf, ?_⟩
  rcases adds.within with rfl | within
  · have fewer := (adds.expires.trans adds.evicts).bytes
    have same := (adds.expires.trans adds.evicts).budget
    have before := ok.budget
    omega
  · exact within

theorem Consistent.drops (ok : s.Consistent) {gone : Set Bytes32} (drops : Drops s s' gone) :
    s'.Consistent :=
  ⟨drops.wf, drops.budget ▸ drops.bytes.trans ok.budget⟩

theorem Consistent.step (ok : s.Consistent) (op : Op) : (step A P s op).Consistent := by
  cases op with
  | addTransaction tx fee now => exact ok.addTransaction tx fee.toInt now.toInt
  | removeTransaction txHash => exact ok.drops (drops_removeLocked ok.toWF txHash)
  | removeForBlock blockTxs => exact ok.drops (removeForBlock_drops ok.toWF blockTxs)
  | clear => exact consistent_clear s

theorem Consistent.run : ∀ (ops : List Op) {s : Mempool Rate}, s.Consistent →
    (run A P s ops).Consistent := by
  intro ops
  induction ops with
  | nil => exact fun ok => ok
  | cons op ops ih => exact fun ok => ih (ok.step op)

/-- **Runs.** However transactions come, go and are confirmed, the indices
agree with the entries and the pool is within its budget. -/
theorem mempool_consistent (A : RateArith Rate) (P : Params) (maxBytes : Nat) (ops : List Op) :
    (Mempool.run A P (new A maxBytes) ops).Consistent :=
  (consistent_new A maxBytes).run ops

/-- A coinbase is never in the pool. -/
theorem payment_of_run : ∀ (ops : List Op) {s : Mempool Rate}, s.Consistent →
    (∀ h e, s.mIndex.lookup h = some e → e.tx.isCoinbase = false) →
    ∀ h e, (run A P s ops).mIndex.lookup h = some e → e.tx.isCoinbase = false := by
  intro ops
  induction ops with
  | nil => exact fun _ payments => payments
  | cons op ops ih =>
      intro s ok payments
      refine ih (ok.step op) fun h e found => ?_
      cases op with
      | addTransaction tx fee now =>
          rcases lookup_addTransaction ok.toWF found with ⟨before, -⟩ | ⟨admits, same, -⟩
          · exact payments h e before
          · rw [same]
            exact (validateForPool_eq_true.mp admits.valid).2.1
      | removeTransaction txHash =>
          exact payments h e ((drops_removeLocked ok.toWF txHash).sub found)
      | removeForBlock blockTxs =>
          exact payments h e ((removeForBlock_drops ok.toWF blockTxs).sub found)
      | clear => cases found

end Mempool

end QmaskCore
