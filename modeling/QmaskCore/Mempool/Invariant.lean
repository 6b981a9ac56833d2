import QmaskCore.Lib.KeyIndex
import QmaskCore.Mempool.Mempool
import QmaskCore.Storage.CoinDB

/-!
The indices of the pool agree.

`Mempool.WF` says what each index holds in terms of the entries, `Consistent`
adds that the pool is within its budget. Taking out entries keeps `WF`
(`WF.removeLocked`), putting one in does when it takes nothing another has
(`WF.insert`), and eviction ends within the budget (`trimFrom_spec`).
`mempool_consistent` is the statement for runs.
-/

namespace QmaskCore

namespace Mempool

variable {Rate : Type}

/-- Every index holds exactly what the entries say. -/
structure WF (s : Mempool Rate) : Prop where
  keyed : ∀ {h e}, s.mIndex.lookup h = some e → e.tx.hash = h
  byFeeRate : s.mByFeeRate.Indexes s.mIndex fun e => [e.feeKey]
  byTime : s.mByTime.Indexes s.mIndex fun e => [e.timeKey]
  spends : s.mSpends.Indexes s.mIndex fun e => outpoints e.tx
  leaves : s.mLeafSpends.Indexes s.mIndex fun e => e.leafKeys
  counted : ∀ {h e}, s.mIndex.lookup h = some e → e.seq ≤ s.mSequenceCounter
  total : s.mTotalBytes = s.mIndex.total (·.size)

/-- The pool after an operation: its indices agree and it is within its budget. -/
structure Consistent (s : Mempool Rate) : Prop extends s.WF where
  budget : s.mTotalBytes ≤ s.mMaxBytes

theorem consistent_new (A : RateArith Rate) (maxBytes : Nat) : (new A maxBytes).Consistent where
  keyed found := nomatch found
  byFeeRate := AList.indexes_empty _
  byTime := AList.indexes_empty _
  spends := AList.indexes_empty _
  leaves := AList.indexes_empty _
  counted found := nomatch found
  total := rfl
  budget := Nat.zero_le _

theorem consistent_clear (s : Mempool Rate) : s.clear.Consistent where
  keyed found := nomatch found
  byFeeRate := AList.indexes_empty _
  byTime := AList.indexes_empty _
  spends := AList.indexes_empty _
  leaves := AList.indexes_empty _
  counted found := nomatch found
  total := rfl
  budget := Nat.zero_le _

/-! ### Taking out -/

section

variable {s : Mempool Rate} {hashKey : Bytes32}

/-- Only the entry taken out is gone. -/
theorem lookup_removeLocked (hashKey h : Bytes32) (s : Mempool Rate) :
    (removeLocked hashKey s).2.mIndex.lookup h =
      if h = hashKey then none else s.mIndex.lookup h := by
  unfold removeLocked
  cases found : s.mIndex.lookup hashKey with
  | none =>
      dsimp only
      split
      · rename_i same
        rw [same, found]
      · rfl
  | some e => exact AList.lookup_erase_if _ _ _

@[simp] theorem mMaxBytes_removeLocked (hashKey : Bytes32) (s : Mempool Rate) :
    (removeLocked hashKey s).2.mMaxBytes = s.mMaxBytes := by
  unfold removeLocked
  cases s.mIndex.lookup hashKey <;> rfl

@[simp] theorem mSequenceCounter_removeLocked (hashKey : Bytes32) (s : Mempool Rate) :
    (removeLocked hashKey s).2.mSequenceCounter = s.mSequenceCounter := by
  unfold removeLocked
  cases s.mIndex.lookup hashKey <;> rfl

theorem WF.removeLocked (wf : s.WF) (hashKey : Bytes32) : (removeLocked hashKey s).2.WF := by
  have index := fun h => lookup_removeLocked hashKey h s
  unfold Mempool.removeLocked at index ⊢
  cases found : s.mIndex.lookup hashKey with
  | none => exact wf
  | some e =>
      rw [found] at index
      dsimp only at index ⊢
      have left {h : Bytes32} {e' : Entry} (there : (s.mIndex.erase hashKey).lookup h = some e') :
          s.mIndex.lookup h = some e' := by
        rw [index] at there
        split at there
        · cases there
        · exact there
      constructor
      case keyed => exact fun there => wf.keyed (left there)
      case byFeeRate => exact wf.byFeeRate.erase found
      case byTime => exact wf.byTime.erase found
      case spends => exact wf.spends.erase found
      case leaves => exact wf.leaves.erase found
      case counted => exact fun there => wf.counted (left there)
      case total =>
        have rest := AList.total_erase (·.size) found
        have whole := wf.total
        dsimp only
        omega

/-- Several entries taken out, one after the other. -/
def removeAll (hashes : List Bytes32) (s : Mempool Rate) : Mempool Rate :=
  hashes.foldl (fun s h => (removeLocked h s).2) s

theorem lookup_removeAll (h : Bytes32) : ∀ (hashes : List Bytes32) (s : Mempool Rate),
    (removeAll hashes s).mIndex.lookup h = if h ∈ hashes then none else s.mIndex.lookup h := by
  intro hashes
  induction hashes with
  | nil => exact fun _ => by simp [removeAll]
  | cons a hashes ih =>
      intro s
      refine (ih (removeLocked a s).2).trans ?_
      rw [lookup_removeLocked]
      by_cases here : h = a <;> by_cases later : h ∈ hashes <;> simp [here, later]

theorem WF.removeAll : ∀ {hashes : List Bytes32} {s : Mempool Rate}, s.WF →
    (removeAll hashes s).WF := by
  intro hashes
  induction hashes with
  | nil => exact fun wf => wf
  | cons a hashes ih => exact fun wf => ih (wf.removeLocked a)

@[simp] theorem mMaxBytes_removeAll : ∀ (hashes : List Bytes32) (s : Mempool Rate),
    (removeAll hashes s).mMaxBytes = s.mMaxBytes := by
  intro hashes
  induction hashes with
  | nil => exact fun _ => rfl
  | cons a hashes ih => exact fun s => (ih _).trans (mMaxBytes_removeLocked a s)

@[simp] theorem mSequenceCounter_removeAll : ∀ (hashes : List Bytes32) (s : Mempool Rate),
    (removeAll hashes s).mSequenceCounter = s.mSequenceCounter := by
  intro hashes
  induction hashes with
  | nil => exact fun _ => rfl
  | cons a hashes ih => exact fun s => (ih _).trans (mSequenceCounter_removeLocked a s)

theorem mTotalBytes_removeLocked_le (hashKey : Bytes32) (s : Mempool Rate) :
    (removeLocked hashKey s).2.mTotalBytes ≤ s.mTotalBytes := by
  unfold removeLocked
  cases s.mIndex.lookup hashKey with
  | none => exact le_rfl
  | some e => exact Nat.sub_le _ _

theorem mTotalBytes_removeAll_le : ∀ (hashes : List Bytes32) (s : Mempool Rate),
    (removeAll hashes s).mTotalBytes ≤ s.mTotalBytes := by
  intro hashes
  induction hashes with
  | nil => exact fun _ => le_rfl
  | cons a hashes ih => exact fun s => (ih _).trans (mTotalBytes_removeLocked_le a s)

theorem removeRecursiveLocked_eq (hashKey : Bytes32) (s : Mempool Rate) :
    removeRecursiveLocked hashKey s =
      removeAll (s.collectDescendantsLocked hashKey).reverse s := rfl

/-! ### Descendants -/

/-- `b` spends an output of `a`, both in the pool. -/
def SpendsFrom (s : Mempool Rate) (a b : Bytes32) : Prop :=
  ∃ ea eb, s.mIndex.lookup a = some ea ∧ s.mIndex.lookup b = some eb ∧
    ∃ o ∈ outpoints eb.tx, o ∈ ea.tx.outpoints

/-- `b` is `a` or depends on it through a chain of spends in the pool. -/
abbrev DescendsFrom (s : Mempool Rate) : Bytes32 → Bytes32 → Prop :=
  Relation.ReflTransGen s.SpendsFrom

theorem mem_childrenOf (wf : s.WF) {a b : Bytes32} : b ∈ s.childrenOf a ↔ s.SpendsFrom a b := by
  unfold childrenOf
  constructor
  · intro mem
    split at mem
    · cases mem
    · rename_i ea found
      obtain ⟨i, lt, spender⟩ := List.mem_filterMap.mp mem
      obtain ⟨eb, foundB, spends⟩ := (wf.spends _ _).mp spender
      exact ⟨ea, eb, found, foundB, _, spends, List.mem_map.mpr ⟨i, lt, rfl⟩⟩
  · rintro ⟨ea, eb, found, foundB, o, spends, made⟩
    obtain ⟨i, lt, rfl⟩ := List.mem_map.mp made
    rw [found]
    exact List.mem_filterMap.mpr ⟨i, lt, wf.spends.lookup foundB spends⟩

/-- A search for descendants stays among the start and the spenders. -/
theorem collectDescendants_spec (wf : s.WF) (hashKey : Bytes32) :
    (s.collectDescendantsLocked hashKey).Nodup ∧
      ∀ b, b ∈ s.collectDescendantsLocked hashKey ↔ s.DescendsFrom hashKey b := by
  let spenders := (s.mSpends.entries.map (·.2)).toFinset
  have few : (Insert.insert hashKey spenders).card ≤ s.mSpends.keys.length + 1 := by
    refine (Finset.card_insert_le _ _).trans (Nat.succ_le_succ ?_)
    refine (List.toFinset_card_le _).trans ?_
    rw [List.length_map, AList.keys, List.keys, List.length_map]
  have closed : ∀ a ∈ Insert.insert hashKey spenders, ∀ b ∈ s.childrenOf a, b ∈ Insert.insert hashKey spenders := by
    intro a _ b child
    refine Finset.mem_insert_of_mem (List.mem_toFinset.mpr ?_)
    unfold childrenOf at child
    split at child
    · cases child
    · obtain ⟨i, -, spender⟩ := List.mem_filterMap.mp child
      exact List.mem_map.mpr ⟨_, AList.mem_lookup_iff.mp spender, rfl⟩
  obtain ⟨distinct, found⟩ := Search.search_spec (List.nodup_singleton hashKey)
    (by simp [spenders]) closed few
  refine ⟨distinct, fun b => ?_⟩
  simp only [List.mem_singleton, exists_eq_left] at found
  refine (found b).trans (iff_of_eq ?_)
  congr 1
  funext a b
  exact propext (mem_childrenOf wf)

theorem mem_collectDescendants (wf : s.WF) {b : Bytes32} :
    b ∈ s.collectDescendantsLocked hashKey ↔ s.DescendsFrom hashKey b :=
  (collectDescendants_spec wf hashKey).2 b

/-! ### Dropping a set of entries -/

/-- `s'` is `s` without the entries of `gone`. -/
structure Drops (s s' : Mempool Rate) (gone : Set Bytes32) : Prop where
  lookup : ∀ {h e}, s'.mIndex.lookup h = some e ↔ s.mIndex.lookup h = some e ∧ h ∉ gone
  wf : s'.WF
  budget : s'.mMaxBytes = s.mMaxBytes
  counter : s'.mSequenceCounter = s.mSequenceCounter
  bytes : s'.mTotalBytes ≤ s.mTotalBytes

variable {s' : Mempool Rate} {gone : Set Bytes32}

theorem Drops.refl (wf : s.WF) : Drops s s ∅ :=
  ⟨⟨fun found => ⟨found, id⟩, And.left⟩, wf, rfl, rfl, le_rfl⟩

theorem Drops.trans {s'' : Mempool Rate} {gone' : Set Bytes32} (first : Drops s s' gone)
    (second : Drops s' s'' gone') : Drops s s'' (gone ∪ gone') where
  lookup := by
    intro h e
    rw [second.lookup, first.lookup, Set.mem_union, not_or, and_assoc]
  wf := second.wf
  budget := second.budget.trans first.budget
  counter := second.counter.trans first.counter
  bytes := second.bytes.trans first.bytes

/-- Only which entries of the pool are dropped matters. -/
theorem Drops.congr {gone' : Set Bytes32} (drops : Drops s s' gone)
    (same : ∀ h e, s.mIndex.lookup h = some e → (h ∈ gone ↔ h ∈ gone')) : Drops s s' gone' where
  lookup := by
    intro h e
    rw [drops.lookup]
    exact and_congr_right fun found => not_congr (same h e found)
  wf := drops.wf
  budget := drops.budget
  counter := drops.counter
  bytes := drops.bytes

/-- The rolling rate has no part in it. -/
theorem Drops.rated (drops : Drops s s' gone) (rate : Rate) (update : Int) (block : Bool) :
    Drops s { s' with
      mRollingMinFeeRate := rate
      mLastRollingFeeUpdate := update
      mBlockSinceFeeBump := block } gone where
  lookup := drops.lookup
  wf := ⟨drops.wf.keyed, drops.wf.byFeeRate, drops.wf.byTime, drops.wf.spends, drops.wf.leaves,
    drops.wf.counted, drops.wf.total⟩
  budget := drops.budget
  counter := drops.counter
  bytes := drops.bytes

theorem drops_removeAll (wf : s.WF) (hashes : List Bytes32) :
    Drops s (removeAll hashes s) {h | h ∈ hashes} where
  lookup := by
    intro h e
    rw [lookup_removeAll, Set.mem_ofPred_eq]
    split <;> simp_all
  wf := wf.removeAll
  budget := mMaxBytes_removeAll hashes s
  counter := mSequenceCounter_removeAll hashes s
  bytes := mTotalBytes_removeAll_le hashes s

theorem drops_removeLocked (wf : s.WF) (hashKey : Bytes32) :
    Drops s (Mempool.removeLocked hashKey s).2 {hashKey} :=
  (drops_removeAll wf [hashKey]).congr fun _ _ _ => List.mem_singleton

/-- A transaction goes with all that depends on it. -/
theorem drops_removeRecursive (wf : s.WF) (hashKey : Bytes32) :
    Drops s (removeRecursiveLocked hashKey s) {h | s.DescendsFrom hashKey h} := by
  rw [removeRecursiveLocked_eq]
  refine (drops_removeAll wf _).congr fun h _ _ => ?_
  rw [Set.mem_ofPred_eq, Set.mem_ofPred_eq, List.mem_reverse, mem_collectDescendants wf]

theorem Drops.sub (drops : Drops s s' gone) {h : Bytes32} {e : Entry}
    (there : s'.mIndex.lookup h = some e) : s.mIndex.lookup h = some e :=
  (drops.lookup.mp there).1

theorem Drops.lookup_eq_none (drops : Drops s s' gone) {h : Bytes32} (out : h ∈ gone) :
    s'.mIndex.lookup h = none :=
  Option.eq_none_iff_forall_ne_some.mpr fun _ there => (drops.lookup.mp there).2 out

/-! ### Eviction and expiry -/

/-- Whoever spends an output of a dropped transaction is dropped. -/
def Downward (s : Mempool Rate) (gone : Set Bytes32) : Prop :=
  ∀ a ∈ gone, ∀ b, s.SpendsFrom a b → b ∈ gone

/-- What is left of the pool spends from what it did. -/
theorem Drops.spendsFrom (drops : Drops s s' gone) {a b : Bytes32} :
    s'.SpendsFrom a b ↔ s.SpendsFrom a b ∧ a ∉ gone ∧ b ∉ gone := by
  unfold SpendsFrom
  simp only [drops.lookup]
  constructor
  · rintro ⟨ea, eb, ⟨foundA, inA⟩, ⟨foundB, inB⟩, spends⟩
    exact ⟨⟨ea, eb, foundA, foundB, spends⟩, inA, inB⟩
  · rintro ⟨⟨ea, eb, foundA, foundB, spends⟩, inA, inB⟩
    exact ⟨ea, eb, ⟨foundA, inA⟩, ⟨foundB, inB⟩, spends⟩

theorem Downward.union {gone' : Set Bytes32} (drops : Drops s s' gone) (first : s.Downward gone)
    (second : s'.Downward gone') : s.Downward (gone ∪ gone') := by
  intro a out b spends
  by_cases early : b ∈ gone
  · exact .inl early
  · by_cases before : a ∈ gone
    · exact .inl (first a before b spends)
    · refine .inr (second a (out.resolve_left before) b ?_)
      exact drops.spendsFrom.mpr ⟨spends, before, early⟩

theorem downward_descendants (s : Mempool Rate) (hashKey : Bytes32) :
    s.Downward {h | s.DescendsFrom hashKey h} :=
  fun _ path _ spends => path.tail spends

theorem drops_bumpRate (A : RateArith Rate) (now evictedRate : Int) (wf : s.WF) :
    Drops s (bumpRate A now evictedRate s) ∅ := by
  unfold bumpRate
  dsimp only
  split
  · exact (Drops.refl wf).rated _ _ _
  · exact .refl wf

/-- Eviction ends within the budget and takes each transaction with what
depends on it. -/
theorem trimFrom_spec (A : RateArith Rate) (now : Int) : ∀ {fuel : Nat} {s : Mempool Rate}, s.WF →
    s.mByFeeRate.keys.length < fuel →
    (trimFrom A now fuel s).mTotalBytes ≤ (trimFrom A now fuel s).mMaxBytes ∧
      ∃ gone, Drops s (trimFrom A now fuel s) gone ∧ s.Downward gone := by
  intro fuel
  induction fuel with
  | zero => exact fun _ enough => absurd enough (Nat.not_lt_zero _)
  | succ fuel ih =>
      intro s wf enough
      rw [trimFrom]
      split
      · rename_i within
        exact ⟨within, ∅, .refl wf, fun _ out => nomatch out⟩
      · rename_i exceeds
        cases cheapest : s.mByFeeRate.first? with
        | none =>
            -- Bytes are counted for some entry, which has a fee rate.
            exfalso
            have no : ∀ h, s.mIndex.lookup h = none := by
              intro h
              by_contra some'
              obtain ⟨e, found⟩ := Option.ne_none_iff_exists'.mp some'
              have at' := wf.byFeeRate.lookup found (List.mem_singleton_self _)
              rw [AList.first?_eq_none.mp cheapest] at at'
              cases at'
            have empty : s.mIndex = ∅ := by
              refine AList.ext (List.eq_nil_iff_forall_not_mem.mpr fun e mem => ?_)
              have found := AList.mem_lookup_iff.mpr mem
              rw [no e.1] at found
              cases found
            rw [wf.total, empty] at exceeds
            exact exceeds (Nat.zero_le _)
        | some least =>
            obtain ⟨key, hashKey⟩ := least
            obtain ⟨e, found, -⟩ := (wf.byFeeRate _ _).mp (AList.first?_spec cheapest).1
            dsimp only
            generalize bumped : bumpRate A now (ofLex key).1 s = t
            have drops : Drops s t ∅ := bumped ▸ drops_bumpRate A now _ wf
            have next := drops.trans (drops_removeRecursive drops.wf hashKey)
            rw [Set.empty_union] at next
            have fewer := wf.byFeeRate.length_lt next.wf.byFeeRate next.sub found
              (List.mem_singleton_self _) (next.lookup_eq_none .refl)
            obtain ⟨within, gone, rest, down⟩ := ih next.wf (by omega)
            refine ⟨within, _, next.trans rest, Downward.union next ?_ down⟩
            intro a out b spends
            refine downward_descendants t hashKey a out b ?_
            exact drops.spendsFrom.mpr ⟨spends, id, id⟩

theorem trimLocked_spec (A : RateArith Rate) (now : Int) (wf : s.WF) :
    (trimLocked A now s).mTotalBytes ≤ (trimLocked A now s).mMaxBytes ∧
      ∃ gone, Drops s (trimLocked A now s) gone ∧ s.Downward gone :=
  trimFrom_spec A now wf (Nat.lt_succ_self _)

/-- The entries from before a cutoff. -/
def enteredBefore (s : Mempool Rate) (cutoff : Int) : Set Bytes32 :=
  {h | ∃ e, s.mIndex.lookup h = some e ∧ e.entryTime < cutoff}

/-- Exactly the entries from before the cutoff expire. -/
theorem expireFrom_drops (cutoff : Int) : ∀ {fuel : Nat} {s : Mempool Rate}, s.WF →
    s.mByTime.keys.length < fuel →
    Drops s (expireFrom cutoff fuel s) (s.enteredBefore cutoff) := by
  intro fuel
  induction fuel with
  | zero => exact fun _ enough => absurd enough (Nat.not_lt_zero _)
  | succ fuel ih =>
      intro s wf enough
      have settled (none' : ∀ h e, s.mIndex.lookup h = some e → cutoff ≤ e.entryTime) :
          Drops s s (s.enteredBefore cutoff) := by
        refine (Drops.refl wf).congr fun h e found => iff_of_false id ?_
        rintro ⟨e', found', old⟩
        have := none' h e' found'
        omega
      rw [expireFrom]
      cases oldest : s.mByTime.first? with
      | none =>
          refine settled fun h e found => ?_
          have at' := wf.byTime.lookup found (List.mem_singleton_self _)
          rw [AList.first?_eq_none.mp oldest] at at'
          cases at'
      | some least =>
          obtain ⟨key, hashKey⟩ := least
          obtain ⟨at', smallest⟩ := AList.first?_spec oldest
          obtain ⟨first, found, same⟩ := (wf.byTime _ _).mp at'
          obtain rfl := List.mem_singleton.mp same
          dsimp only
          split
          · rename_i old
            have next := drops_removeLocked wf hashKey
            have fewer := wf.byTime.length_lt next.wf.byTime next.sub found
              (List.mem_singleton_self _) (next.lookup_eq_none rfl)
            refine (next.trans (ih next.wf (by omega))).congr fun h e here => ?_
            simp only [enteredBefore, Set.mem_union, Set.mem_singleton_iff, Set.mem_ofPred_eq, next.lookup]
            constructor
            · rintro (rfl | ⟨e, ⟨here, -⟩, old⟩)
              · exact ⟨first, found, old⟩
              · exact ⟨e, here, old⟩
            · rintro ⟨e, here, old⟩
              by_cases this : h = hashKey
              · exact .inl this
              · exact .inr ⟨e, ⟨here, this⟩, old⟩
          · rename_i young
            refine settled fun h e found => ?_
            have at' : s.mByTime.lookup e.timeKey = some h := wf.byTime.lookup found (List.mem_singleton_self _)
            have le := smallest e.timeKey (AList.lookup_isSome.mp (Option.isSome_of_eq_some at'))
            have first := Prod.Lex.monotone_fst _ _ le
            have time : (ofLex e.timeKey).1 = e.entryTime := rfl
            omega

theorem expireLocked_drops (now : Int) (wf : s.WF) :
    Drops s (expireLocked now s) (s.enteredBefore (now - expirySeconds)) :=
  expireFrom_drops _ wf (Nat.lt_succ_self _)

/-! ### Putting in -/

section

variable {P : Params} {A : RateArith Rate} {tx : Transaction} {fee now : Int}

theorem conflictFree_eq_true : s.conflictFree tx = true ↔
    (∀ o ∈ outpoints tx, s.mSpends.lookup o = none) ∧
      (∀ key ∈ (extractLeafKeys tx.inputs).1, s.mLeafSpends.lookup key = none) ∧
      (extractLeafKeys tx.inputs).1.Nodup := by
  simp only [conflictFree, Bool.and_eq_true, List.all_eq_true, decide_eq_true_eq,
    Option.isNone_iff_eq_none, and_assoc]

/-- The entry a transaction gets. -/
def newEntry (P : Params) (tx : Transaction) (fee now : Int) (s : Mempool Rate) : Entry :=
  ⟨tx, fee, P.getSerializedSize tx, feePerK fee (P.getSerializedSize tx), s.mSequenceCounter + 1,
    now, (extractLeafKeys tx.inputs).1⟩

theorem lookup_insert (h : Bytes32) : (insert P tx fee now s).mIndex.lookup h =
    if h = tx.hash then some (newEntry P tx fee now s) else s.mIndex.lookup h :=
  AList.lookup_insert_if _ _ _ _

/-- An entry that takes nothing another has keeps the indices in step. -/
theorem WF.insert (wf : s.WF) (P : Params) (fee now : Int) (new : s.mIndex.lookup tx.hash = none)
    (free : s.conflictFree tx = true) : (Mempool.insert P tx fee now s).WF := by
  obtain ⟨spends, leaves, -⟩ := conflictFree_eq_true.mp free
  have index {h : Bytes32} {e : Entry} : (Mempool.insert P tx fee now s).mIndex.lookup h = some e ↔
      (h = tx.hash ∧ e = newEntry P tx fee now s) ∨ s.mIndex.lookup h = some e := by
    rw [lookup_insert]
    split
    · rename_i same
      rw [same, new]
      simp [eq_comm]
    · rename_i other
      simp [other]
  -- The counter is beyond every entry's, so the new keys are new.
  have late {h : Bytes32} {e : Entry} (found : s.mIndex.lookup h = some e) :
      e.seq ≠ s.mSequenceCounter + 1 := by
    have := wf.counted found
    omega
  constructor
  case keyed =>
    intro h e found
    rcases index.mp found with ⟨rfl, rfl⟩ | found
    · rfl
    · exact wf.keyed found
  case byFeeRate =>
    refine AList.Indexes.insert wf.byFeeRate new fun k mem => ?_
    obtain rfl := List.mem_singleton.mp mem
    refine Option.eq_none_iff_forall_ne_some.mpr fun h taken => ?_
    obtain ⟨e, found, same⟩ := (wf.byFeeRate _ _).mp taken
    exact late found (congrArg (fun k => (ofLex k).2) (List.mem_singleton.mp same)).symm
  case byTime =>
    refine AList.Indexes.insert wf.byTime new fun k mem => ?_
    obtain rfl := List.mem_singleton.mp mem
    refine Option.eq_none_iff_forall_ne_some.mpr fun h taken => ?_
    obtain ⟨e, found, same⟩ := (wf.byTime _ _).mp taken
    exact late found (congrArg (fun k => (ofLex k).2) (List.mem_singleton.mp same)).symm
  case spends => exact AList.Indexes.insert (b := newEntry P tx fee now s) wf.spends new spends
  case leaves => exact AList.Indexes.insert (b := newEntry P tx fee now s) wf.leaves new leaves
  case counted =>
    intro h e found
    rcases index.mp found with ⟨-, rfl⟩ | found
    · exact le_rfl
    · exact (wf.counted found).trans (Nat.le_succ _)
  case total =>
    have absent : tx.hash ∉ s.mIndex := by rw [← AList.lookup_eq_none, new]
    refine (congrArg (· + P.getSerializedSize tx) wf.total).trans ?_
    exact (AList.total_insert (b := newEntry P tx fee now s) (·.size) absent).symm

end

end

end Mempool

end QmaskCore
