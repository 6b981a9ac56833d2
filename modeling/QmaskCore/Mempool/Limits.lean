import Mathlib.Data.Set.Card
import QmaskCore.Lib.Runs
import QmaskCore.Mempool.Settled

/-!
How long a chain of unconfirmed transactions gets.

`Limited` is what `MAX_ANCESTORS` and `MAX_DESCENDANTS` are for: no entry has
too many transactions above or below it in the pool. Only the parents of what
is added are asked for their descendants, so a transaction further up can end
up with too many (`crowded_root`); `limits_hold` says that nothing else can go
wrong.
-/

namespace QmaskCore

namespace Mempool

variable {Rate : Type} {s s' : Mempool Rate}

/-! ### Above and below -/

/-- The entry itself and what it depends on. -/
def ancestors (s : Mempool Rate) (h : Bytes32) : Set Bytes32 := {a | s.DescendsFrom a h}

/-- The entry itself and what depends on it. -/
def descendants (s : Mempool Rate) (h : Bytes32) : Set Bytes32 := {b | s.DescendsFrom h b}

structure Limited (s : Mempool Rate) : Prop where
  above : ∀ h e, s.mIndex.lookup h = some e → (s.ancestors h).encard ≤ maxAncestors
  below : ∀ h e, s.mIndex.lookup h = some e → (s.descendants h).encard ≤ maxDescendants

theorem encard_setOf_mem {α : Type} [DecidableEq α] {l : List α} (distinct : l.Nodup) :
    {a | a ∈ l}.encard = l.length := by
  rw [← List.coe_toFinset, Set.encard_coe_eq_coe_finsetCard, List.toFinset_card_of_nodup distinct]

theorem limited_of_empty (empty : s.mIndex = ∅) : s.Limited := by
  constructor
  · intro h e found
    rw [empty] at found
    cases found
  · intro h e found
    rw [empty] at found
    cases found

/-- What the pool counts below an entry. -/
theorem WF.encard_descendants (wf : s.WF) (h : Bytes32) :
    (s.descendants h).encard = s.countDescendantsLocked h := by
  obtain ⟨distinct, found⟩ := collectDescendants_spec wf h
  rw [countDescendantsLocked, ← encard_setOf_mem distinct]
  congr 1
  ext b
  exact (found b).symm

/-- Taking entries out leaves no more above or below the others. -/
theorem Limited.drops (limited : s.Limited) {gone : Set Bytes32} (drops : Drops s s' gone) :
    s'.Limited := by
  have old {a b : Bytes32} (path : s'.DescendsFrom a b) : s.DescendsFrom a b :=
    path.lift id fun _ _ spends => (drops.spendsFrom.mp spends).1
  constructor
  · intro h e found
    exact (Set.encard_le_encard fun _ path => old path).trans (limited.above h e (drops.sub found))
  · intro h e found
    exact (Set.encard_le_encard fun _ path => old path).trans (limited.below h e (drops.sub found))

/-! ### A transaction enters -/

/-- `tx` spends an output of the entry `a`. -/
def Supplies (s : Mempool Rate) (a : Bytes32) (tx : Transaction) : Prop :=
  ∃ ea, s.mIndex.lookup a = some ea ∧ ∃ o ∈ outpoints tx, o ∈ ea.tx.outpoints

/-- The entries a transaction depends on. -/
def suppliers (s : Mempool Rate) (tx : Transaction) : Set Bytes32 :=
  {a | ∃ p, s.Supplies p tx ∧ s.DescendsFrom a p}

/-- No entry spends an output of the transaction yet. -/
def Childless (s : Mempool Rate) (tx : Transaction) : Prop :=
  ∀ h e, s.mIndex.lookup h = some e → ∀ o ∈ outpoints e.tx, o ∉ tx.outpoints

instance (s : Mempool Rate) (tx : Transaction) : Decidable (s.Childless tx) :=
  decidable_of_iff (∀ x ∈ s.mIndex.entries, ∀ o ∈ outpoints x.2.tx, o ∉ tx.outpoints)
    ⟨fun all h e found => all ⟨h, e⟩ (AList.mem_lookup_iff.mp found),
      fun none x mem => none x.1 x.2 (AList.mem_lookup_iff.mpr mem)⟩

/-- Nothing the transaction depends on has all its descendants already. -/
def RoomAbove (s : Mempool Rate) (tx : Transaction) : Prop :=
  ∀ a ∈ s.suppliers tx, s.countDescendantsLocked a < maxDescendants

section

variable {P : Params} {tx : Transaction} {fee now : Int}

theorem spendsFrom_insert (childless : s.Childless tx)
    {a b : Bytes32} (spends : (insert P tx fee now s).SpendsFrom a b) :
    s.SpendsFrom a b ∨ b = tx.hash ∧ (a = tx.hash ∨ s.Supplies a tx) := by
  obtain ⟨ea, eb, foundA, foundB, o, spent, made⟩ := spends
  rw [lookup_insert] at foundA foundB
  split at foundB
  · rename_i same
    cases foundB
    split at foundA
    · exact .inr ⟨same, .inl ‹_›⟩
    · exact .inr ⟨same, .inr ⟨ea, foundA, o, spent, made⟩⟩
  · split at foundA
    · cases foundA
      exact absurd made (childless b eb foundB o spent)
    · exact .inl ⟨ea, eb, foundA, foundB, o, spent, made⟩

theorem lookup_insert_of_some (new : s.mIndex.lookup tx.hash = none) {h : Bytes32} {e : Entry}
    (found : s.mIndex.lookup h = some e) :
    (insert P tx fee now s).mIndex.lookup h = some e := by
  rw [lookup_insert, if_neg, found]
  rintro rfl
  rw [new] at found
  cases found

/-- What depends on what once the transaction is in the pool. -/
theorem descendsFrom_insert (new : s.mIndex.lookup tx.hash = none) (childless : s.Childless tx)
    {a b : Bytes32} : (insert P tx fee now s).DescendsFrom a b ↔
      s.DescendsFrom a b ∨ b = tx.hash ∧ a ∈ s.suppliers tx := by
  refine Search.reach_added (fun a b => spendsFrom_insert childless) ?_ ?_ ?_
  · rintro a b ⟨ea, eb, foundA, foundB, spends⟩
    exact ⟨ea, eb, lookup_insert_of_some new foundA, lookup_insert_of_some new foundB, spends⟩
  · rintro a ⟨ea, foundA, spends⟩
    have here : (insert P tx fee now s).mIndex.lookup tx.hash = some (newEntry P tx fee now s) := by
      rw [lookup_insert, if_pos rfl]
    exact ⟨ea, _, lookup_insert_of_some new foundA, here, spends⟩
  · rintro b ⟨ea, _, foundA, -⟩
    rw [new] at foundA
    cases foundA

theorem descendsFrom_eq_of_lookup_eq_none {h : Bytes32} (new : s.mIndex.lookup h = none)
    {a b : Bytes32} (path : s.DescendsFrom a b) (at_end : a = h ∨ b = h) : a = b := by
  rcases at_end with rfl | rfl
  · rcases Relation.ReflTransGen.cases_head path with same | ⟨c, ⟨ea, _, foundA, -⟩, -⟩
    · exact same
    · rw [new] at foundA
      cases foundA
  · rcases Relation.ReflTransGen.cases_tail path with same | ⟨c, -, _, eb, -, foundB, -⟩
    · exact same.symm
    · rw [new] at foundB
      cases foundB

/-- The pool transactions an entry names in its inputs. -/
def namedBy (s : Mempool Rate) (h : Bytes32) : List Bytes32 :=
  match s.mIndex.lookup h with
  | none => []
  | some e => s.parentsOf e.tx

theorem mem_parentsOf {h : Bytes32} : h ∈ s.parentsOf tx ↔
    (∃ input ∈ tx.inputs, input.prevTxHash = h) ∧ (s.mIndex.lookup h).isSome = true := by
  rw [parentsOf, List.mem_filter, List.mem_map]

/-- The walk goes by the hashes in the inputs, whatever output they name. -/
theorem WF.mem_parentsOf (wf : s.WF) {a : Bytes32} {ea : Entry}
    (found : s.mIndex.lookup a = some ea) {o : OutPoint} (spent : o ∈ outpoints tx)
    (made : o ∈ ea.tx.outpoints) : a ∈ s.parentsOf tx := by
  obtain ⟨input, mem, rfl⟩ := List.mem_map.mp spent
  obtain ⟨i, -, same⟩ := List.mem_map.mp made
  refine Mempool.mem_parentsOf.mpr ⟨⟨input, mem, ?_⟩, by rw [found, Option.isSome_some]⟩
  exact (congrArg OutPoint.txHash same).symm.trans (wf.keyed found)

/-- The walk up the inputs meets all that the transaction depends on. -/
theorem encard_suppliers_le (wf : s.WF) (tx : Transaction) :
    (s.suppliers tx).encard + 1 ≤ s.countAncestorsLocked tx := by
  have held {h : Bytes32} {t : Transaction} (mem : h ∈ s.parentsOf t) :
      h ∈ s.mIndex.keys.toFinset :=
    List.mem_toFinset.mpr (AList.lookup_isSome.mp (Mempool.mem_parentsOf.mp mem).2)
  let starts := Search.fresh [] (s.parentsOf tx)
  have distinct : starts.Nodup := Search.nodup_append_fresh List.nodup_nil
  have inside : ∀ a ∈ starts, a ∈ s.mIndex.keys.toFinset :=
    fun a mem => held (Search.mem_fresh.mp mem).1
  have closed : ∀ a ∈ s.mIndex.keys.toFinset, ∀ b ∈ s.namedBy a, b ∈ s.mIndex.keys.toFinset := by
    intro a _ b mem
    unfold namedBy at mem
    split at mem
    · cases mem
    · exact held mem
  obtain ⟨nodup, found⟩ :=
    Search.search_spec distinct inside closed (List.toFinset_card_le s.mIndex.keys)
  have sub : s.suppliers tx ⊆
      {a | a ∈ Search.search s.namedBy s.mIndex.keys.length starts starts} := by
    rintro a ⟨p, ⟨ep, foundP, o, spent, made⟩, path⟩
    refine (found a).mpr ⟨p, Search.mem_fresh.mpr ⟨?_, List.not_mem_nil⟩, ?_⟩
    · exact wf.mem_parentsOf foundP spent made
    · have turned : Relation.ReflTransGen (Function.swap s.SpendsFrom) p a := path.swap
      refine turned.lift id ?_
      rintro y x ⟨ex, ey, foundX, foundY, o, spent, made⟩
      show x ∈ s.namedBy y
      rw [namedBy, foundY]
      exact wf.mem_parentsOf foundX spent made
  have counted := Set.encard_le_encard sub
  rw [encard_setOf_mem nodup] at counted
  exact add_le_add_left counted 1

theorem withinLimits_eq_true : s.withinLimits tx = true ↔
    s.countAncestorsLocked tx ≤ maxAncestors ∧
      ∀ parent ∈ s.parentsOf tx, s.countDescendantsLocked parent + 1 ≤ maxDescendants := by
  simp [withinLimits]

/-- What a transaction depends on is in the pool. -/
theorem exists_lookup_of_mem_suppliers {a : Bytes32} (above : a ∈ s.suppliers tx) :
    ∃ e, s.mIndex.lookup a = some e := by
  obtain ⟨p, ⟨ep, foundP, -⟩, path⟩ := above
  rcases Relation.ReflTransGen.cases_head path with rfl | ⟨b, ⟨ea, _, foundA, -⟩, -⟩
  · exact ⟨ep, foundP⟩
  · exact ⟨ea, foundA⟩

/-- What the transaction depends on gets one more descendant. -/
theorem encard_descendants_insert (wf : s.WF) (new : s.mIndex.lookup tx.hash = none)
    (childless : s.Childless tx) {a : Bytes32} (above : a ∈ s.suppliers tx) :
    ((insert P tx fee now s).descendants a).encard = s.countDescendantsLocked a + 1 := by
  have grown : (insert P tx fee now s).descendants a =
      Insert.insert tx.hash (s.descendants a) := by
    ext b
    refine (descendsFrom_insert new childless).trans ?_
    rw [Set.mem_insert_iff, and_iff_left above]
    exact or_comm
  have out : tx.hash ∉ s.descendants a := by
    intro path
    obtain ⟨e, found⟩ := exists_lookup_of_mem_suppliers above
    rw [descendsFrom_eq_of_lookup_eq_none new path (.inr rfl), new] at found
    cases found
  rw [grown, Set.encard_insert_of_notMem out, wf.encard_descendants]

/-- **A transaction enters.** A pool within its limits stays so just when
everything the transaction depends on has room for it. -/
theorem limited_insert_iff (wf : s.WF) (limited : s.Limited)
    (new : s.mIndex.lookup tx.hash = none) (childless : s.Childless tx)
    (limits : s.withinLimits tx = true) :
    (insert P tx fee now s).Limited ↔ s.RoomAbove tx := by
  have reach {a b : Bytes32} := @descendsFrom_insert Rate s P tx fee now new childless a b
  constructor
  · intro limited a above
    obtain ⟨e, found⟩ := exists_lookup_of_mem_suppliers above
    have few := limited.below a e (lookup_insert_of_some new found)
    rw [encard_descendants_insert wf new childless above] at few
    exact Nat.lt_of_succ_le (by exact_mod_cast few)
  · intro room
    refine ⟨fun h e found => ?_, fun h e found => ?_⟩
    · rw [lookup_insert] at found
      split at found
      · rename_i same
        have sub : (insert P tx fee now s).ancestors h ⊆ Insert.insert tx.hash (s.suppliers tx) := by
          intro a path
          rcases reach.mp path with old | ⟨-, above⟩
          · exact .inl (descendsFrom_eq_of_lookup_eq_none new old (.inr same) ▸ same)
          · exact .inr above
        calc ((insert P tx fee now s).ancestors h).encard
            ≤ (Insert.insert tx.hash (s.suppliers tx)).encard := Set.encard_le_encard sub
          _ ≤ (s.suppliers tx).encard + 1 := Set.encard_insert_le _ _
          _ ≤ s.countAncestorsLocked tx := encard_suppliers_le wf tx
          _ ≤ maxAncestors := by exact_mod_cast (withinLimits_eq_true.mp limits).1
      · rename_i other
        refine (Set.encard_le_encard fun a path => ?_).trans (limited.above h e found)
        exact (reach.mp path).resolve_right fun at_end => other at_end.1
    · by_cases above : h ∈ s.suppliers tx
      · rw [encard_descendants_insert wf new childless above]
        exact_mod_cast room h above
      · have old : (insert P tx fee now s).descendants h ⊆ s.descendants h :=
          fun b path => (reach.mp path).resolve_right fun at_end => above at_end.2
        rw [lookup_insert] at found
        split at found
        · rename_i same
          have alone : s.descendants h ⊆ {h} := fun b path =>
            (descendsFrom_eq_of_lookup_eq_none new path (.inl same)).symm
          refine (Set.encard_le_encard (old.trans alone)).trans ?_
          rw [Set.encard_singleton]
          exact_mod_cast (by decide : 1 ≤ maxDescendants)
        · exact (Set.encard_le_encard old).trans (limited.below h e found)

end

/-! ### Runs -/

section

variable (A : RateArith Rate) (P : Params)

/-- A transaction is entered before anything that spends from it. -/
def ParentsFirst (s : Mempool Rate) : Op → Prop
  | .addTransaction tx fee now =>
      let t := s.expireLocked now.toInt
      t.Admits A P tx fee.toInt now.toInt → t.Childless tx
  | _ => True

/-- A transaction is entered where it finds room above. -/
def FindsRoom (s : Mempool Rate) : Op → Prop
  | .addTransaction tx fee now =>
      let t := s.expireLocked now.toInt
      t.Admits A P tx fee.toInt now.toInt → t.RoomAbove tx
  | _ => True

variable {A P}

theorem Limited.addTransaction (wf : s.WF) (limited : s.Limited) {tx : Transaction} {fee now : Int}
    (childless : (s.expireLocked now).Admits A P tx fee now → (s.expireLocked now).Childless tx)
    (room : (s.expireLocked now).Admits A P tx fee now → (s.expireLocked now).RoomAbove tx) :
    (addTransaction A P tx fee now s).2.Limited := by
  obtain ⟨rate, update, ⟨-, out⟩ | ⟨admits, out⟩⟩ := addTransaction_cases A P tx fee now s
  all_goals
    rw [out]
    have expires := (expireLocked_drops now wf).rated rate update
      (s.expireLocked now).mBlockSinceFeeBump
  · exact limited.drops expires
  · have new := (validateForPool_eq_true.mp admits.valid).2.2.2.1
    have entered := expires.wf.insert P fee now new admits.free
    obtain ⟨-, gone, evicts, -⟩ := trimLocked_spec A now entered
    have roomy : (insert P tx fee now { s.expireLocked now with
        mRollingMinFeeRate := rate, mLastRollingFeeUpdate := update }).Limited :=
      (limited_insert_iff expires.wf (limited.drops expires) new (childless admits)
        admits.limits).mpr (room admits)
    exact roomy.drops evicts

theorem Limited.step (wf : s.WF) (limited : s.Limited) {op : Op} (first : ParentsFirst A P s op)
    (room : FindsRoom A P s op) : (step A P s op).Limited := by
  cases op with
  | addTransaction tx fee now => exact limited.addTransaction wf first room
  | removeTransaction txHash => exact limited.drops (drops_removeLocked wf txHash)
  | removeForBlock blockTxs => exact limited.drops (removeForBlock_drops wf blockTxs)
  | clear => exact limited_of_empty rfl

end

/-- **Limits.** In every run in which parents come first, no entry ever has too
many ancestors or descendants, when each transaction is entered where all that
it depends on has room. -/
theorem limits_hold {A : RateArith Rate} {P : Params} {maxBytes : Nat} {ops : List Op}
    (first : Run.Meets (step A P) (ParentsFirst A P) ops (new A maxBytes))
    (room : Run.Meets (step A P) (FindsRoom A P) ops (new A maxBytes)) :
    (run A P (new A maxBytes) ops).Limited := by
  let inv (s : Mempool Rate) := s.Consistent ∧ s.Limited
  have start : inv (new A maxBytes) := ⟨consistent_new A maxBytes, limited_of_empty rfl⟩
  refine (Run.Meets.invariant (fun s op holds meets => ?_) start (first.and room)).2
  exact ⟨holds.1.step op, holds.2.step holds.1.toWF meets.1 meets.2⟩

end Mempool

namespace SmallNetwork

/-- A payment of one output to so many others. -/
def split (hash source : Bytes32) (index : UInt32) (outs : Nat)
    (few : outs ≤ Transaction.maxOutputs) : Transaction where
  inputs := [⟨source, index, 0, 0, hash, proof hash hash⟩]
  outputs := List.replicate outs (.payTo 1 1)
  hash
  isCoinbase := false
  inputs_le := by simp [Transaction.maxInputs]
  outputs_le := by simpa using few

/-- A transaction with all the descendants it may have, and one below the first
of them. -/
def crowd : List Transaction :=
  split 1 999 0 24 (by decide) ::
    (List.range 24).map (fun i =>
      split (10 + BitVec.ofNat 256 i) 1 (UInt32.ofNat i) 1 (by decide)) ++
    [split 100 10 0 1 (by decide)]

def enter (txs : List Transaction) : List Mempool.Op :=
  txs.map fun tx => .addTransaction tx 10 0

/-- A condition on what is added and the pool it is added to. -/
def Adding (cond : Mempool Int → Transaction → Prop) (s : Mempool Int) : Mempool.Op → Prop
  | .addTransaction tx _ now => cond (s.expireLocked now.toInt) tx
  | _ => True

instance (cond : Mempool Int → Transaction → Prop) [∀ s tx, Decidable (cond s tx)] :
    ∀ s op, Decidable (Adding cond s op)
  | s, .addTransaction tx _ now => inferInstanceAs (Decidable (cond (s.expireLocked now.toInt) tx))
  | _, .removeTransaction _ => .isTrue trivial
  | _, .removeForBlock _ => .isTrue trivial
  | _, .clear => .isTrue trivial

theorem parentsFirst_of_adding {s : Mempool Int} {op : Mempool.Op}
    (childless : Adding Mempool.Childless s op) :
    Mempool.ParentsFirst rates smallNetwork s op := by
  cases op with
  | addTransaction tx fee now => exact fun _ => childless
  | _ => trivial

end SmallNetwork

open SmallNetwork in
/-- The limit is asked of the parent alone, which has room. -/
theorem crowded_root : ¬ ∀ ops : List Mempool.Op,
    Run.Meets (Mempool.step rates smallNetwork) (Mempool.ParentsFirst rates smallNetwork) ops
      (.new rates 10000) →
    (Mempool.run rates smallNetwork (.new rates 10000) ops).Limited := by
  intro all
  let pool : Mempool Int := .run rates smallNetwork (.new rates 10000) (enter crowd)
  obtain ⟨first, there, many⟩ :
      Run.Meets (Mempool.step rates smallNetwork) (Adding Mempool.Childless) (enter crowd)
          (.new rates 10000) ∧
        (pool.mIndex.lookup 1).isSome = true ∧ pool.countDescendantsLocked 1 = 26 := by
    decide +kernel
  have limited : pool.Limited := all (enter crowd) (first.imp fun _ _ => parentsFirst_of_adding)
  have wf : pool.WF := ((Mempool.consistent_new rates 10000).run _).toWF
  obtain ⟨e, found⟩ := Option.isSome_iff_exists.mp there
  have few := limited.below 1 e found
  rw [wf.encard_descendants, many] at few
  exact absurd (by exact_mod_cast few) (by decide : ¬ 26 ≤ Mempool.maxDescendants)

open SmallNetwork in
/-- A chain of two is within the limits. -/
theorem family_within_limits : familyPool.Limited := by
  let ops : List Mempool.Op := [.addTransaction parent 10 0, .addTransaction child 10 0]
  have first : Run.Meets (Mempool.step rates smallNetwork) (Adding Mempool.Childless) ops
      (.new rates 1000) := by decide +kernel
  have room : Run.Meets (Mempool.step rates smallNetwork) (Adding fun s _ =>
      ∀ x ∈ s.mIndex.entries, s.countDescendantsLocked x.1 < Mempool.maxDescendants) ops
      (.new rates 1000) := by decide +kernel
  refine Mempool.limits_hold (first.imp fun _ _ => parentsFirst_of_adding) (room.imp ?_)
  intro s op room
  cases op with
  | addTransaction tx fee now =>
      intro _ a above
      obtain ⟨e, found⟩ := Mempool.exists_lookup_of_mem_suppliers above
      exact room ⟨a, e⟩ (AList.mem_lookup_iff.mp found)
  | _ => trivial

end QmaskCore
