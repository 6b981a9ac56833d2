import Mathlib.Data.List.TakeWhile
import QmaskCore.Mempool.Persist

/-!
A pool across a restart.

`kept_run` says what holds of every entry of a pool that operations can reach,
`fits_snapshot` that its entries fit into an empty pool again.
`load_restores_iff` says when reading the written pool restores all of it, and
`restart_loses_child` is a pool and an order of equal times for which it does
not.
-/

namespace QmaskCore

namespace Mempool

variable {Rate : Type} {A : RateArith Rate} {P : Params} {s s' : Mempool Rate}

/-- What admission leaves in an entry. -/
structure Kept (A : RateArith Rate) (P : Params) (e : Entry) : Prop where
  poolable : Poolable A P e.tx e.fee
  size : e.size = P.getSerializedSize e.tx
  leaves : e.leafKeys = leafKeysOf e.tx
  time : ∃ t : Int64, e.entryTime = t.toInt

theorem kept_step (wf : s.WF) (op : Op)
    (kept : ∀ h e, s.mIndex.lookup h = some e → Kept A P e) :
    ∀ h e, (step A P s op).mIndex.lookup h = some e → Kept A P e := by
  cases op with
  | addTransaction tx fee now =>
      intro h e found
      obtain ⟨t, u, gone, adds⟩ := addTransaction_adds A P tx fee.toInt now.toInt wf
      rcases adds.lookup found with there | ⟨valid, free, sized, -, rfl⟩
      · exact kept h e (adds.expires.sub there)
      · obtain ⟨valid, payment, nonneg, -, value, dust⟩ := validateForPool_eq_true.mp valid
        have leaves := (conflictFree_eq_true.mp free).2.2
        exact ⟨⟨valid, payment, nonneg, value, dust, sized, leaves⟩, rfl, rfl, now, rfl⟩
  | removeTransaction txHash =>
      exact fun h e found => kept h e ((drops_removeLocked wf txHash).sub found)
  | removeForBlock blockTxs =>
      exact fun h e found => kept h e ((removeForBlock_drops wf blockTxs).sub found)
  | clear => exact fun h e found => nomatch found

theorem mMaxBytes_step (wf : s.WF) (op : Op) : (step A P s op).mMaxBytes = s.mMaxBytes := by
  cases op with
  | addTransaction tx fee now =>
      obtain ⟨t, u, gone, adds⟩ := addTransaction_adds A P tx fee.toInt now.toInt wf
      refine adds.evicts.budget.trans (Eq.trans ?_ adds.expires.budget)
      rcases adds.enters with rfl | ⟨-, -, -, rfl⟩
      · rfl
      · rfl
  | removeTransaction txHash => exact (drops_removeLocked wf txHash).budget
  | removeForBlock blockTxs => exact (removeForBlock_drops wf blockTxs).budget
  | clear => rfl

theorem kept_run : ∀ (ops : List Op) {s : Mempool Rate}, s.Consistent →
    (∀ h e, s.mIndex.lookup h = some e → Kept A P e) →
    (∀ h e, (run A P s ops).mIndex.lookup h = some e → Kept A P e) ∧
      (run A P s ops).mMaxBytes = s.mMaxBytes := by
  intro ops
  induction ops with
  | nil => exact fun _ kept => ⟨kept, rfl⟩
  | cons op ops ih =>
      intro s ok kept
      obtain ⟨entries, budget⟩ := ih (ok.step op) (kept_step ok.toWF op kept)
      exact ⟨entries, budget.trans (mMaxBytes_step ok.toWF op)⟩

/-- Two entries of the pool stand apart. -/
theorem WF.apart (wf : s.WF) (kept : ∀ h e, s.mIndex.lookup h = some e → Kept A P e)
    {a b : Bytes32} {ea eb : Entry} (foundA : s.mIndex.lookup a = some ea)
    (foundB : s.mIndex.lookup b = some eb) (other : a ≠ b) : Apart ea.tx eb.tx where
  hash same := other (by rw [← wf.keyed foundA, ← wf.keyed foundB, same])
  outpoints _ mine yours := other (wf.spends.unique foundA foundB mine yours)
  leaves key mine yours := by
    rw [← (kept a ea foundA).leaves] at mine
    rw [← (kept b eb foundB).leaves] at yours
    exact other (wf.leaves.unique foundA foundB mine yours)

def persisted (e : Entry) : PersistedEntry := ⟨e.tx, e.fee, e.entryTime⟩

theorem snapshot_perm {indexOrder : List Entry → List Entry} (perm : ∀ l, (indexOrder l).Perm l)
    (s : Mempool Rate) :
    (s.snapshot indexOrder).Perm (s.mIndex.entries.map fun x => persisted x.2) := by
  refine (List.perm_insertionSort _ _).trans (((perm _).map _).trans ?_)
  rw [List.map_map]
  exact .refl _

theorem mem_snapshot {indexOrder : List Entry → List Entry} (perm : ∀ l, (indexOrder l).Perm l)
    {p : PersistedEntry} :
    p ∈ s.snapshot indexOrder ↔ ∃ h e, s.mIndex.lookup h = some e ∧ p = persisted e := by
  rw [(snapshot_perm perm s).mem_iff, List.mem_map]
  constructor
  · rintro ⟨⟨h, e⟩, mem, rfl⟩
    exact ⟨h, e, AList.mem_lookup_iff.mpr mem, rfl⟩
  · rintro ⟨h, e, found, rfl⟩
    exact ⟨⟨h, e⟩, AList.mem_lookup_iff.mp found, rfl⟩

/-- The entries of a pool fit into an empty one of its budget. -/
theorem fits_snapshot {indexOrder : List Entry → List Entry} (perm : ∀ l, (indexOrder l).Perm l)
    (ok : s.Consistent) (kept : ∀ h e, s.mIndex.lookup h = some e → Kept A P e) :
    Fits A P s.mMaxBytes (s.snapshot indexOrder) where
  poolable p mem := by
    obtain ⟨h, e, found, rfl⟩ := (mem_snapshot perm).mp mem
    exact (kept h e found).poolable
  apart := by
    rw [(snapshot_perm perm s).pairwise_iff fun apart => apart.symm, List.pairwise_map]
    refine (List.nodupKeys_iff_pairwise.mp s.mIndex.nodupKeys).imp_of_mem ?_
    intro x y memX memY other
    exact ok.toWF.apart kept (AList.mem_lookup_iff.mpr memX) (AList.mem_lookup_iff.mpr memY) other
  bytes := by
    rw [((snapshot_perm perm s).map _).sum_eq, List.map_map]
    refine le_of_eq_of_le ?_ ok.budget
    rw [ok.total, AList.total]
    congr 1
    refine List.map_congr_left fun x mem => ?_
    exact (kept x.1 x.2 (AList.mem_lookup_iff.mpr mem)).size.symm

/-- All entries can be read back when they are not too many and none is too long. -/
theorem readable_eq_iff (C : TxCodec) {entries : List PersistedEntry}
    (few : UInt32.ofNat entries.length ≤ persistMaxEntries) :
    readable C entries = entries ↔
      entries.length ≤ persistMaxEntries.toNat ∧ ∀ p ∈ entries, Loadable C p.tx := by
  have count : (UInt32.ofNat entries.length).toNat ≤ persistMaxEntries.toNat :=
    UInt32.le_iff_toNat_le.mp few
  unfold readable
  constructor
  · intro whole
    have long := congrArg List.length whole
    have sub := (List.takeWhile_sublist (fun e => decide (Loadable C e.tx))
      (l := entries.take (UInt32.ofNat entries.length).toNat)).length_le
    rw [long, List.length_take] at sub
    refine ⟨by omega, fun p mem => ?_⟩
    rw [← whole] at mem
    have passes := List.mem_takeWhile_imp mem
    exact of_decide_eq_true passes
  · rintro ⟨short, all⟩
    have exact : (UInt32.ofNat entries.length).toNat = entries.length := by
      refine UInt32.toNat_ofNat_of_lt' (short.trans_lt ?_)
      decide
    rw [exact, List.take_length, List.takeWhile_eq_self_iff]
    exact fun p mem => decide_eq_true (all p mem)

/-- In a pool filled again with some entries of another, all of the other's
transactions are found exactly when all its entries were put in. -/
theorem Refilled.whole_iff (wf : s.WF) {indexOrder : List Entry → List Entry}
    (perm : ∀ l, (indexOrder l).Perm l) {maxBytes : Nat} {now : Int} {part : List PersistedEntry}
    (fits : Fits A P maxBytes (s.snapshot indexOrder)) (sub : part.Sublist (s.snapshot indexOrder))
    (full : Refilled A P maxBytes now part s') :
    (∀ h e, s.mIndex.lookup h = some e → ∃ e', s'.mIndex.lookup h = some e' ∧ e'.tx = e.tx) ↔
      part = s.snapshot indexOrder := by
  constructor
  · intro restored
    have distinct : (s.snapshot indexOrder).Nodup :=
      fits.apart.imp fun apart same => apart.hash (congrArg (·.tx.hash) same)
    refine sub.eq_of_length_le (List.subperm_of_subset distinct ?_).length_le
    intro p mem
    obtain ⟨h, e, found, rfl⟩ := (mem_snapshot perm).mp mem
    obtain ⟨e', found', same⟩ := restored h e found
    obtain ⟨-, -, q, memQ, txQ, -⟩ := full.entry found'
    by_cases here : q = persisted e
    · exact here ▸ memQ
    · have : Std.Symm fun a b : PersistedEntry => Apart a.tx b.tx :=
        ⟨fun _ _ apart => apart.symm⟩
      have apart := fits.apart.forall (sub.subset memQ) mem here
      exact absurd (congrArg (·.hash) (txQ.trans same)) apart.hash
  · rintro rfl h e found
    obtain ⟨e', found', same⟩ := full.filled _ ((mem_snapshot perm).mpr ⟨h, e, found, rfl⟩)
    exact ⟨e', wf.keyed found ▸ found', same⟩

/-- **A restart.** Reading the written pool back into an empty one of the same
budget restores every transaction exactly when the entries are not too many,
each has a length `Load` accepts, and each finds its parents, and room in its
chains of spends, among those written before it. -/
theorem load_restores_iff (C : TxCodec) (A : RateArith Rate) (P : Params) (maxBytes : Nat)
    (ops : List Op) (indexOrder : List Entry → List Entry) (now : Int) (chain : OutPoint → Bool)
    (fees : Transaction → Int) (round : A.llround A.zero = 0)
    (perm : ∀ l, (indexOrder l).Perm l)
    (young : ∀ h e, (run A P (new A maxBytes) ops).mIndex.lookup h = some e →
      now - expirySeconds ≤ e.entryTime)
    (original : ∀ h e, (run A P (new A maxBytes) ops).mIndex.lookup h = some e →
      fees e.tx = e.fee)
    (carries : ∀ h e, (run A P (new A maxBytes) ops).mIndex.lookup h = some e → C.Carries e.tx) :
    let s := run A P (new A maxBytes) ops
    let entries := s.snapshot indexOrder
    (∀ h e, s.mIndex.lookup h = some e → ∃ e',
      (load C A P (admitKnown chain fees) now now (save C entries) (new A maxBytes)).pool.mIndex.lookup
        h = some e' ∧ e'.tx = e.tx) ↔
      entries.length ≤ persistMaxEntries.toNat ∧ (∀ p ∈ entries, Loadable C p.tx) ∧
        ∀ before p after, entries = before ++ p :: after →
          Readmits A P maxBytes now chain before p := by
  intro s entries
  have ok : s.Consistent := (consistent_new A maxBytes).run ops
  obtain ⟨kept, budget⟩ : (∀ h e, s.mIndex.lookup h = some e → Kept A P e) ∧
      s.mMaxBytes = maxBytes :=
    kept_run ops (consistent_new A maxBytes) fun h e found => nomatch found
  have fits : Fits A P maxBytes entries := budget ▸ fits_snapshot perm ok kept
  have times {p : PersistedEntry} (mem : p ∈ entries) :
      now - expirySeconds ≤ (Int64.ofInt p.entryTime).toInt := by
    obtain ⟨h, e, found, rfl⟩ := (mem_snapshot perm).mp mem
    obtain ⟨t, time⟩ := (kept h e found).time
    rw [persisted, time, Int64.ofInt_toInt, ← time]
    exact young h e found
  have prices {p : PersistedEntry} (mem : p ∈ entries) : fees p.tx = p.fee := by
    obtain ⟨h, e, found, rfl⟩ := (mem_snapshot perm).mp mem
    exact original h e found
  have carried : ∀ p ∈ entries, C.Carries p.tx := by
    intro p mem
    obtain ⟨h, e, found, rfl⟩ := (mem_snapshot perm).mp mem
    exact carries h e found
  rw [load_save C A P _ now now carried]
  by_cases few : UInt32.ofNat entries.length ≤ persistMaxEntries
  · rw [if_neg (UInt32.not_lt.mpr few)]
    have start := readable_sublist C entries
    obtain ⟨part, sub, pool, whole⟩ := pool_offerAll chain fees round (readable C entries) []
      ⟨new A maxBytes, 0, []⟩ (fits.sublist start) rfl
      (fun p mem => times (start.subset mem)) fun p mem => prices (start.subset mem)
    simp only [List.nil_append] at pool whole
    have full := refilled_refill now (fits.sublist (sub.trans start))
    rw [pool, full.whole_iff ok.toWF perm fits (sub.trans start), ← and_assoc,
      ← readable_eq_iff C few]
    constructor
    · intro all
      have read : readable C entries = entries :=
        start.eq_of_length_le ((congrArg List.length all).ge.trans sub.length_le)
      exact ⟨read, read ▸ whole.mp (all.trans read.symm)⟩
    · rintro ⟨read, readmits⟩
      rw [read] at whole
      exact whole.mpr readmits
  · rw [if_pos (UInt32.not_le.mp few)]
    refine iff_of_false ?_ ?_
    · intro restored
      have none : entries = [] := by
        refine List.eq_nil_iff_forall_not_mem.mpr fun p mem => ?_
        obtain ⟨h, e, found, -⟩ := (mem_snapshot perm).mp mem
        obtain ⟨e', found', -⟩ := restored h e found
        cases found'
      rw [none] at few
      exact few (by decide)
    · rintro ⟨short, -⟩
      refine few (UInt32.le_iff_toNat_le.mpr ?_)
      rw [UInt32.toNat_ofNat']
      exact (Nat.mod_le _ _).trans short

end Mempool

namespace SmallNetwork

/-- The family is told apart by its hashes. -/
def familyCodec : TxCodec where
  serialize tx := tx.hash.toBytes
  deserialize bytes :=
    if bytes = parent.hash.toBytes then some parent
    else if bytes = child.hash.toBytes then some child
    else none

/-- The chain has what the parent spends. -/
def familyChain (o : OutPoint) : Bool := parent.inputs.any (·.outpoint = o)

theorem familyPool_lookup {h : Bytes32} {e : Mempool.Entry}
    (found : familyPool.mIndex.lookup h = some e) :
    e.entryTime = 0 ∧ e.fee = 10 ∧ familyCodec.Carries e.tx := by
  have all : ∀ x ∈ familyPool.mIndex.entries, x.2.entryTime = 0 ∧ x.2.fee = 10 ∧
      familyCodec.deserialize (familyCodec.serialize x.2.tx) = some x.2.tx ∧
      (familyCodec.serialize x.2.tx).length < 2 ^ 32 := by decide +kernel
  obtain ⟨time, fee, inverts, fits⟩ := all _ (AList.mem_lookup_iff.mp found)
  exact ⟨time, fee, inverts, fits⟩

end SmallNetwork

namespace SmallNetwork

/-- Each of the family finds its parent before it when the parent is written first. -/
theorem readmits_family : ∀ before p after,
    familyPool.snapshot List.reverse = before ++ p :: after →
      Mempool.Readmits rates smallNetwork 1000 5 familyChain before p := by
  have written : familyPool.snapshot List.reverse = [⟨parent, 10, 0⟩, ⟨child, 10, 0⟩] := by
    decide +kernel
  rw [written]
  intro before p after split
  rcases before with _ | ⟨q, before⟩
  · cases split
    exact ⟨fun input mem => .inl (by revert input; decide +kernel), by decide +kernel⟩
  · rw [List.cons_append, List.cons.injEq] at split
    obtain ⟨rfl, split⟩ := split
    rcases before with _ | ⟨r, before⟩
    · cases split
      refine ⟨fun input mem => .inr ⟨_, List.mem_cons_self, ?_⟩, by decide +kernel⟩
      revert input
      decide +kernel
    · simp at split

end SmallNetwork

open SmallNetwork in
/-- With the parent written first the child is back after a restart. -/
theorem load_restores_iff_family :
    ((Mempool.load familyCodec rates smallNetwork
      (Mempool.admitKnown familyChain fun _ => 10) 5 5
      (Mempool.save familyCodec (familyPool.snapshot List.reverse)) (.new rates 1000)).pool.mIndex.lookup
        child.hash).isSome = true := by
  have restored := Mempool.load_restores_iff familyCodec rates smallNetwork 1000
    [.addTransaction parent 10 0, .addTransaction child 10 0] List.reverse 5 familyChain
    (fun _ => 10) rfl List.reverse_perm
    (fun h e found => by rw [(familyPool_lookup found).1]; decide)
    (fun h e found => (familyPool_lookup found).2.1.symm)
    (fun h e found => (familyPool_lookup found).2.2)
  obtain ⟨e, found⟩ : ∃ e, familyPool.mIndex.lookup child.hash = some e :=
    Option.isSome_iff_exists.mp (by decide +kernel)
  obtain ⟨e', found', -⟩ := restored.mpr
    ⟨by decide +kernel, by decide +kernel, readmits_family⟩ child.hash e found
  unfold familyPool
  rw [found']
  rfl

open SmallNetwork in
/-- With the child written first it is refused, its parent not yet there. -/
theorem restart_loses_child :
    (familyPool.mIndex.lookup child.hash).isSome = true ∧
    ((Mempool.load familyCodec rates smallNetwork
      (Mempool.admitKnown familyChain fun _ => 10) 5 5
      (Mempool.save familyCodec (familyPool.snapshot id)) (.new rates 1000)).pool.mIndex.lookup
        child.hash).isSome = false := by
  constructor <;> decide +kernel

end QmaskCore
