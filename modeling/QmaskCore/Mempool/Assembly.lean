import QmaskCore.Mempool.Settled

/-!
The order in which a block is assembled.

`getTransactions` walks the fee index from its end. `ranked` lists the entries
of the pool the way the walk meets them: the better paid first, and of two that
are paid the same the one admitted later (`sorted_ranked`). `InOrder` is the
order the pool documents, which settles such ties the other way, and
`assembly_order_iff` says for which pools and counts the two agree.
-/

namespace QmaskCore

namespace Mempool

variable {Rate : Type} {s : Mempool Rate}

/-! ### The walk -/

/-- The entries in the order the fee index is walked backwards. -/
def ranked (s : Mempool Rate) : List Entry :=
  (s.mByFeeRate.entries.mergeSort fun a b => b.1 ≤ a.1).filterMap fun x => s.mIndex.lookup x.2

theorem getTransactions_eq (maxCount : Nat) (s : Mempool Rate) :
    getTransactions maxCount s = (s.ranked.take maxCount).map (·.tx) := by
  rw [getTransactions, ranked, List.map_take, List.map_filterMap]

theorem WF.mem_ranked (wf : s.WF) {e : Entry} :
    e ∈ s.ranked ↔ s.mIndex.lookup e.tx.hash = some e := by
  simp only [ranked, List.mem_filterMap, List.mem_mergeSort]
  constructor
  · rintro ⟨x, -, found⟩
    rw [wf.keyed found, found]
  · intro found
    have indexed := wf.byFeeRate.lookup found (List.mem_singleton_self _)
    exact ⟨⟨e.feeKey, e.tx.hash⟩, AList.mem_lookup_iff.mp indexed, found⟩

/-- The walk meets the keys from the greatest down. -/
theorem WF.sorted_ranked (wf : s.WF) : s.ranked.Pairwise fun a b => b.feeKey < a.feeKey := by
  have keyed {x : Σ _ : Int ×ₗ Nat, Bytes32} (mem : x ∈ s.mByFeeRate.entries) {e : Entry}
      (found : s.mIndex.lookup x.2 = some e) : x.1 = e.feeKey := by
    obtain ⟨e', found', key⟩ := (wf.byFeeRate x.1 x.2).mp (AList.mem_lookup_iff.mpr mem)
    rw [found] at found'
    cases found'
    exact List.mem_singleton.mp key
  have falling : (s.mByFeeRate.entries.mergeSort fun a b => b.1 ≤ a.1).Pairwise
      fun a b => b.1 ≤ a.1 := by
    refine (List.pairwise_mergeSort ?_ ?_ _).imp of_decide_eq_true
    · intro a b c ab bc
      exact decide_eq_true ((of_decide_eq_true bc).trans (of_decide_eq_true ab))
    · intro a b
      simpa using le_total b.1 a.1
  have distinct : (s.mByFeeRate.entries.mergeSort fun a b => b.1 ≤ a.1).Pairwise
      fun a b => a.1 ≠ b.1 := by
    refine (List.Perm.pairwise_iff (fun ne => ne.symm) (List.mergeSort_perm _ _)).mpr ?_
    exact List.nodupKeys_iff_pairwise.mp s.mByFeeRate.nodupKeys
  refine List.pairwise_filterMap.mpr ?_
  refine (falling.and distinct).imp_of_mem fun memA memB both a foundA b foundB => ?_
  rw [← keyed (List.mem_mergeSort.mp memA) foundA, ← keyed (List.mem_mergeSort.mp memB) foundB]
  exact lt_of_le_of_ne both.1 both.2.symm

theorem WF.nodup_ranked (wf : s.WF) : s.ranked.Nodup :=
  wf.sorted_ranked.imp fun lt same => absurd (same ▸ lt) (lt_irrefl _)

/-- The walk meets each entry of the pool once. -/
theorem WF.ranked_perm (wf : s.WF) : s.ranked.Perm (s.mIndex.entries.map (·.2)) := by
  have distinct : (s.mIndex.entries.map (·.2)).Nodup := by
    refine List.pairwise_map.mpr ?_
    refine (List.nodupKeys_iff_pairwise.mp s.mIndex.nodupKeys).imp_of_mem ?_
    intro x y memX memY other same
    apply other
    rw [← wf.keyed (AList.mem_lookup_iff.mpr memX), same, wf.keyed (AList.mem_lookup_iff.mpr memY)]
  refine (List.perm_ext_iff_of_nodup wf.nodup_ranked distinct).mpr fun e => ?_
  rw [wf.mem_ranked, List.mem_map]
  constructor
  · exact fun found => ⟨⟨e.tx.hash, e⟩, AList.mem_lookup_iff.mp found, rfl⟩
  · rintro ⟨x, mem, rfl⟩
    have found := AList.mem_lookup_iff.mpr mem
    rw [wf.keyed found, found]

/-! ### The order promised -/

/-- Better paid, or paid the same and admitted earlier. -/
def Entry.Before (a b : Entry) : Prop :=
  b.feePerK < a.feePerK ∨ a.feePerK = b.feePerK ∧ a.seq < b.seq

/-- Up to `maxCount` entries of the pool, each before those that come later and
before those left out. -/
structure InOrder (s : Mempool Rate) (maxCount : Nat) (picked : List Entry) : Prop where
  held : ∀ e ∈ picked, s.mIndex.lookup e.tx.hash = some e
  nodup : picked.Nodup
  length : picked.length = min maxCount s.mIndex.keys.length
  order : picked.Pairwise Entry.Before
  best : ∀ e ∈ picked, ∀ h left, s.mIndex.lookup h = some left → left ∉ picked → e.Before left

/-- How many entries of the pool are paid better than a rate. -/
def betterPaid (s : Mempool Rate) (rate : Int) : Nat :=
  s.mIndex.entries.countP fun x => rate < x.2.feePerK

/-- No two entries that are paid the same are among the `maxCount` best. -/
def Untied (s : Mempool Rate) (maxCount : Nat) : Prop :=
  ∀ h e h' e', s.mIndex.lookup h = some e → s.mIndex.lookup h' = some e' → h ≠ h' →
    e.feePerK = e'.feePerK → maxCount ≤ s.betterPaid e.feePerK

theorem Entry.feeKey_lt {a b : Entry} :
    b.feeKey < a.feeKey ↔ b.feePerK < a.feePerK ∨ b.feePerK = a.feePerK ∧ b.seq < a.seq :=
  Prod.Lex.toLex_lt_toLex

theorem WF.betterPaid_eq (wf : s.WF) (rate : Int) :
    s.betterPaid rate = s.ranked.countP fun e => rate < e.feePerK := by
  rw [betterPaid, wf.ranked_perm.countP_eq, List.countP_map]
  rfl

/-- The transactions of entries the pool holds name the entries. -/
theorem eq_of_map_tx {as bs : List Entry}
    (heldA : ∀ e ∈ as, s.mIndex.lookup e.tx.hash = some e)
    (heldB : ∀ e ∈ bs, s.mIndex.lookup e.tx.hash = some e)
    (same : as.map (·.tx) = bs.map (·.tx)) : as = bs := by
  have found {es : List Entry} (held : ∀ e ∈ es, s.mIndex.lookup e.tx.hash = some e) :
      (es.map (·.tx)).map (fun tx => s.mIndex.lookup tx.hash) = es.map some := by
    rw [List.map_map]
    exact List.map_congr_left held
  refine List.map_injective_iff.mpr (Option.some_injective _) ?_
  rw [← found heldA, ← found heldB, same]

/-! ### Where the two agree -/

/-- An order as promised, given as the walk returns it, is the walk's own. -/
theorem InOrder.eq_take (wf : s.WF) {maxCount : Nat} {picked : List Entry}
    (inOrder : s.InOrder maxCount picked)
    (same : getTransactions maxCount s = picked.map (·.tx)) :
    picked = s.ranked.take maxCount := by
  refine eq_of_map_tx inOrder.held ?_ ?_
  · exact fun e mem => wf.mem_ranked.mp (List.mem_of_mem_take mem)
  · rw [← same, getTransactions_eq]

/-- The keys tell the entries apart, so of two that tie one was admitted later. -/
theorem WF.feeKey_inj (wf : s.WF) {a b : Entry} (memA : a ∈ s.ranked) (memB : b ∈ s.ranked)
    (same : a.feeKey = b.feeKey) : a = b := by
  by_contra other
  have apart : s.ranked.Pairwise fun a b => a.feeKey ≠ b.feeKey :=
    wf.sorted_ranked.imp fun lt => lt.ne'
  have : Std.Symm fun a b : Entry => a.feeKey ≠ b.feeKey := ⟨fun _ _ ne => ne.symm⟩
  exact apart.forall memA memB other same

/-- What the walk leaves out is behind everything it picks. -/
theorem WF.lt_of_left (wf : s.WF) {maxCount : Nat} {e left : Entry}
    (mem : e ∈ s.ranked.take maxCount) (held : left ∈ s.ranked)
    (out : left ∉ s.ranked.take maxCount) : left.feeKey < e.feeKey := by
  have sorted := wf.sorted_ranked
  rw [← List.take_append_drop maxCount s.ranked] at sorted held
  exact (List.pairwise_append.mp sorted).2.2 e mem left ((List.mem_append.mp held).resolve_left out)

/-- Of two that tie, the later one is not among those picked in order. -/
theorem InOrder.later_not_mem (wf : s.WF) {maxCount : Nat}
    (inOrder : s.InOrder maxCount (s.ranked.take maxCount)) {a b : Entry} (heldA : a ∈ s.ranked)
    (same : a.feePerK = b.feePerK) (lt : a.seq < b.seq) : b ∉ s.ranked.take maxCount := by
  intro mem
  have late : ¬ b.Before a := by
    rintro (better | ⟨-, earlier⟩)
    · omega
    · omega
  by_cases memA : a ∈ s.ranked.take maxCount
  · -- the walk meets `b` first, and the order promised says the opposite
    have both := (wf.sorted_ranked.sublist (List.take_sublist _ _)).and inOrder.order
    let Ordered (x y : Entry) := y.feeKey < x.feeKey ∧ x.Before y
    have either : (s.ranked.take maxCount).Pairwise fun x y => Ordered x y ∨ Ordered y x :=
      both.imp .inl
    have : Std.Symm fun x y => Ordered x y ∨ Ordered y x := ⟨fun _ _ => .symm⟩
    have ne : b ≠ a := by
      rintro rfl
      exact lt_irrefl _ lt
    rcases either.forall mem memA ne with ⟨-, before⟩ | ⟨key, -⟩
    · exact late before
    · rcases Entry.feeKey_lt.mp key with less | ⟨-, earlier⟩
      · omega
      · omega
  · exact late (inOrder.best b mem _ a (wf.mem_ranked.mp heldA) memA)

/-- An entry that ties with a later one is not picked: all that is picked is
better paid. -/
theorem InOrder.untied (wf : s.WF) {maxCount : Nat}
    (inOrder : s.InOrder maxCount (s.ranked.take maxCount)) : s.Untied maxCount := by
  have main {a b : Entry} (heldA : a ∈ s.ranked) (heldB : b ∈ s.ranked)
      (same : a.feePerK = b.feePerK) (lt : a.seq < b.seq) : maxCount ≤ s.betterPaid b.feePerK := by
    have out := inOrder.later_not_mem wf heldA same lt
    have full : (s.ranked.take maxCount).length = maxCount := by
      refine List.length_take_of_le ?_
      by_contra short
      have whole : s.ranked.take maxCount = s.ranked := List.take_of_length_le (by omega)
      exact out (whole.symm ▸ heldB)
    have better : ∀ e ∈ s.ranked.take maxCount, decide (b.feePerK < e.feePerK) = true := by
      intro e mem
      refine decide_eq_true ?_
      rcases inOrder.best e mem _ b (wf.mem_ranked.mp heldB) out with more | ⟨-, earlier⟩
      · exact more
      · rcases Entry.feeKey_lt.mp (wf.lt_of_left mem heldB out) with more | ⟨-, later⟩
        · exact more
        · omega
    calc maxCount
        = (s.ranked.take maxCount).countP fun e => b.feePerK < e.feePerK := by
          rw [List.countP_eq_length.mpr better, full]
      _ ≤ s.ranked.countP fun e => b.feePerK < e.feePerK := (List.take_sublist _ _).countP_le
      _ = s.betterPaid b.feePerK := (wf.betterPaid_eq _).symm
  intro h e h' e' found found' other same
  have held := wf.mem_ranked.mpr ((wf.keyed found).symm ▸ found)
  have held' := wf.mem_ranked.mpr ((wf.keyed found').symm ▸ found')
  rcases lt_trichotomy e.seq e'.seq with lt | eq | gt
  · rw [same]
    exact main held held' same lt
  · have one := wf.feeKey_inj held held' (by rw [Entry.feeKey, Entry.feeKey, same, eq])
    rw [one] at found
    exact absurd ((wf.keyed found).symm.trans (wf.keyed found')) other
  · exact main held' held same.symm gt

/-- All that is paid better than an entry picked is met before it. -/
theorem WF.betterPaid_lt (wf : s.WF) {maxCount : Nat} {e : Entry}
    (mem : e ∈ s.ranked.take maxCount) : s.betterPaid e.feePerK < maxCount := by
  obtain ⟨u, w, split⟩ := List.append_of_mem mem
  have whole : s.ranked = u ++ e :: (w ++ s.ranked.drop maxCount) := by
    rw [← List.cons_append, ← List.append_assoc, ← split, List.take_append_drop]
  have behind : ∀ x ∈ e :: (w ++ s.ranked.drop maxCount), ¬ decide (e.feePerK < x.feePerK) := by
    have sorted := wf.sorted_ranked
    rw [whole] at sorted
    have below := (List.pairwise_cons.mp (List.pairwise_append.mp sorted).2.1).1
    intro x memX more
    have more := of_decide_eq_true more
    rcases List.mem_cons.mp memX with rfl | later
    · omega
    · rcases Entry.feeKey_lt.mp (below x later) with less | ⟨same, -⟩
      · omega
      · omega
  have short : u.length < maxCount := by
    have := congrArg List.length split
    simp only [List.length_take, List.length_append, List.length_cons] at this
    omega
  rw [wf.betterPaid_eq, whole, List.countP_append, List.countP_eq_zero.mpr behind]
  exact lt_of_le_of_lt List.countP_le_length short

theorem Untied.inOrder (wf : s.WF) {maxCount : Nat} (untied : s.Untied maxCount) :
    s.InOrder maxCount (s.ranked.take maxCount) := by
  -- what is behind an entry picked is paid less, as nothing ties with it
  have before {x y : Entry} (mem : x ∈ s.ranked.take maxCount) (held : y ∈ s.ranked)
      (lt : y.feeKey < x.feeKey) : x.Before y := by
    rcases Entry.feeKey_lt.mp lt with less | ⟨same, earlier⟩
    · exact .inl less
    · have heldX := wf.mem_ranked.mp (List.mem_of_mem_take mem)
      have heldY := wf.mem_ranked.mp held
      have other : x.tx.hash ≠ y.tx.hash := by
        intro hash
        rw [hash, heldY] at heldX
        cases heldX
        omega
      have := untied _ _ _ _ heldX heldY other same.symm
      have := wf.betterPaid_lt mem
      omega
  constructor
  · exact fun e mem => wf.mem_ranked.mp (List.mem_of_mem_take mem)
  · exact wf.nodup_ranked.sublist (List.take_sublist _ _)
  · rw [List.length_take, wf.ranked_perm.length_eq, List.length_map, AList.keys, List.keys,
      List.length_map]
  · refine (wf.sorted_ranked.sublist (List.take_sublist maxCount _)).imp_of_mem ?_
    exact fun memX memY lt => before memX (List.mem_of_mem_take memY) lt
  · intro e mem h left found out
    have held := wf.mem_ranked.mpr ((wf.keyed found).symm ▸ found)
    exact before mem held (wf.lt_of_left mem held out)

/-- **The order of a block.** For a pool reached by any operations and any
count: the walk returns what the pool documents if and only if no two entries
paid the same are among those the count admits. -/
theorem assembly_order_iff (A : RateArith Rate) (P : Params) (maxBytes : Nat) (ops : List Op)
    (maxCount : Nat) :
    let s := run A P (new A maxBytes) ops
    (∃ picked, getTransactions maxCount s = picked.map (·.tx) ∧ s.InOrder maxCount picked) ↔
      s.Untied maxCount := by
  intro s
  have wf : s.WF := ((consistent_new A maxBytes).run ops).toWF
  constructor
  · rintro ⟨picked, same, inOrder⟩
    rw [inOrder.eq_take wf same] at inOrder
    exact inOrder.untied wf
  · exact fun untied => ⟨_, getTransactions_eq maxCount s, untied.inOrder wf⟩

end Mempool

open SmallNetwork in
/-- A pool of two transactions that are paid the same, assembled whole. -/
theorem tied_pool_out_of_order :
    ¬ ∃ picked, Mempool.getTransactions 2 familyPool = picked.map (·.tx) ∧
      familyPool.InOrder 2 picked := by
  rintro ⟨picked, same, inOrder⟩
  have wf : familyPool.WF := ((Mempool.consistent_new rates 1000).run _).toWF
  rw [inOrder.eq_take wf same] at inOrder
  have entries : ∃ p c, familyPool.mIndex.lookup parent.hash = some p ∧
      familyPool.mIndex.lookup child.hash = some c ∧ p.feePerK = 100 ∧ c.feePerK = 100 :=
    ⟨(familyPool.mIndex.lookup parent.hash).get (by decide +kernel),
      (familyPool.mIndex.lookup child.hash).get (by decide +kernel),
      (Option.some_get _).symm, (Option.some_get _).symm, by decide +kernel, by decide +kernel⟩
  obtain ⟨p, c, foundP, foundC, paidP, paidC⟩ := entries
  have crowd := inOrder.untied wf _ _ _ _ foundP foundC (by decide) (by rw [paidP, paidC])
  rw [paidP] at crowd
  exact absurd crowd (by decide +kernel)

end QmaskCore
