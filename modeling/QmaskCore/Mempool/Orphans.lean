import QmaskCore.Mempool.Settled

/-!
Whether a transaction leaves the pool together with what depends on it.

Eviction and `RemoveForBlock` take the descendants along, expiry does not.
`no_orphans` is the statement for runs in which expired transactions have only
expired ones spending from them; `expired_parent_leaves_child` is a run that
leaves a child behind.
-/

namespace QmaskCore

namespace Mempool

variable {Rate : Type} {s s' : Mempool Rate}

/-- An entry goes from `s` to `s'` without being confirmed only with all that
depends on it. Entries count, not hashes: the same transaction may come back. -/
def LeavesTogether (s s' : Mempool Rate) (confirmed : Bytes32 → Prop) : Prop :=
  ∀ a ea, s.mIndex.lookup a = some ea → s'.mIndex.lookup a ≠ some ea → ¬ confirmed a →
    ∀ b eb, s.mIndex.lookup b = some eb → s.DescendsFrom a b → s'.mIndex.lookup b ≠ some eb

/-- What an operation confirms. -/
def Op.Confirms : Op → Bytes32 → Prop
  | .removeForBlock blockTxs, h => Mempool.Confirms blockTxs h
  | _, _ => False

/-- An addition or a block, and whatever spends an output of an entry the
addition expires has expired itself. -/
def Op.FamiliesExpire (s : Mempool Rate) : Op → Prop
  | .addTransaction _ _ now => s.Downward (s.enteredBefore (now.toInt - expirySeconds))
  | .removeForBlock _ => True
  | .removeTransaction _ => False
  | .clear => False

/-- Entering a transaction keeps the spends of the pool. -/
theorem SpendsFrom.insert {P : Params} {tx : Transaction} {fee now : Int} {a b : Bytes32}
    (new : s.mIndex.lookup tx.hash = none) (spends : s.SpendsFrom a b) :
    (Mempool.insert P tx fee now s).SpendsFrom a b := by
  have kept {h : Bytes32} {e : Entry} (found : s.mIndex.lookup h = some e) :
      (Mempool.insert P tx fee now s).mIndex.lookup h = some e := by
    rw [lookup_insert, if_neg, found]
    rintro rfl
    rw [new] at found
    cases found
  obtain ⟨ea, eb, foundA, foundB, output⟩ := spends
  exact ⟨ea, eb, kept foundA, kept foundB, output⟩

section

variable {A : RateArith Rate} {P : Params} {tx : Transaction} {fee now : Int} {t u : Mempool Rate}
  {gone : Set Bytes32}

/-- What was not in the pool before has a number of its own. -/
theorem Adds.numbered (adds : Adds A P tx fee now s t u s' gone) {h : Bytes32} {e : Entry}
    (found : s'.mIndex.lookup h = some e) :
    t.mIndex.lookup h = some e ∨ s.mSequenceCounter < e.seq := by
  refine (adds.lookup found).imp_right ?_
  rintro ⟨-, -, -, -, rfl⟩
  change s.mSequenceCounter < t.mSequenceCounter + 1
  rw [adds.expires.counter]
  exact Nat.lt_succ_self _

theorem Adds.leavesTogether (wf : s.WF) (adds : Adds A P tx fee now s t u s' gone)
    (families : s.Downward (s.enteredBefore (now - expirySeconds))) :
    LeavesTogether s s' fun _ => False := by
  intro a ea foundA left _ b eb foundB path
  -- An entry of `s` that expires does not come back.
  have out {h : Bytes32} {e : Entry} (found : s.mIndex.lookup h = some e)
      (expired : h ∈ s.enteredBefore (now - expirySeconds)) : s'.mIndex.lookup h ≠ some e := by
    intro back
    rcases adds.numbered back with there | later
    · rw [adds.expires.lookup_eq_none expired] at there
      cases there
    · exact absurd (wf.counted found) (by omega)
  rcases adds.expires.descends families path with expired | path
  · exact out foundB expired
  by_cases expired : a ∈ s.enteredBefore (now - expirySeconds)
  · exact out foundB (families.descends (Relation.ReflTransGen.mono
      (fun _ _ spends => (adds.expires.spendsFrom.mp spends).1) _ _ path) expired)
  have foundT := adds.expires.lookup.mpr ⟨foundA, expired⟩
  obtain ⟨foundU, pathU⟩ : u.mIndex.lookup a = some ea ∧ u.DescendsFrom a b := by
    rcases adds.enters with rfl | ⟨valid, -, -, rfl⟩
    · exact ⟨foundT, path⟩
    · have new := (validateForPool_eq_true.mp valid).2.2.2.1
      refine ⟨?_, Relation.ReflTransGen.mono (fun _ _ spends => spends.insert new) _ _ path⟩
      rw [lookup_insert, if_neg, foundT]
      rintro rfl
      rw [new] at foundT
      cases foundT
  have evicted : a ∈ gone := by
    by_contra kept
    exact left (adds.evicts.lookup.mpr ⟨foundU, kept⟩)
  rw [adds.evicts.lookup_eq_none (adds.down.descends pathU evicted)]
  exact fun none => nomatch none

end

variable {A : RateArith Rate} {P : Params}

/-- One operation. -/
theorem leavesTogether_step (wf : s.WF) {op : Op} (families : op.FamiliesExpire s) :
    LeavesTogether s (step A P s op) op.Confirms := by
  cases op with
  | addTransaction tx fee now =>
      obtain ⟨t, u, gone, adds⟩ := addTransaction_adds A P tx fee.toInt now.toInt wf
      exact adds.leavesTogether wf families
  | removeTransaction txHash => exact families.elim
  | removeForBlock blockTxs =>
      have drops := removeForBlock_drops wf blockTxs
      intro a ea foundA left _ b eb _ path
      have out : a ∈ s.below fun h e => ∃ tx ∈ blockTxs, Touches tx h e := by
        by_contra kept
        exact left (drops.lookup.mpr ⟨foundA, kept⟩)
      intro kept
      exact (drops.lookup.mp kept).2 ((downward_below s _).descends path out)
  | clear => exact families.elim

/-- No entry comes back: what is new has a number above all before. -/
theorem lookup_step (wf : s.WF) (op : Op) :
    s.mSequenceCounter ≤ (step A P s op).mSequenceCounter ∧
      ∀ h e, (step A P s op).mIndex.lookup h = some e →
        s.mIndex.lookup h = some e ∨ s.mSequenceCounter < e.seq := by
  have dropped {s' : Mempool Rate} {gone : Set Bytes32} (drops : Drops s s' gone) :
      s.mSequenceCounter ≤ s'.mSequenceCounter ∧ ∀ h e, s'.mIndex.lookup h = some e →
        s.mIndex.lookup h = some e ∨ s.mSequenceCounter < e.seq :=
    ⟨drops.counter.ge, fun h e found => .inl (drops.sub found)⟩
  cases op with
  | addTransaction tx fee now =>
      obtain ⟨t, u, gone, adds⟩ := addTransaction_adds A P tx fee.toInt now.toInt wf
      refine ⟨?_, fun h e found => (adds.numbered found).imp_left adds.expires.sub⟩
      refine (adds.expires.counter.ge.trans ?_).trans adds.evicts.counter.ge
      rcases adds.enters with rfl | ⟨-, -, -, rfl⟩
      · exact le_rfl
      · exact Nat.le_succ _
  | removeTransaction txHash => exact dropped (drops_removeLocked wf txHash)
  | removeForBlock blockTxs => exact dropped (removeForBlock_drops wf blockTxs)
  | clear => exact ⟨le_rfl, fun h e found => nomatch found⟩

theorem lookup_run : ∀ (ops : List Op) {s : Mempool Rate}, s.Consistent → ∀ {h : Bytes32} {e : Entry},
    (run A P s ops).mIndex.lookup h = some e →
      s.mIndex.lookup h = some e ∨ s.mSequenceCounter < e.seq := by
  intro ops
  induction ops with
  | nil => exact fun _ _ _ found => .inl found
  | cons op ops ih =>
      intro s ok h e found
      obtain ⟨count, back⟩ := lookup_step (A := A) (P := P) ok.toWF op
      rcases ih (ok.step op) found with here | later
      · exact back h e here
      · exact .inr (by omega)

/-- Every operation of a run meets `Op.FamiliesExpire` where it is made. -/
def FamiliesExpire (A : RateArith Rate) (P : Params) : Mempool Rate → List Op → Prop
  | _, [] => True
  | s, op :: ops => op.FamiliesExpire s ∧ FamiliesExpire A P (step A P s op) ops

theorem familiesExpire_append {ops' : List Op} : ∀ {ops : List Op} {s : Mempool Rate},
    FamiliesExpire A P s (ops ++ ops') ↔
      FamiliesExpire A P s ops ∧ FamiliesExpire A P (run A P s ops) ops' := by
  intro ops
  induction ops with
  | nil => simp [FamiliesExpire, run]
  | cons op ops ih =>
      intro s
      rw [List.cons_append, FamiliesExpire, FamiliesExpire, ih, and_assoc]
      rfl

/-- A parent is there as long as the entry that spends from it, or confirmed. -/
theorem parent_kept : ∀ {ops : List Op} {s : Mempool Rate}, s.Consistent →
    FamiliesExpire A P s ops → ∀ {a b : Bytes32} {ea eb : Entry},
    s.mIndex.lookup a = some ea → s.mIndex.lookup b = some eb → s.SpendsFrom a b →
    (run A P s ops).mIndex.lookup b = some eb →
    (run A P s ops).mIndex.lookup a = some ea ∨ ∃ op ∈ ops, op.Confirms a := by
  intro ops
  induction ops with
  | nil => exact fun _ _ _ _ _ _ foundA _ _ _ => .inl foundA
  | cons op ops ih =>
      intro s ok families a b ea eb foundA foundB spends found
      obtain ⟨count, -⟩ := lookup_step (A := A) (P := P) ok.toWF op
      have next : (step A P s op).mIndex.lookup b = some eb := by
        refine (lookup_run ops (ok.step op) found).resolve_right fun later => ?_
        exact absurd (ok.counted foundB) (by omega)
      by_cases confirmed : op.Confirms a
      · exact .inr ⟨op, List.mem_cons_self, confirmed⟩
      have nextA : (step A P s op).mIndex.lookup a = some ea := by
        by_contra left
        exact leavesTogether_step ok.toWF families.1 a ea foundA left confirmed b eb foundB
          (.single spends) next
      have spends' : (step A P s op).SpendsFrom a b := by
        obtain ⟨ea', eb', foundA', foundB', output⟩ := spends
        rw [foundA] at foundA'
        rw [foundB] at foundB'
        cases foundA'
        cases foundB'
        exact ⟨ea, eb, nextA, next, output⟩
      refine (ih (ok.step op) families.2 nextA next spends' found).imp_right ?_
      rintro ⟨op', mem, confirmed⟩
      exact ⟨op', List.mem_cons_of_mem _ mem, confirmed⟩

/-- **No orphans.** In a run of additions and blocks where expired transactions
have only expired ones spending from them: an entry that leaves unconfirmed
leaves with all that depends on it, and the parent of an entry that was in the
pool with it is still there or was confirmed. -/
theorem no_orphans (A : RateArith Rate) (P : Params) (maxBytes : Nat) (before after : List Op)
    (families : FamiliesExpire A P (new A maxBytes) (before ++ after)) :
    (∀ op rest, after = op :: rest →
      LeavesTogether (run A P (new A maxBytes) before) (run A P (new A maxBytes) (before ++ [op]))
        op.Confirms) ∧
      ∀ a b ea eb, (run A P (new A maxBytes) before).mIndex.lookup a = some ea →
        (run A P (new A maxBytes) before).mIndex.lookup b = some eb →
        (run A P (new A maxBytes) before).SpendsFrom a b →
        (run A P (new A maxBytes) (before ++ after)).mIndex.lookup b = some eb →
        (run A P (new A maxBytes) (before ++ after)).mIndex.lookup a = some ea ∨
          ∃ op ∈ after, op.Confirms a := by
  have ok := (consistent_new A maxBytes).run (A := A) (P := P) before
  have later := (familiesExpire_append.mp families).2
  have joined (ops : List Op) : run A P (new A maxBytes) (before ++ ops) =
      run A P (run A P (new A maxBytes) before) ops := List.foldl_append
  constructor
  · rintro op rest rfl
    rw [joined]
    exact leavesTogether_step ok.toWF later.1
  · intro a b ea eb foundA foundB spends found
    rw [joined] at found ⊢
    exact parent_kept ok later foundA foundB spends found

/-- Entries that are all on one side of the cutoff are no broken family. -/
theorem downward_enteredBefore {cutoff : Int}
    (same : ∀ x ∈ s.mIndex.entries, ∀ y ∈ s.mIndex.entries,
      x.2.entryTime < cutoff → y.2.entryTime < cutoff) : s.Downward (s.enteredBefore cutoff) := by
  rintro a ⟨ea, foundA, old⟩ b ⟨-, eb, -, foundB, -⟩
  exact ⟨eb, foundB, same _ (AList.mem_lookup_iff.mp foundA) _ (AList.mem_lookup_iff.mp foundB) old⟩

end Mempool

namespace SmallNetwork

/-- A payment that has nothing to do with the family, two weeks later. -/
def latecomer (late : Int64) : Mempool.Op :=
  .addTransaction (pay 7 3 4 10) 10 (Int64.ofInt Mempool.expirySeconds + late)

end SmallNetwork

open SmallNetwork in
theorem no_orphans_family : Mempool.LeavesTogether familyPool
    (Mempool.step rates smallNetwork familyPool (latecomer 50)) (latecomer 50).Confirms := by
  have families : Mempool.FamiliesExpire rates smallNetwork (.new rates 1000)
      ([.addTransaction parent 10 0, .addTransaction child 10 0] ++ [latecomer 50]) := by
    refine ⟨?_, ?_, ?_, trivial⟩
    · exact Mempool.downward_enteredBefore (by decide +kernel)
    · exact Mempool.downward_enteredBefore (by decide +kernel)
    · exact Mempool.downward_enteredBefore (by decide +kernel)
  exact (Mempool.no_orphans rates smallNetwork 1000 _ _ families).1 (latecomer 50) [] rfl

namespace SmallNetwork

/-- The child came after the parent. -/
def agedPool : Mempool Int :=
  .run rates smallNetwork (.new rates 1000)
    [.addTransaction parent 10 0, .addTransaction child 10 100]

end SmallNetwork

open SmallNetwork in
/-- The parent expires, and the child that spends from it stays. -/
theorem expired_parent_leaves_child : ¬ Mempool.LeavesTogether agedPool
    (Mempool.step rates smallNetwork agedPool (latecomer 50)) (latecomer 50).Confirms := by
  intro together
  obtain ⟨ea, foundA⟩ : ∃ e, agedPool.mIndex.lookup parent.hash = some e :=
    Option.isSome_iff_exists.mp (by decide +kernel)
  obtain ⟨eb, foundB⟩ : ∃ e, agedPool.mIndex.lookup child.hash = some e :=
    Option.isSome_iff_exists.mp (by decide +kernel)
  let next := Mempool.step rates smallNetwork agedPool (latecomer 50)
  have left : (next.mIndex.lookup parent.hash).isSome = false := by decide +kernel
  have kept : next.mIndex.lookup child.hash = agedPool.mIndex.lookup child.hash := by
    decide +kernel
  have path : agedPool.DescendsFrom parent.hash child.hash := by
    have wf : agedPool.WF := ((Mempool.consistent_new rates 1000).run _).toWF
    exact .single ((Mempool.mem_childrenOf wf).mp (by decide +kernel))
  refine together _ ea foundA ?_ id _ eb foundB path (kept.trans foundB)
  intro back
  rw [back] at left
  cases left

end QmaskCore
