import QmaskCore.Mempool.Steps
import QmaskCore.SmallNetwork

/-!
What a block settles.

`Settles` is what the comment on `RemoveForBlock` promises to take out: the
transactions of the block and those that conflict with one, with what depends
on the latter. All of it goes, but so does everything that depends on a
confirmed transaction. `removeForBlock_settles_iff` says when that makes no
difference, and `confirmed_parent_takes_child` is a pool where it does.
-/

namespace QmaskCore

namespace Mempool

variable {Rate : Type} {s : Mempool Rate}

/-- One of the block's transactions. A coinbase is none of the pool's. -/
def Confirms (blockTxs : List Transaction) (h : Bytes32) : Prop :=
  ∃ tx ∈ blockTxs, tx.isCoinbase = false ∧ tx.hash = h

/-- A different transaction of the block spends an outpoint of the entry's or
consumes a leaf of it. -/
def Conflicts (blockTxs : List Transaction) (h : Bytes32) (e : Entry) : Prop :=
  ∃ tx ∈ blockTxs, tx.isCoinbase = false ∧ tx.hash ≠ h ∧
    ((∃ o ∈ outpoints tx, o ∈ outpoints e.tx) ∨ ∃ key ∈ consumedLeaves tx, key ∈ e.leafKeys)

instance (blockTxs : List Transaction) (h : Bytes32) (e : Entry) :
    Decidable (Conflicts blockTxs h e) :=
  inferInstanceAs (Decidable (∃ tx ∈ blockTxs, tx.isCoinbase = false ∧ tx.hash ≠ h ∧
    ((∃ o ∈ outpoints tx, o ∈ outpoints e.tx) ∨ ∃ key ∈ consumedLeaves tx, key ∈ e.leafKeys)))

/-- Confirmed, in conflict with the block, or dependent on a transaction that
is in conflict and not confirmed. -/
def Settles (s : Mempool Rate) (blockTxs : List Transaction) (h : Bytes32) : Prop :=
  Confirms blockTxs h ∨ ∃ a e, s.mIndex.lookup a = some e ∧ Conflicts blockTxs a e ∧
    (a = h ∨ ¬ Confirms blockTxs a ∧ s.DescendsFrom a h)

/-- The block touches what it confirms and what conflicts with it. -/
theorem touches_iff {blockTxs : List Transaction} {h : Bytes32} {e : Entry} :
    (∃ tx ∈ blockTxs, Touches tx h e) ↔ Confirms blockTxs h ∨ Conflicts blockTxs h e := by
  constructor
  · rintro ⟨tx, mem, payment, rfl | takes⟩
    · exact .inl ⟨tx, mem, payment, rfl⟩
    · by_cases same : tx.hash = h
      · exact .inl ⟨tx, mem, payment, same⟩
      · exact .inr ⟨tx, mem, payment, same, takes⟩
  · rintro (⟨tx, mem, payment, rfl⟩ | ⟨tx, mem, payment, -, takes⟩)
    · exact ⟨tx, mem, payment, .inl rfl⟩
    · exact ⟨tx, mem, payment, .inr takes⟩

theorem lookup_removeForBlock (wf : s.WF) {blockTxs : List Transaction} {h : Bytes32} {e : Entry}
    (found : s.mIndex.lookup h = some e) : (removeForBlock blockTxs s).mIndex.lookup h = none ↔
      h ∈ s.below fun h e => Confirms blockTxs h ∨ Conflicts blockTxs h e := by
  have drops := (removeForBlock_drops wf blockTxs).below_congr fun h e _ => touches_iff
  constructor
  · intro gone
    by_contra kept
    rw [drops.lookup.mpr ⟨found, kept⟩] at gone
    cases gone
  · exact drops.lookup_eq_none

/-- The pool transactions a confirmed one has below it are settled when those
right below each confirmed one are. -/
theorem settles_below {blockTxs : List Transaction}
    (direct : ∀ a b, Confirms blockTxs a → s.SpendsFrom a b → s.Settles blockTxs b) {a h : Bytes32}
    (path : s.DescendsFrom a h) (start : s.Settles blockTxs a) : s.Settles blockTxs h := by
  induction path with
  | refl => exact start
  | tail _ spends ih =>
      rename_i b c _
      by_cases confirmed : Confirms blockTxs b
      · exact direct b c confirmed spends
      · rcases ih with here | ⟨x, e, found, conflict, rfl | ⟨unconfirmed, path⟩⟩
        · exact absurd here confirmed
        · exact .inr ⟨x, e, found, conflict, .inr ⟨confirmed, .single spends⟩⟩
        · exact .inr ⟨x, e, found, conflict, .inr ⟨unconfirmed, path.tail spends⟩⟩

/-- **A block and the pool.** For a pool reached by any operations and any
block: just what the block settles goes, if and only if the pool transactions
that spend an output of a confirmed one are settled themselves. -/
theorem removeForBlock_settles_iff (A : RateArith Rate) (P : Params) (maxBytes : Nat)
    (ops : List Op) (blockTxs : List Transaction) :
    let s := run A P (new A maxBytes) ops
    (∀ h e, s.mIndex.lookup h = some e →
      ((removeForBlock blockTxs s).mIndex.lookup h = none ↔ s.Settles blockTxs h)) ↔
      ∀ a b, Confirms blockTxs a → s.SpendsFrom a b → s.Settles blockTxs b := by
  intro s
  have wf : s.WF := ((consistent_new A maxBytes).run ops).toWF
  constructor
  · intro exactly a b confirmed spends
    obtain ⟨ea, eb, foundA, foundB, -⟩ := id spends
    refine (exactly b eb foundB).mp ((lookup_removeForBlock wf foundB).mpr ?_)
    exact ⟨a, ea, foundA, .inl confirmed, .single spends⟩
  · intro direct h e found
    rw [lookup_removeForBlock wf found]
    constructor
    · rintro ⟨a, ea, foundA, confirmed | conflict, path⟩
      · exact settles_below direct path (.inl confirmed)
      · exact settles_below direct path (.inr ⟨a, ea, foundA, conflict, .inl rfl⟩)
    · rintro (confirmed | ⟨a, ea, foundA, conflict, rfl | ⟨-, path⟩⟩)
      · exact ⟨h, e, found, .inl confirmed, .refl⟩
      · exact ⟨a, ea, foundA, .inr conflict, .refl⟩
      · exact ⟨a, ea, foundA, .inr conflict, path⟩

end Mempool

namespace SmallNetwork

/-- Rates that are whole numbers and never decay. -/
def rates : RateArith Int where
  zero := 0
  ofInt := id
  less a b := a < b
  isZero a := a = 0
  llround := id
  decay rate _ _ := rate
  faded rate := rate < 500
  isValid _ := true

def parent : Transaction := pay 5 2 8 10

/-- A payment of the parent's output. -/
def child : Transaction := pay 6 5 9 10

/-- A pool with a payment and one that spends it. -/
def familyPool : Mempool Int :=
  .run rates smallNetwork (.new rates 1000) [.addTransaction parent 10 0, .addTransaction child 10 0]

end SmallNetwork

open SmallNetwork in
/-- The block confirms the parent, nothing conflicts, and the child is gone. -/
theorem confirmed_parent_takes_child :
    (familyPool.mIndex.lookup child.hash).isSome = true ∧
      ¬ familyPool.Settles [parent] child.hash ∧
      ((Mempool.removeForBlock [parent] familyPool).mIndex.lookup child.hash).isSome = false := by
  refine ⟨by decide +kernel, ?_, by decide +kernel⟩
  rintro (⟨tx, mem, -, same⟩ | ⟨a, e, found, conflict, -⟩)
  · rw [List.mem_singleton.mp mem] at same
    exact absurd same (by decide)
  · have none : ∀ x ∈ familyPool.mIndex.entries, ¬ Mempool.Conflicts [parent] x.1 x.2 := by
      decide +kernel
    exact none _ (AList.mem_lookup_iff.mp found) conflict

end QmaskCore
