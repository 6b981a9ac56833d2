import Mathlib.Data.List.AList
import Mathlib.Data.Multiset.Count

/-!
Counters kept by hand.

A map from keys to positive counts is the tally of a multiset when it says for
each key how often it occurs and has no entry for the others (`Counts`).
`raise` and `lower` keep it the tally of what was added to and taken away from.
-/

namespace Tally

variable {κ : Type} [DecidableEq κ]

/-- One more of a key. -/
def raise (key : κ) (t : AList fun _ : κ => Int) : AList fun _ : κ => Int :=
  match t.lookup key with
  | some n => t.insert key (n + 1)
  | none => t.insert key 1

/-- One less; the last is taken out. -/
def lower (key : κ) (t : AList fun _ : κ => Int) : AList fun _ : κ => Int :=
  match t.lookup key with
  | some n => if n - 1 ≤ 0 then t.erase key else t.insert key (n - 1)
  | none => t

def Counts (t : AList fun _ : κ => Int) (s : Multiset κ) : Prop :=
  ∀ key, t.lookup key = if s.count key = 0 then none else some (s.count key : Int)

variable {t : AList fun _ : κ => Int} {s : Multiset κ} {key : κ}

theorem counts_empty : Counts (∅ : AList fun _ : κ => Int) 0 := fun _ => by simp

theorem Counts.lookup_eq_some_iff (counts : Counts t s) {n : Int} :
    t.lookup key = some n ↔ n = s.count key ∧ 0 < s.count key := by
  rw [counts key]
  split
  · rename_i zero
    simp [zero]
  · rename_i some
    rw [Option.some.injEq, eq_comm]
    exact ⟨fun same => ⟨same, Nat.pos_of_ne_zero some⟩, fun same => same.1⟩

/-- The keys other than the one that changed. -/
theorem Counts.of_update (counts : Counts t s) (key : κ) {t' : AList fun _ : κ => Int}
    {s' : Multiset κ}
    (own : t'.lookup key = if s'.count key = 0 then none else some (s'.count key : Int))
    (others : ∀ k, k ≠ key → t'.lookup k = t.lookup k ∧ s'.count k = s.count k) :
    Counts t' s' := by
  intro k
  by_cases same : k = key
  · rw [same, own]
  · rw [(others k same).1, (others k same).2, counts k]

theorem Counts.raise (counts : Counts t s) (key : κ) : Counts (raise key t) (key ::ₘ s) := by
  have own := counts key
  rw [Tally.raise]
  split
  · rename_i n found
    obtain ⟨rfl, positive⟩ := counts.lookup_eq_some_iff.mp found
    refine counts.of_update key ?_ fun k other => ⟨AList.lookup_insert_ne other,
      Multiset.count_cons_of_ne other s⟩
    rw [AList.lookup_insert, Multiset.count_cons_self, if_neg (Nat.succ_ne_zero _)]
    rfl
  · rename_i absent
    have zero : s.count key = 0 := by
      by_contra some
      rw [absent, if_neg some] at own
      cases own
    refine counts.of_update key ?_ fun k other => ⟨AList.lookup_insert_ne other,
      Multiset.count_cons_of_ne other s⟩
    rw [AList.lookup_insert, Multiset.count_cons_self, zero]
    rfl

theorem Counts.lower (counts : Counts t (key ::ₘ s)) : Counts (lower key t) s := by
  have found : t.lookup key = some ((s.count key : Int) + 1) := by
    rw [counts key, Multiset.count_cons_self, if_neg (Nat.succ_ne_zero _)]
    rfl
  have same (k : κ) (other : k ≠ key) : s.count k = (key ::ₘ s).count k :=
    (Multiset.count_cons_of_ne other s).symm
  rw [Tally.lower, found]
  dsimp only
  rw [Int.add_sub_cancel]
  split
  · rename_i last
    refine counts.of_update key ?_ fun k other => ⟨AList.lookup_erase_ne other, same k other⟩
    rw [AList.lookup_erase, if_pos (by omega)]
  · rename_i more
    refine counts.of_update key ?_ fun k other => ⟨AList.lookup_insert_ne other, same k other⟩
    rw [AList.lookup_insert, if_neg (by omega)]

end Tally
