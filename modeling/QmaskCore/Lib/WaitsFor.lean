import Mathlib.Data.Fintype.Pigeonhole
import Mathlib.Logic.Relation

/-!
Threads that wait for what others hold.

`Deadlocked waits holds D` says that every thread of `D` waits for something a
thread of `D` holds, so none of them ever goes on. When `r` relates what a thread
holds to what it waits for, a deadlock closes a cycle of `r` (`Deadlocked.cycle`),
and one in which no two are related both ways takes three threads
(`Deadlocked.three_le`).
-/

namespace WaitsFor

variable {T M : Type*} {waits holds : T → M → Prop} {r : M → M → Prop} {D : Finset T}

structure Deadlocked (waits holds : T → M → Prop) (D : Finset T) : Prop where
  nonempty : D.Nonempty
  stuck : ∀ t ∈ D, ∃ m, waits t m ∧ ∃ t' ∈ D, holds t' m

/-- A walk along a map that has one step of `r` in every turn. -/
theorem transGen_iterate {α : Type*} (next : α → α) (want : α → M)
    (edge : ∀ a, r (want a) (want (next a))) (a : α) :
    ∀ n, Relation.TransGen r (want a) (want (next^[n + 1] a))
  | 0 => .single (edge a)
  | n + 1 => by
      rw [Function.iterate_succ_apply']
      exact (transGen_iterate next want edge a n).tail (edge _)

/-- What each thread of a deadlock waits for, and who holds it. -/
theorem Deadlocked.exists_next (dead : Deadlocked waits holds D)
    (edges : ∀ t h m, holds t h → waits t m → r h m) : ∃ (next : D → D) (want : D → M),
      (∀ t : D, waits t (want t)) ∧ (∀ t : D, holds (next t) (want t)) ∧
      ∀ t, r (want t) (want (next t)) := by
  have chosen : ∀ t : D, ∃ m, ∃ t' : D, waits t m ∧ holds t' m := by
    rintro ⟨t, mem⟩
    obtain ⟨m, waiting, t', mem', held⟩ := dead.stuck t mem
    exact ⟨m, ⟨t', mem'⟩, waiting, held⟩
  choose want next waiting held using chosen
  exact ⟨next, want, waiting, held, fun t => edges _ _ _ (held t) (waiting (next t))⟩

/-- A deadlock goes round a cycle of what is held and what is waited for. -/
theorem Deadlocked.cycle (dead : Deadlocked waits holds D)
    (edges : ∀ t h m, holds t h → waits t m → r h m) : ∃ m, Relation.TransGen r m m := by
  obtain ⟨next, want, -, -, edge⟩ := dead.exists_next edges
  obtain ⟨t, mem⟩ := dead.nonempty
  obtain ⟨i, j, apart, met⟩ :=
    Finite.exists_ne_map_eq_of_infinite fun n : ℕ => next^[n] (⟨t, mem⟩ : D)
  -- The walk comes back to where it was after the smaller number of steps.
  have back : ∀ {i j : ℕ}, i < j → next^[i] (⟨t, mem⟩ : D) = next^[j] ⟨t, mem⟩ →
      ∃ m, Relation.TransGen r m m := by
    intro i j lt met
    obtain ⟨n, rfl⟩ := Nat.exists_eq_add_of_lt lt
    have walk := transGen_iterate next want edge (next^[i] ⟨t, mem⟩) n
    rw [← Function.iterate_add_apply, show n + 1 + i = i + n + 1 by omega, ← met] at walk
    exact ⟨_, walk⟩
  rcases Nat.lt_or_gt_of_ne apart with lt | gt
  · exact back lt met
  · exact back gt met.symm

/-- Where no two are related both ways, two threads do not deadlock. -/
theorem Deadlocked.three_le (dead : Deadlocked waits holds D)
    (edges : ∀ t h m, holds t h → waits t m → r h m) (asymm : ∀ a b, r a b → ¬ r b a) :
    3 ≤ D.card := by
  classical
  obtain ⟨next, want, -, -, edge⟩ := dead.exists_next edges
  obtain ⟨t, mem⟩ := dead.nonempty
  let a : D := ⟨t, mem⟩
  have moves : ∀ x, next x ≠ x := by
    intro x same
    have loop := edge x
    rw [same] at loop
    exact asymm _ _ loop loop
  have apart : next (next a) ≠ a := by
    intro same
    have there := edge a
    have back := edge (next a)
    rw [same] at back
    exact asymm _ _ there back
  have distinct : ({a, next a, next (next a)} : Finset D).card = 3 := by
    refine Finset.card_eq_three.mpr ⟨a, next a, next (next a), (moves a).symm, apart.symm, ?_, rfl⟩
    exact (moves (next a)).symm
  calc 3 = ({a, next a, next (next a)} : Finset D).card := distinct.symm
    _ ≤ Fintype.card D := Finset.card_le_univ _
    _ = D.card := Fintype.card_coe D

end WaitsFor
