import Mathlib.Algebra.Ring.Nat
import Mathlib.Data.List.Infix

/-!
A log of which only the newest part is kept.

Each entry has a weight. `Newest` says that what is kept is the longest end of the
log whose weight is within a cap. Adding to what was kept and dropping the oldest
again is the same as adding to the whole log (`Newest.append`), so a buffer that
drops as it grows never drops more than it must.
-/

namespace DropOldest

variable {α : Type} {weight : α → Nat} {cap : Nat} {log kept more l : List α}

def total (weight : α → Nat) (l : List α) : Nat := (l.map weight).sum

@[simp] theorem total_nil : total weight ([] : List α) = 0 := rfl

@[simp] theorem total_cons (a : α) : total weight (a :: l) = weight a + total weight l := by
  rw [total, List.map_cons, List.sum_cons, total]

@[simp] theorem total_append : total weight (log ++ more) = total weight log + total weight more := by
  rw [total, List.map_append, List.sum_append, total, total]

/-- What is kept is the longest end of the log within the cap. -/
structure Newest (weight : α → Nat) (cap : Nat) (log kept : List α) : Prop where
  suffix : kept <:+ log
  fits : total weight kept ≤ cap
  longest : ∀ l, l <:+ log → total weight l ≤ cap → l <:+ kept

theorem newest_nil : Newest weight cap [] [] := ⟨List.suffix_rfl, Nat.zero_le _, fun _ end' _ => end'⟩

/-- An end of two parts is an end of the second, or all of it behind an end of the first. -/
theorem suffix_append_iff : l <:+ log ++ more ↔ l <:+ more ∨ ∃ l', l' <:+ log ∧ l = l' ++ more := by
  constructor
  · rintro ⟨front, whole⟩
    rcases List.append_eq_append_iff.mp whole with ⟨rest, rfl, rfl⟩ | ⟨rest, rfl, rfl⟩
    · exact .inr ⟨rest, List.suffix_append _ _, rfl⟩
    · exact .inl (List.suffix_append _ _)
  · rintro (short | ⟨l', long, rfl⟩)
    · exact short.trans (List.suffix_append _ _)
    · obtain ⟨front, rfl⟩ := long
      exact ⟨front, by rw [List.append_assoc]⟩

/-- What was dropped before need not be looked at again. -/
theorem Newest.append {kept' : List α} (newest : Newest weight cap log kept)
    (again : Newest weight cap (kept ++ more) kept') : Newest weight cap (log ++ more) kept' where
  suffix := by
    obtain ⟨front, rfl⟩ := newest.suffix
    exact again.suffix.trans ⟨front, by rw [List.append_assoc]⟩
  fits := again.fits
  longest := by
    intro l isEnd small
    refine again.longest l ?_ small
    rcases suffix_append_iff.mp isEnd with short | ⟨l', long, rfl⟩
    · exact suffix_append_iff.mpr (.inl short)
    · rw [total_append] at small
      exact suffix_append_iff.mpr (.inr ⟨l', newest.longest l' long (by omega), rfl⟩)

/-- Nothing leaves what fits. -/
theorem newest_of_fits (fits : total weight log ≤ cap) : Newest weight cap log log :=
  ⟨List.suffix_rfl, fits, fun _ isEnd _ => isEnd⟩

/-- The oldest entry leaves what does not fit. -/
theorem Newest.cons {a : α} (above : cap < total weight (a :: log))
    (newest : Newest weight cap log kept) : Newest weight cap (a :: log) kept where
  suffix := newest.suffix.trans (List.suffix_cons a log)
  fits := newest.fits
  longest := by
    intro l isEnd small
    rcases List.suffix_cons_iff.mp isEnd with rfl | isEnd
    · omega
    · exact newest.longest l isEnd small

end DropOldest
