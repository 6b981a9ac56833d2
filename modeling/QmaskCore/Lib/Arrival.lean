import Mathlib.Data.List.Basic

/-!
A text that arrives in pieces.

Whoever receives it looks at what has come so far after each piece, and stops at the
first judgement. If a judgement once made is the one of the whole text, the pieces do not
matter (`verdict_eq_judge`). A test that is made only inside a window is made for sure by
pieces that cannot step over it (`verdict_of_window`).
-/

namespace Arrival

variable {α β : Type} (judge : List α → Option β)

/-- The first judgement, when `seen` has come before the pieces. -/
def verdict : List α → List (List α) → Option β
  | _, [] => none
  | seen, piece :: pieces =>
      match judge (seen ++ piece) with
      | some o => some o
      | none => verdict (seen ++ piece) pieces

variable {judge} {s : List α} {o : β}

theorem verdict_eq_judge (stable : ∀ b o, b <+: s → judge b = some o → judge s = some o) :
    ∀ {pieces : List (List α)} {seen : List α}, judge seen = none →
    seen ++ pieces.flatten = s → verdict judge seen pieces = judge s := by
  intro pieces
  induction pieces with
  | nil =>
      intro seen undecided whole
      rw [List.flatten_nil, List.append_nil] at whole
      rw [verdict, ← whole, undecided]
  | cons piece pieces ih =>
      intro seen undecided whole
      rw [List.flatten_cons, ← List.append_assoc] at whole
      rw [verdict]
      split
      · rename_i o judged
        exact (stable _ o ⟨_, whole⟩ judged).symm
      · rename_i undecided
        exact ih undecided whole

/-- A verdict is the judgement on what had come at some time. -/
theorem exists_of_verdict : ∀ {pieces : List (List α)} {seen : List α},
    verdict judge seen pieces = some o →
    ∃ b, seen <+: b ∧ b <+: seen ++ pieces.flatten ∧ judge b = some o := by
  intro pieces
  induction pieces with
  | nil => exact fun judged => nomatch judged
  | cons piece pieces ih =>
      intro seen judged
      rw [verdict] at judged
      rw [List.flatten_cons, ← List.append_assoc]
      split at judged
      · rename_i o' here
        cases judged
        exact ⟨seen ++ piece, List.prefix_append _ _, List.prefix_append _ _, here⟩
      · obtain ⟨b, begins, inside, here⟩ := ih judged
        exact ⟨b, (List.prefix_append _ _).trans begins, inside, here⟩

/-- Nothing is decided up to `limit`, and what is seen within the next `m` decides. -/
theorem verdict_of_window {limit m : Nat}
    (open' : ∀ b, b <+: s → b.length ≤ limit → judge b = none)
    (window : ∀ b, b <+: s → limit < b.length → b.length ≤ limit + m → judge b = some o)
    (long : limit < s.length) : ∀ {pieces : List (List α)} {seen : List α},
    (∀ piece ∈ pieces, piece.length ≤ m) → seen.length ≤ limit → seen ++ pieces.flatten = s →
    verdict judge seen pieces = some o := by
  intro pieces
  induction pieces with
  | nil =>
      intro seen _ few whole
      rw [List.flatten_nil, List.append_nil] at whole
      rw [whole] at few
      omega
  | cons piece pieces ih =>
      intro seen small few whole
      rw [List.flatten_cons, ← List.append_assoc] at whole
      have size := small piece List.mem_cons_self
      have begins : seen ++ piece <+: s := ⟨_, whole⟩
      rw [verdict]
      by_cases inside : (seen ++ piece).length ≤ limit
      · rw [open' _ begins inside]
        exact ih (fun piece' mem => small piece' (List.mem_cons_of_mem piece mem)) inside whole
      · rw [window _ begins (by omega) (by rw [List.length_append]; omega)]

end Arrival
