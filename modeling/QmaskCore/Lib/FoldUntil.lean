import Mathlib.Data.List.Infix

/-!
A fold that stops.

`foldUntil` folds a list into a state until the state is done, and tells the
elements it took. They are a front of the list, and it takes an element just
where the state is done after no front of what stands before it
(`prefix_foldUntil_iff`).
-/

namespace FoldUntil

variable {σ α : Type} (step : σ → α → σ) (done : σ → Prop) [DecidablePred done]

/-- The elements taken, and the state they lead to. -/
def foldUntil : σ → List α → List α × σ
  | s, [] => ([], s)
  | s, a :: l =>
      if done s then ([], s)
      else
        let rest := foldUntil (step s a) l
        (a :: rest.1, rest.2)

variable {step done} {s : σ} {l front : List α} {a : α}

theorem foldUntil_snd : ∀ {l : List α} {s : σ},
    (foldUntil step done s l).2 = (foldUntil step done s l).1.foldl step s := by
  intro l
  induction l with
  | nil => exact rfl
  | cons a l ih =>
      intro s
      rw [foldUntil]
      split
      · rfl
      · exact ih

theorem foldUntil_front : ∀ {l : List α} {s : σ}, (foldUntil step done s l).1 <+: l := by
  intro l
  induction l with
  | nil => exact List.prefix_rfl
  | cons a l ih =>
      intro s
      rw [foldUntil]
      split
      · exact List.nil_prefix
      · exact (List.prefix_cons_inj a).mpr ih

/-- The elements that are taken. -/
theorem prefix_foldUntil_iff : ∀ {l front : List α} {s : σ},
    front ++ [a] <+: (foldUntil step done s l).1 ↔
      front ++ [a] <+: l ∧ ∀ f, f <+: front → ¬ done (f.foldl step s) := by
  intro l
  induction l with
  | nil => simp [foldUntil]
  | cons b l ih =>
      intro front s
      rw [foldUntil]
      split
      · rename_i now
        refine iff_of_false (by simp) ?_
        rintro ⟨-, never⟩
        exact never [] List.nil_prefix now
      · rename_i pending
        cases front with
        | nil => simp [pending]
        | cons c front =>
            simp only [List.cons_append, List.cons_prefix_cons, ih]
            constructor
            · rintro ⟨rfl, listed, later⟩
              refine ⟨⟨rfl, listed⟩, fun f isFront => ?_⟩
              rcases List.prefix_cons_iff.mp isFront with rfl | ⟨f', rfl, isFront'⟩
              · exact pending
              · exact later f' isFront'
            · rintro ⟨⟨rfl, listed⟩, never⟩
              exact ⟨rfl, listed, fun f isFront =>
                never (c :: f) ((List.prefix_cons_inj c).mpr isFront)⟩

/-- A fold that ended where the state is done took no more than some elements
just where one of the fronts with no more leads there. -/
theorem length_foldUntil_le_iff {n : Nat} (ended : done (foldUntil step done s l).2) :
    (foldUntil step done s l).1.length ≤ n ↔
      ∃ f, f <+: l ∧ f.length ≤ n ∧ done (f.foldl step s) := by
  constructor
  · intro short
    refine ⟨_, foldUntil_front, short, ?_⟩
    rwa [← foldUntil_snd]
  · rintro ⟨f, isFront, le, enough⟩
    by_contra! long
    have isTaken := List.take_prefix (n + 1) (foldUntil step done s l).1
    rw [← List.take_append_getElem long] at isTaken
    obtain ⟨listed, never⟩ := prefix_foldUntil_iff.mp isTaken
    refine never f (List.prefix_of_prefix_length_le isFront
      ((List.prefix_append _ _).trans listed) ?_) enough
    rw [List.length_take]
    omega

end FoldUntil
