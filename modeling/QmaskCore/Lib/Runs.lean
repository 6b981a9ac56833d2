import Mathlib.Data.List.Basic

/-!
Runs of a machine whose steps meet a condition.

`Run.Meets step P l s` says that every step of the run of `l` from `s` meets `P`
in the state it is taken from. Whatever one such step preserves the run
preserves (`Meets.invariant`), also when it speaks about the steps taken so far
(`Meets.history`).
-/

namespace Run

variable {σ α : Type} {step : σ → α → σ} {P : σ → α → Prop}

/-- Every step meets the condition where it is taken. -/
def Meets (step : σ → α → σ) (P : σ → α → Prop) : List α → σ → Prop
  | [], _ => True
  | a :: l, s => P s a ∧ Meets step P l (step s a)

/-- An invariant of the state and of the steps behind it. -/
theorem Meets.history {inv : List α → σ → Prop}
    (keeps : ∀ before s a, inv before s → P s a → inv (before ++ [a]) (step s a)) :
    ∀ {l before : List α} {s : σ}, inv before s → Meets step P l s →
      inv (before ++ l) (l.foldl step s) := by
  intro l
  induction l with
  | nil =>
      intro before s holds _
      rwa [List.append_nil]
  | cons a l ih =>
      intro before s holds meets
      have onward := ih (keeps before s a holds meets.1) meets.2
      rwa [List.append_assoc, List.singleton_append] at onward

theorem Meets.invariant {inv : σ → Prop} (keeps : ∀ s a, inv s → P s a → inv (step s a))
    {l : List α} {s : σ} (start : inv s) (meets : Meets step P l s) : inv (l.foldl step s) :=
  @Meets.history σ α step P (fun _ => inv) (fun _ => keeps) l [] s start meets

instance instDecidableMeets [∀ s a, Decidable (P s a)] : ∀ (l : List α) (s : σ), Decidable (Meets step P l s)
  | [], _ => .isTrue trivial
  | a :: l, s =>
      have := instDecidableMeets l (step s a)
      inferInstanceAs (Decidable (P s a ∧ Meets step P l (step s a)))

theorem Meets.imp {Q : σ → α → Prop} (weaker : ∀ s a, P s a → Q s a) :
    ∀ {l : List α} {s : σ}, Meets step P l s → Meets step Q l s
  | [], _, _ => trivial
  | _ :: _, _, meets => ⟨weaker _ _ meets.1, meets.2.imp weaker⟩

/-- What every state offers the step. -/
theorem meets_of_forall : ∀ {l : List α}, (∀ a ∈ l, ∀ s, P s a) → ∀ s, Meets step P l s
  | [], _, _ => trivial
  | a :: _, all, s =>
      ⟨all a List.mem_cons_self s,
        meets_of_forall (fun b mem => all b (List.mem_cons_of_mem a mem)) _⟩

theorem Meets.and {Q : σ → α → Prop} : ∀ {l : List α} {s : σ}, Meets step P l s →
    Meets step Q l s → Meets step (fun s a => P s a ∧ Q s a) l s
  | [], _, _, _ => trivial
  | _ :: _, _, first, second => ⟨⟨first.1, second.1⟩, first.2.and second.2⟩

/-- The first steps of a run. -/
theorem Meets.take : ∀ {l : List α} {s : σ}, Meets step P l s → ∀ k, Meets step P (l.take k) s
  | [], _, _, _ => by
      rw [List.take_nil]
      trivial
  | _ :: _, _, _, 0 => trivial
  | _ :: _, _, meets, k + 1 => ⟨meets.1, meets.2.take k⟩

theorem meets_append : ∀ {l m : List α} {s : σ},
    Meets step P (l ++ m) s ↔ Meets step P l s ∧ Meets step P m (l.foldl step s) := by
  intro l
  induction l with
  | nil => exact fun {m s} => ⟨fun meets => ⟨trivial, meets⟩, fun meets => meets.2⟩
  | cons a l ih =>
      intro m s
      rw [List.cons_append, Meets, Meets, ih, List.foldl_cons, and_assoc]

/-- The condition on one part of the state. -/
theorem meets_map {τ : Type} {step' : τ → α → τ} {f : τ → σ}
    (follows : ∀ t a, f (step' t a) = step (f t) a) : ∀ {l : List α} {t : τ},
    Meets step' (fun t a => P (f t) a) l t ↔ Meets step P l (f t) := by
  intro l
  induction l with
  | nil => exact .rfl
  | cons a l ih =>
      intro t
      rw [Meets, Meets, ih, follows]

/-- Where a step that meets the condition keeps an invariant, and one that does not
shows, a run shows nothing all along exactly when its steps meet the condition. -/
theorem meets_iff_forall_take {inv good : σ → Prop} (shows : ∀ s, inv s → good s)
    (keeps : ∀ s a, inv s → P s a → inv (step s a))
    (needs : ∀ s a, inv s → good (step s a) → P s a) : ∀ {l : List α} {s : σ}, inv s →
    (Meets step P l s ↔ ∀ k, good ((l.take k).foldl step s)) := by
  intro l
  induction l with
  | nil =>
      intro s holds
      refine ⟨fun _ k => ?_, fun _ => trivial⟩
      rw [List.take_nil]
      exact shows s holds
  | cons a l ih =>
      intro s holds
      constructor
      · rintro ⟨first, later⟩ k
        cases k with
        | zero => exact shows s holds
        | succ k => exact (ih (keeps s a holds first)).mp later k
      · intro all
        have first : P s a := needs s a holds (all 1)
        exact ⟨first, (ih (keeps s a holds first)).mpr fun k => all (k + 1)⟩

end Run
