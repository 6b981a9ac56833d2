/-!
Sequences of checks that stop at the first failure.

A check is a value of `Except ε Unit`. `rejectIf` fails with the given error
when a condition holds; checks are put in sequence by `bind`. The two simp
lemmas say when a sequence passes, so a checking function is inverted by
rewriting, without case analysis.

A step that leaves a state behind even when it fails is a pair; `andThen` goes
on from the state of the step before.
-/

namespace Checks

variable {ε α β σ : Type}

/-- Fail with `error` when the condition holds. -/
def rejectIf (bad : Prop) [Decidable bad] (error : ε) : Except ε Unit :=
  if bad then .error error else .ok ()

@[simp] theorem rejectIf_eq_ok {bad : Prop} [Decidable bad] {error : ε} {out : Unit} :
    rejectIf bad error = .ok out ↔ ¬ bad := by
  unfold rejectIf
  split <;> simp_all

@[simp] theorem bind_eq_ok {x : Except ε α} {f : α → Except ε β} {b : β} :
    (x >>= f) = .ok b ↔ ∃ a, x = .ok a ∧ f a = .ok b := by
  cases x with
  | error e => exact iff_of_false (fun h => nomatch h) (fun ⟨_, h, _⟩ => nomatch h)
  | ok a =>
      constructor
      · exact fun passes => ⟨a, rfl, passes⟩
      · rintro ⟨_, same, passes⟩
        cases same
        exact passes

/-- A failure is that of one of the checks. -/
theorem bind_eq_error {x : Except ε α} {f : α → Except ε β} {e : ε} :
    (x >>= f) = .error e ↔ x = .error e ∨ ∃ a, x = .ok a ∧ f a = .error e := by
  cases x with
  | error e' =>
      constructor
      · rintro ⟨⟩
        exact .inl rfl
      · rintro (⟨⟨⟩⟩ | ⟨_, ⟨⟩, _⟩)
        rfl
  | ok a =>
      constructor
      · exact fun fails => .inr ⟨a, rfl, fails⟩
      · rintro (⟨⟨⟩⟩ | ⟨_, ⟨⟩, fails⟩)
        exact fails

theorem rejectIf_eq_error {bad : Prop} [Decidable bad] {error e : ε} :
    rejectIf bad error = .error e ↔ bad ∧ error = e := by
  unfold rejectIf
  split <;> simp_all

/-- A check returns nothing to name. -/
@[simp] theorem exists_unit_iff {p : Unit → Prop} : (∃ u, p u) ↔ p () :=
  ⟨fun ⟨_, holds⟩ => holds, fun holds => ⟨(), holds⟩⟩

/-- Put the error of an inner check into the form of the outer one. -/
def onError {ε' : Type} (wrap : ε → ε') : Except ε α → Except ε' α
  | .ok a => .ok a
  | .error e => .error (wrap e)

@[simp] theorem onError_eq_ok {ε' : Type} {wrap : ε → ε'} {x : Except ε α} {a : α} :
    onError wrap x = .ok a ↔ x = .ok a := by
  cases x <;> simp [onError]

/-! ### Steps with a state -/

/-- Go on after a step that did not fail. -/
def andThen (step : Except ε α × σ) (next : α → σ → Except ε β × σ) : Except ε β × σ :=
  match step with
  | (.error e, s) => (.error e, s)
  | (.ok a, s) => next a s

@[simp] theorem andThen_ok (a : α) (s : σ) (next : α → σ → Except ε β × σ) :
    andThen (.ok a, s) next = next a s := rfl

theorem andThen_of_error {step : Except ε α × σ} {e : ε} (fails : step.1 = .error e)
    (next : α → σ → Except ε β × σ) : (andThen step next).1 = .error e := by
  obtain ⟨result, s⟩ := step
  cases fails
  rfl

/-- What holds after the first step, whether it failed or not, and is kept by
the next holds after both. -/
theorem andThen_keeps {p : σ → Prop} {step : Except ε α × σ} {next : α → σ → Except ε β × σ}
    (first : p step.2) (keeps : ∀ a s, p s → p (next a s).2) : p (andThen step next).2 := by
  obtain ⟨result, s⟩ := step
  cases result with
  | error e => exact first
  | ok a => exact keeps a s first

theorem andThen_eq_ok {step : Except ε α × σ} {next : α → σ → Except ε β × σ} {b : β} {s' : σ}
    (passes : andThen step next = (.ok b, s')) :
    ∃ a s, step = (.ok a, s) ∧ next a s = (.ok b, s') := by
  obtain ⟨result, s⟩ := step
  cases result with
  | error e => cases passes
  | ok a => exact ⟨a, s, rfl, passes⟩

end Checks
