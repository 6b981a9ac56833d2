import QmaskCore.Lib.StdString

/-!
Lines that give keys values.

`Assigns` says how such a line looks, and `cut` takes it apart (`cut_eq_some_iff`); it does
not matter whether the blanks around the line have been cut off before
(`assigns_trim_iff`). Of several lines the first or the last one counts (`FirstOf`,
`LastOf`).
-/

namespace KeyValue

open StdString

/-- A key and a value with an equals sign between them and blanks around both. -/
def Assigns (front back : UInt8 → Bool) (line key value : List UInt8) : Prop :=
  ∃ a b c d, line = a ++ (key ++ (b ++ 61 :: (c ++ (value ++ d)))) ∧
    (∀ x ∈ a, front x = true) ∧ (∀ x ∈ b, back x = true) ∧
    (∀ x ∈ c, front x = true) ∧ (∀ x ∈ d, back x = true) ∧
    61 ∉ key ∧ Bare front back key ∧ Bare front back value

/-- What is on the two sides of the equals sign. -/
def cut (front back : UInt8 → Bool) (line : List UInt8) : Option (List UInt8 × List UInt8) :=
  (line.idxOf? 61).map fun pos =>
    (trim front back (line.take pos), trim front back (line.drop (pos + 1)))

section

variable {front back : UInt8 → Bool} {line key value : List UInt8}

theorem cut_eq_some_iff (noFront : front 61 = false) (noBack : back 61 = false) :
    cut front back line = some (key, value) ↔ Assigns front back line key value := by
  constructor
  · intro parts
    obtain ⟨pos, found, same⟩ := Option.map_eq_some_iff.mp parts
    obtain ⟨whole, new, _⟩ := idxOf?_eq_some.mp found
    obtain ⟨a, b, left, blankA, blankB, bareKey⟩ := exists_trim front back (line.take pos)
    obtain ⟨c, d, right, blankC, blankD, bareValue⟩ := exists_trim front back (line.drop (pos + 1))
    cases same
    refine ⟨a, b, c, d, ?_, blankA, blankB, blankC, blankD, fun mem => new ?_, bareKey, bareValue⟩
    · rw [← right, ← List.append_assoc _ b, ← List.append_assoc, ← left]
      exact whole
    · rw [left]
      exact List.mem_append_right _ (List.mem_append_left _ mem)
  · rintro ⟨a, b, c, d, whole, blankA, blankB, blankC, blankD, new, bareKey, bareValue⟩
    have split : line = (a ++ (key ++ b)) ++ 61 :: (c ++ (value ++ d)) := by
      rw [whole, List.append_assoc, List.append_assoc]
    have first : 61 ∉ a ++ (key ++ b) := by
      rw [List.mem_append, List.mem_append, not_or, not_or]
      refine ⟨fun mem => ?_, new, fun mem => ?_⟩
      · rw [blankA 61 mem] at noFront
        cases noFront
      · rw [blankB 61 mem] at noBack
        cases noBack
    have behind : ((a ++ (key ++ b)) ++ 61 :: (c ++ (value ++ d))).drop
        ((a ++ (key ++ b)).length + 1) = c ++ (value ++ d) := by
      rw [← List.drop_drop, List.drop_left]
      rfl
    rw [cut, split, idxOf?_append_cons first, Option.map_some, List.take_left, behind,
      trim_append blankA blankB bareKey, trim_append blankC blankD bareValue]

end

/-- The blanks around a line are blanks around its key and its value. -/
theorem assigns_trim_iff {blank : UInt8 → Bool} {line key value : List UInt8}
    (solid : blank 61 = false) (some : key ≠ []) :
    Assigns blank blank (trim blank blank line) key value ↔ Assigns blank blank line key value := by
  constructor
  · rintro ⟨a, b, c, d, whole, blankA, blankB, blankC, blankD, new, bareKey, bareValue⟩
    obtain ⟨a', d', around, blankA', blankD', _⟩ := exists_trim blank blank line
    refine ⟨a' ++ a, b, c, d ++ d', ?_, ?_, blankB, blankC, ?_, new, bareKey, bareValue⟩
    · rw [whole] at around
      rw [around]
      simp
    · intro x mem
      exact (List.mem_append.mp mem).elim (blankA' x) (blankA x)
    · intro x mem
      exact (List.mem_append.mp mem).elim (blankD x) (blankD' x)
  · rintro ⟨a, b, c, d, whole, blankA, blankB, blankC, blankD, new, bareKey, bareValue⟩
    have begin (rest : List UInt8) : ∀ x ∈ (key ++ rest).head?, blank x = false := by
      rw [List.head?_append_of_ne_nil key some]
      exact bareKey.head
    -- Blanks in front of an empty value are blanks behind the line.
    cases value with
    | nil =>
        have core : line = a ++ ((key ++ (b ++ [61])) ++ (c ++ d)) := by
          rw [whole]
          simp
        have bare : Bare blank blank (key ++ (b ++ [61])) := by
          refine ⟨begin _, fun x mem => ?_⟩
          simp only [← List.append_assoc, List.getLast?_concat, Option.mem_some_iff] at mem
          rwa [← mem]
        rw [core, trim_append blankA
          (fun x mem => (List.mem_append.mp mem).elim (blankC x) (blankD x)) bare]
        exact ⟨[], b, [], [], by simp, by simp, blankB, by simp, by simp, new, bareKey, bareValue⟩
    | cons v value =>
        have core : line = a ++ ((key ++ (b ++ 61 :: (c ++ v :: value))) ++ d) := by
          rw [whole]
          simp
        have bare : Bare blank blank (key ++ (b ++ 61 :: (c ++ v :: value))) := by
          refine ⟨begin _, fun x mem => bareValue.last x ?_⟩
          have last : (key ++ (b ++ 61 :: (c ++ v :: value))).getLast? = (v :: value).getLast? := by
            have behind : key ++ (b ++ 61 :: (c ++ v :: value)) =
                (key ++ (b ++ 61 :: c)) ++ v :: value := by simp
            rw [behind, List.getLast?_append_of_ne_nil _ (List.cons_ne_nil v value)]
          rwa [last] at mem
        rw [core, trim_append blankA blankD bare]
        exact ⟨[], b, c, [], by simp, by simp, blankB, blankC, by simp, new, bareKey, bareValue⟩

/-! ### Which line counts -/

section

variable {α β : Type}

/-- What the first line that says something says. -/
def FirstOf (R : α → β → Prop) (l : List α) (b : β) : Prop :=
  ∃ before a after, l = before ++ a :: after ∧ R a b ∧ ∀ a' ∈ before, ∀ b', ¬ R a' b'

/-- What the last one says. -/
def LastOf (R : α → β → Prop) (l : List α) (b : β) : Prop :=
  ∃ before a after, l = before ++ a :: after ∧ R a b ∧ ∀ a' ∈ after, ∀ b', ¬ R a' b'

/-- The last one, or what holds when there is none. -/
def LastOr (R : α → β → Prop) (l : List α) (default b : β) : Prop :=
  LastOf R l b ∨ (∀ a ∈ l, ∀ b', ¬ R a b') ∧ b = default

variable {R : α → β → Prop} {f : α → Option β} (means : ∀ a b, f a = some b ↔ R a b)
variable {l : List α} {b default : β}

include means

theorem eq_none_iff_of_means {a : α} : f a = none ↔ ∀ b, ¬ R a b := by
  rw [Option.eq_none_iff_forall_ne_some]
  exact forall_congr' fun b => not_congr (means a b)

theorem findSome?_eq_some_iff_firstOf : l.findSome? f = some b ↔ FirstOf R l b := by
  simp only [List.findSome?_eq_some_iff, FirstOf, means, eq_none_iff_of_means means]

theorem findSome?_reverse_eq_some_iff_lastOf : l.reverse.findSome? f = some b ↔ LastOf R l b := by
  rw [findSome?_eq_some_iff_firstOf means]
  constructor
  · rintro ⟨before, a, after, whole, here, none⟩
    refine ⟨after.reverse, a, before.reverse, ?_, here, fun a' mem => none a' ?_⟩
    · rw [← List.reverse_reverse l, whole]
      simp
    · rwa [← List.mem_reverse]
  · rintro ⟨before, a, after, rfl, here, none⟩
    refine ⟨after.reverse, a, before.reverse, by simp, here, fun a' mem => none a' ?_⟩
    rwa [← List.mem_reverse]

theorem findSome?_reverse_getD_eq_iff : (l.reverse.findSome? f).getD default = b ↔
    LastOr R l default b := by
  rw [LastOr, ← findSome?_reverse_eq_some_iff_lastOf means]
  have absent : (∀ a ∈ l, ∀ b', ¬ R a b') ↔ l.reverse.findSome? f = none := by
    rw [List.findSome?_eq_none_iff]
    simp only [List.mem_reverse, eq_none_iff_of_means means]
  rw [absent]
  cases l.reverse.findSome? f with
  | none => simp [eq_comm]
  | some b' => simp

end

/-- A run in which each line overrides what was there, as long as `I` holds. -/
theorem foldl_override {α β σ : Type} {step : σ → α → σ} {get : σ → β} {f : α → Option β}
    {I : σ → Prop} (keeps : ∀ s a, I s → I (step s a))
    (override : ∀ s a, I s → get (step s a) = (f a).getD (get s)) : ∀ {l : List α} {s : σ}, I s →
    get (l.foldl step s) = (l.reverse.findSome? f).getD (get s) := by
  intro l
  induction l with
  | nil => exact fun _ => rfl
  | cons a l ih =>
      intro s holds
      rw [List.foldl_cons, ih (keeps s a holds), override s a holds, List.reverse_cons,
        List.findSome?_append]
      cases l.reverse.findSome? f <;> simp

/-- A run in which only the first line counts that gives something. -/
theorem foldl_keep {α β σ : Type} {step : σ → α → σ} {get : σ → List β} {f : α → Option (List β)}
    (keep : ∀ s a, get (step s a) = if get s = [] then (f a).getD [] else get s)
    (some : ∀ a, f a ≠ some []) : ∀ {l : List α} {s : σ}, get s = [] →
    get (l.foldl step s) = (l.findSome? f).getD [] := by
  have kept : ∀ {l : List α} {s : σ}, get s ≠ [] → get (l.foldl step s) = get s := by
    intro l
    induction l with
    | nil => exact fun _ => rfl
    | cons a l ih =>
        intro s there
        have same : get (step s a) = get s := by rw [keep, if_neg there]
        rw [List.foldl_cons, ih (by rwa [same]), same]
  intro l
  induction l with
  | nil => exact fun none => none
  | cons a l ih =>
      intro s none
      have next : get (step s a) = (f a).getD [] := by rw [keep, if_pos none]
      rw [List.foldl_cons, List.findSome?_cons]
      cases given : f a with
      | none =>
          rw [given] at next
          exact ih next
      | some w =>
          rw [given, Option.getD_some] at next
          have there : get (step s a) ≠ [] := by
            rw [next]
            rintro rfl
            exact some a given
          rw [kept there, next]
          rfl

end KeyValue
