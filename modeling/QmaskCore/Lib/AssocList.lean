import Mathlib.Algebra.BigOperators.Group.List.Basic
import Mathlib.Algebra.Ring.Nat
import Mathlib.Data.List.AList
import Mathlib.Order.Lattice

/-!
Walking and thinning an association list.

`AList.select` lists the entries that pass a test, each key with a projection
of its value. `mem_select` says what is listed and `nodup_keys_select` that no
key is listed twice. `AList.filter` drops the entries that fail a test, and
`lookup_filter` says what can still be found. `AList.first?` is the entry of
the smallest key, as an ordered map begins, and `AList.total` a sum taken over
all values.
-/

namespace AList

variable {α β γ : Type} [DecidableEq α]

/-- The entries that pass the test, with `f` applied to their values. -/
def select (s : AList fun _ : α => β) (test : α → β → Bool) (f : β → γ) : List (α × γ) :=
  s.entries.filterMap fun e => if test e.1 e.2 then some (e.1, f e.2) else none

theorem mem_select {s : AList fun _ : α => β} {test : α → β → Bool} {f : β → γ} {a : α} {c : γ} :
    (a, c) ∈ s.select test f ↔ ∃ b, s.lookup a = some b ∧ test a b = true ∧ f b = c := by
  simp only [select, List.mem_filterMap, Option.ite_none_right_eq_some, Option.some.injEq,
    Prod.mk.injEq]
  constructor
  · rintro ⟨⟨k, b⟩, mem, pass, rfl, rfl⟩
    exact ⟨b, AList.mem_lookup_iff.mpr mem, pass, rfl⟩
  · rintro ⟨b, found, pass, rfl⟩
    exact ⟨⟨a, b⟩, AList.mem_lookup_iff.mp found, pass, rfl, rfl⟩

omit [DecidableEq α] in
theorem nodup_keys_select (s : AList fun _ : α => β) (test : α → β → Bool) (f : β → γ) :
    ((s.select test f).map (·.1)).Nodup := by
  refine List.Nodup.sublist ?_ s.keys_nodup
  unfold select keys
  induction s.entries with
  | nil => exact List.Sublist.slnil
  | cons e l ih =>
      by_cases pass : test e.1 e.2 = true
      · simpa [pass, List.keys] using ih
      · rw [List.filterMap_cons_none (by simp [pass])]
        exact ih.cons e.1

/-- Keeping only some entries keeps the keys distinct. -/
def filter (s : AList fun _ : α => β) (test : α → β → Bool) : AList fun _ : α => β :=
  ⟨s.entries.filter fun e => test e.1 e.2, s.nodupKeys.sublist List.filter_sublist⟩

theorem lookup_filter {s : AList fun _ : α => β} {test : α → β → Bool} {a : α} {b : β} :
    (s.filter test).lookup a = some b ↔ s.lookup a = some b ∧ test a b = true := by
  rw [← Option.mem_def, AList.mem_lookup_iff, ← Option.mem_def, AList.mem_lookup_iff, filter,
    List.mem_filter]

omit [DecidableEq α] in
theorem keys_map_values (f : β → β) (l : List (Sigma fun _ : α => β)) :
    (l.map fun e => (⟨e.1, f e.2⟩ : Sigma fun _ : α => β)).keys = l.keys := by
  rw [List.keys, List.map_map]
  rfl

/-- The same keys, the values sent through a function. -/
def mapValues (s : AList fun _ : α => β) (f : β → β) : AList fun _ : α => β :=
  ⟨s.entries.map fun e => ⟨e.1, f e.2⟩, by
    rw [List.NodupKeys, keys_map_values]
    exact s.nodupKeys⟩

/-! ### The smallest key -/

section

variable [LinearOrder α]

/-- The entry of the smallest key. -/
def first? (s : AList fun _ : α => β) : Option (α × β) :=
  s.entries.foldr (fun e best =>
    match best with
    | none => some (e.1, e.2)
    | some b => if e.1 ≤ b.1 then some (e.1, e.2) else some b) none

omit [DecidableEq α] in
theorem first?_eq_none {s : AList fun _ : α => β} : s.first? = none ↔ s = ∅ := by
  constructor
  · intro none
    refine AList.ext ?_
    unfold first? at none
    cases entries : s.entries with
    | nil => rfl
    | cons e l =>
        rw [entries, List.foldr_cons] at none
        split at none
        · cases none
        · split at none <;> cases none
  · rintro rfl
    rfl

theorem first?_spec {s : AList fun _ : α => β} {a : α} {b : β} (found : s.first? = some (a, b)) :
    s.lookup a = some b ∧ ∀ c ∈ s, a ≤ c := by
  suffices whole : ∀ (l : List (Σ _ : α, β)) (a : α) (b : β),
      l.foldr (fun e best => match best with
        | none => some (e.1, e.2)
        | some b => if e.1 ≤ b.1 then some (e.1, e.2) else some b) none = some (a, b) →
      (⟨a, b⟩ : Σ _ : α, β) ∈ l ∧ ∀ e ∈ l, a ≤ e.1 by
    obtain ⟨mem, least⟩ := whole s.entries a b found
    refine ⟨AList.mem_lookup_iff.mpr mem, fun c memC => ?_⟩
    obtain ⟨d, at'⟩ := Option.isSome_iff_exists.mp (AList.lookup_isSome.mpr memC)
    exact least _ (AList.mem_lookup_iff.mp at')
  intro l
  induction l with
  | nil => exact fun _ _ none => nomatch none
  | cons e l ih =>
      intro a b found
      rw [List.foldr_cons] at found
      split at found
      · rename_i none
        cases found
        refine ⟨List.mem_cons_self, fun c mem => ?_⟩
        rcases List.mem_cons.mp mem with rfl | mem
        · exact le_rfl
        · cases l with
          | nil => cases mem
          | cons d l =>
              rw [List.foldr_cons] at none
              split at none
              · cases none
              · split at none <;> cases none
      · rename_i best some
        obtain ⟨mem, least⟩ := ih best.1 best.2 some
        split at found
        · rename_i le
          cases found
          refine ⟨List.mem_cons_self, fun c memC => ?_⟩
          rcases List.mem_cons.mp memC with rfl | memC
          · exact le_rfl
          · exact le.trans (least c memC)
        · rename_i greater
          cases found
          refine ⟨List.mem_cons_of_mem _ mem, fun c memC => ?_⟩
          rcases List.mem_cons.mp memC with rfl | memC
          · exact (not_le.mp greater).le
          · exact least c memC

end

/-! ### A sum of all values -/

def total (s : AList fun _ : α => β) (f : β → Nat) : Nat := (s.entries.map fun e => f e.2).sum

theorem total_insert {s : AList fun _ : α => β} {a : α} {b : β} (f : β → Nat) (new : a ∉ s) :
    (s.insert a b).total f = s.total f + f b := by
  rw [total, AList.entries_insert_of_notMem new, List.map_cons, List.sum_cons, ← total, add_comm]

/-- Taking an entry out takes its value off. -/
theorem total_erase {s : AList fun _ : α => β} {a : α} {b : β} (f : β → Nat)
    (found : s.lookup a = some b) : (s.erase a).total f + f b = s.total f := by
  have mem : (⟨a, b⟩ : Σ _ : α, β) ∈ s.entries := AList.mem_lookup_iff.mp found
  obtain ⟨c, l, r, -, split, gone⟩ := List.exists_of_kerase (List.mem_keys_of_mem mem)
  obtain rfl : b = c := by
    refine s.nodupKeys.eq_of_mk_mem mem ?_
    rw [split]
    simp
  have gone : (s.erase a).entries = l ++ r := gone
  simp only [total, gone, split, List.map_append, List.sum_append, List.map_cons, List.sum_cons]
  omega

/-! ### Many keys at once -/

theorem lookup_erase_if (s : AList fun _ : α => β) (a b : α) :
    (s.erase a).lookup b = if b = a then none else s.lookup b := by
  split
  · rename_i same
    rw [same, AList.lookup_erase]
  · rename_i other
    exact AList.lookup_erase_ne other

theorem lookup_insert_if (s : AList fun _ : α => β) (a b : α) (c : β) :
    (s.insert a c).lookup b = if b = a then some c else s.lookup b := by
  split
  · rename_i same
    rw [same, AList.lookup_insert]
  · rename_i other
    exact AList.lookup_insert_ne other

theorem lookup_foldl_erase (b : α) : ∀ (l : List α) (s : AList fun _ : α => β),
    (l.foldl (fun m a => m.erase a) s).lookup b = if b ∈ l then none else s.lookup b := by
  intro l
  induction l with
  | nil => exact fun _ => by simp
  | cons a l ih =>
      intro s
      rw [List.foldl_cons, ih, lookup_erase_if]
      by_cases here : b = a <;> by_cases later : b ∈ l <;> simp [here, later]

theorem lookup_foldl_insert (b : α) (c : β) : ∀ (l : List α) (s : AList fun _ : α => β),
    (l.foldl (fun m a => m.insert a c) s).lookup b = if b ∈ l then some c else s.lookup b := by
  intro l
  induction l with
  | nil => exact fun _ => by simp
  | cons a l ih =>
      intro s
      rw [List.foldl_cons, ih, lookup_insert_if]
      by_cases here : b = a <;> by_cases later : b ∈ l <;> simp [here, later]

end AList
