import Mathlib.Data.List.DropRight
import QmaskCore.Lib.Scan

/-!
Looking for something in a string, and cutting blanks off it.

A character is looked for with `List.idxOf?`; `idxOf?_eq_some` cuts the string there.
`find` looks for a longer text, and finds it at the same place however much follows
(`find_append`), once all of it is there (`find_of_find_append`).
-/

namespace StdString

section

variable {α : Type} [DecidableEq α] {a : α} {l before behind : List α} {i : Nat}

theorem idxOf?_append_cons (new : a ∉ before) :
    (before ++ a :: behind).idxOf? a = some before.length := by
  induction before with
  | nil => simp [List.idxOf?_cons]
  | cons b before ih =>
      rw [List.mem_cons, not_or] at new
      have other : ¬ (b == a) = true := fun same => new.1 (beq_iff_eq.mp same).symm
      rw [List.cons_append, List.idxOf?_cons, if_neg other, ih new.2]
      rfl

/-- The string up to the first such character, and behind it. -/
theorem idxOf?_eq_some : l.idxOf? a = some i ↔
    l = l.take i ++ a :: l.drop (i + 1) ∧ a ∉ l.take i ∧ i < l.length := by
  constructor
  · intro found
    obtain ⟨inside, here, before⟩ := List.idxOf?_eq_some_iff.mp found
    refine ⟨?_, ?_, inside⟩
    · rw [← here, List.getElem_cons_drop, List.take_append_drop]
    · intro mem
      obtain ⟨j, lt, same⟩ := List.mem_take_iff_getElem.mp mem
      exact before j (by omega) same
  · rintro ⟨cut, new, inside⟩
    rw [cut, idxOf?_append_cons new, List.length_take_of_le inside.le]

end

/-! ### A longer text -/

section

variable {α : Type} [DecidableEq α]

/-- `find`. -/
def find (pattern : List α) : List α → Option Nat
  | [] => if pattern = [] then some 0 else none
  | a :: s => if pattern <+: a :: s then some 0 else (find pattern s).map (· + 1)

variable {pattern : List α}

/-- What is found is there. -/
theorem prefix_drop_of_find : ∀ {s : List α} {i : Nat}, find pattern s = some i →
    pattern <+: s.drop i := by
  intro s
  induction s with
  | nil =>
      intro i found
      rw [find] at found
      split at found
      · rename_i empty
        rw [empty]
        exact List.nil_prefix
      · cases found
  | cons a s ih =>
      intro i found
      rw [find] at found
      split at found
      · rename_i here
        cases found
        exact here
      · obtain ⟨j, later, rfl⟩ := Option.map_eq_some_iff.mp found
        exact ih later

/-- A place where it is, with everything before it ruled out. -/
theorem length_le_of_find {s : List α} {i : Nat} (found : find pattern s = some i) :
    pattern.length ≤ (s.drop i).length :=
  (prefix_drop_of_find found).length_le

omit [DecidableEq α] in
/-- Whether the text begins here does not depend on what follows it. -/
theorem prefix_append_iff {s rest : List α} (long : pattern.length ≤ s.length) :
    pattern <+: s ++ rest ↔ pattern <+: s := by
  constructor
  · intro begins
    exact List.prefix_of_prefix_length_le begins (List.prefix_append _ _) long
  · intro begins
    exact begins.trans (List.prefix_append _ _)

theorem find_append {rest : List α} (some : pattern ≠ []) : ∀ {s : List α} {i : Nat},
    find pattern s = .some i → find pattern (s ++ rest) = .some i := by
  intro s
  induction s with
  | nil =>
      intro i found
      rw [find, if_neg some] at found
      cases found
  | cons a s ih =>
      intro i found
      have long := length_le_of_find found
      have whole : pattern.length ≤ (a :: s).length := long.trans (List.drop_sublist _ _).length_le
      rw [find] at found
      rw [List.cons_append, find, ← List.cons_append]
      simp only [prefix_append_iff whole]
      split at found
      · rename_i here
        rw [if_pos here]
        exact found
      · rename_i other
        rw [if_neg other]
        obtain ⟨j, later, rfl⟩ := Option.map_eq_some_iff.mp found
        rw [ih later]
        rfl

/-- Once all of it is there it is found. -/
theorem find_of_find_append {rest : List α} (some : pattern ≠ []) : ∀ {s : List α} {i : Nat},
    find pattern (s ++ rest) = .some i → i + pattern.length ≤ s.length →
    find pattern s = .some i := by
  intro s
  induction s with
  | nil =>
      intro i found inside
      have long := List.length_pos_iff.mpr some
      rw [List.length_nil] at inside
      omega
  | cons a s ih =>
      intro i found inside
      rw [List.cons_append, find, ← List.cons_append] at found
      simp only [prefix_append_iff (le_trans (Nat.le_add_left _ i) inside)] at found
      rw [find]
      split at found
      · rename_i here
        rw [if_pos here]
        exact found
      · rename_i other
        rw [if_neg other]
        obtain ⟨j, later, rfl⟩ := Option.map_eq_some_iff.mp found
        rw [List.length_cons] at inside
        rw [ih later (by omega)]
        rfl

end

/-! ### Blanks -/

/-- The string without what is at its two ends. -/
def trim (front back : UInt8 → Bool) (s : List UInt8) : List UInt8 :=
  (s.dropWhile front).rdropWhile back

theorem trim_eq_self {front back : UInt8 → Bool} {s : List UInt8}
    (noFront : ∀ b ∈ s, front b = false) (noBack : ∀ b ∈ s, back b = false) :
    trim front back s = s := by
  have first : s.dropWhile front = s := by
    rw [List.dropWhile_eq_self_iff]
    intro some
    rw [noFront _ (List.getElem_mem some)]
    exact Bool.false_ne_true
  rw [trim, first, List.rdropWhile_eq_self_iff]
  intro some
  rw [noBack _ (List.getLast_mem some)]
  exact Bool.false_ne_true

/-- A text with nothing at its ends to cut off. -/
structure Bare (front back : UInt8 → Bool) (s : List UInt8) : Prop where
  head : ∀ b ∈ s.head?, front b = false
  last : ∀ b ∈ s.getLast?, back b = false

theorem rdropWhile_append {p : UInt8 → Bool} {s w : List UInt8} (pass : ∀ b ∈ w, p b = true)
    (stop : ∀ b ∈ s.getLast?, p b = false) : (s ++ w).rdropWhile p = s := by
  have taken := Scan.takeWhile_append_of_head (fun b mem => pass b (List.mem_reverse.mp mem))
    fun b mem => stop b (by rwa [List.head?_reverse] at mem)
  rw [List.rdropWhile, List.reverse_append, taken.2, List.reverse_reverse]

/-- A string is what is left of it, with blanks around. -/
theorem exists_trim (front back : UInt8 → Bool) (s : List UInt8) : ∃ a b,
    s = a ++ (trim front back s ++ b) ∧ (∀ x ∈ a, front x = true) ∧ (∀ x ∈ b, back x = true) ∧
      Bare front back (trim front back s) := by
  have last : s.dropWhile front = trim front back s ++ (s.dropWhile front).rtakeWhile back :=
    List.rdropWhile_append_rtakeWhile.symm
  refine ⟨s.takeWhile front, (s.dropWhile front).rtakeWhile back, ?_,
    fun _ mem => List.mem_takeWhile_imp mem, fun _ mem => List.mem_rtakeWhile_imp mem, ?_, ?_⟩
  · rw [← last, List.takeWhile_append_dropWhile]
  · intro b mem
    have first := List.head?_dropWhile_not front s
    rw [last, List.head?_append, Option.mem_def.mp mem] at first
    simpa using first
  · intro b mem
    have first := List.head?_dropWhile_not back (s.dropWhile front).reverse
    rw [trim, List.rdropWhile, List.getLast?_reverse, Option.mem_def] at mem
    rw [mem] at first
    simpa using first

/-- What is left between blanks. -/
theorem trim_append {front back : UInt8 → Bool} {a v b : List UInt8}
    (begin : ∀ x ∈ a, front x = true) (end' : ∀ x ∈ b, back x = true) (bare : Bare front back v) :
    trim front back (a ++ (v ++ b)) = v := by
  cases v with
  | nil =>
      rw [trim, List.nil_append, List.dropWhile_append_of_pos begin, List.rdropWhile_eq_nil_iff]
      exact fun x mem => end' x ((List.dropWhile_sublist _).subset mem)
  | cons c v =>
      have taken := @Scan.takeWhile_append_of_head front a (c :: v ++ b) begin bare.head
      rw [trim, taken.2, rdropWhile_append end' bare.last]

/-- `tolower` of the C locale. -/
def toLower (b : UInt8) : UInt8 := if 65 ≤ b ∧ b ≤ 90 then b + 32 else b

end StdString
