import Mathlib.Data.List.Basic

/-!
Merkle trees of any width.

A tree is the list of its levels, the leaves first; a level of odd width pairs
its last node with itself. `climb` walks from a leaf to the root along a path of
siblings. `climb_siblings` says the siblings of a position lead to the root;
`climb_inj` that, where joining is injective on what is joined, nothing else of
that length does.
-/

namespace QmaskCore

namespace MerkleTree

variable {α : Type} (join : α → α → α)

/-- The level above one: its nodes joined two by two, an odd one with itself. -/
def pairUp : List α → List α
  | [] => []
  | [a] => [join a a]
  | a :: b :: rest => join a b :: pairUp rest

/-- The levels above a level, itself first, up to one of a single node. -/
def levels : Nat → List α → List (List α)
  | 0, level => [level]
  | fuel + 1, level =>
      if 1 < level.length then level :: levels fuel (pairUp join level) else [level]

/-- How often a width must be halved, rounding up, to reach one. -/
def depth : Nat → Nat → Nat
  | 0, _ => 0
  | fuel + 1, width => if 1 < width then depth fuel ((width + 1) / 2) + 1 else 0

/-- The node a node of a level is joined with. -/
def sibling (level : List α) (i : Nat) : Option α :=
  let other := if i % 2 = 0 then i + 1 else i - 1
  if level.length ≤ other then level[i]? else level[other]?

/-- From a node up along a path, on the side the position says. -/
def climb : Nat → α → List α → α
  | _, node, [] => node
  | i, node, other :: path =>
      climb (i / 2) (if i % 2 = 0 then join node other else join other node) path

/-- The pairs joined in the levels. -/
def joined : List (List α) → List (α × α)
  | level :: above :: rest =>
      (List.range above.length).filterMap (fun i =>
        (level[2 * i]?).bind fun left => (sibling level (2 * i)).map (left, ·)) ++
        joined (above :: rest)
  | _ => []

/-- The pairs joined on a walk. -/
def climbed : Nat → α → List α → List (α × α)
  | _, _, [] => []
  | i, node, other :: path =>
      (if i % 2 = 0 then (node, other) else (other, node)) ::
        climbed (i / 2) (if i % 2 = 0 then join node other else join other node) path

variable {join}

@[simp] theorem length_pairUp : ∀ level : List α,
    (pairUp join level).length = (level.length + 1) / 2
  | [] => by simp [pairUp]
  | [_] => by simp [pairUp]
  | _ :: _ :: rest => by
      rw [pairUp, List.length_cons, length_pairUp rest]
      simp only [List.length_cons]
      omega

/-- A node of the level above joins the two below it. -/
theorem getElem?_pairUp : ∀ {level : List α} {i : Nat} {left right : α},
    level[2 * i]? = some left → sibling level (2 * i) = some right →
    (pairUp join level)[i]? = some (join left right)
  | [], i, left, right, found, _ => by simp at found
  | [a], i, left, right, found, other => by
      cases i with
      | zero =>
          simp_all [sibling, pairUp]
      | succ i => simp at found
  | a :: b :: rest, i, left, right, found, other => by
      cases i with
      | zero => simp_all [sibling, pairUp]
      | succ i =>
          rw [pairUp, List.getElem?_cons_succ]
          rw [Nat.mul_succ, List.getElem?_cons_succ, List.getElem?_cons_succ] at found
          refine getElem?_pairUp found ?_
          simp only [sibling, Nat.mul_succ, List.length_cons] at other ⊢
          grind

/-- Every position of a level has a sibling. -/
theorem exists_sibling {level : List α} {i : Nat} (lt : i < level.length) :
    ∃ other, sibling level i = some other := by
  refine Option.ne_none_iff_exists'.mp ?_
  unfold sibling
  grind

/-- Seen from the node on its left, a node at an odd position is the sibling. -/
theorem sibling_of_odd {level : List α} {i : Nat} {node other : α} (odd : i % 2 = 1)
    (found : level[i]? = some node) (beside : sibling level i = some other) :
    level[2 * (i / 2)]? = some other ∧ sibling level (2 * (i / 2)) = some node := by
  have lt : i < level.length := (List.getElem?_eq_some_iff.mp found).1
  have left : i - 1 = 2 * (i / 2) := by omega
  have right : 2 * (i / 2) + 1 = i := by omega
  constructor
  · simp only [sibling, odd, Nat.one_ne_zero, if_false] at beside
    rwa [if_neg (by omega), left] at beside
  · simp only [sibling, Nat.mul_mod_right, if_true, right]
    rw [if_neg (by omega), found]

/-- A node and its sibling, in the order of their positions, are joined in the
level above. -/
theorem getElem?_above {level : List α} {i : Nat} {node other : α} (found : level[i]? = some node)
    (beside : sibling level i = some other) :
    (pairUp join level)[i / 2]? =
      some (if i % 2 = 0 then join node other else join other node) := by
  rcases Nat.mod_two_eq_zero_or_one i with even | odd
  · have whole : 2 * (i / 2) = i := by omega
    rw [if_pos even]
    exact getElem?_pairUp (by rw [whole, found]) (by rw [whole, beside])
  · obtain ⟨left, right⟩ := sibling_of_odd odd found beside
    rw [if_neg (by omega)]
    exact getElem?_pairUp left right

/-- That pair is among those joined. -/
theorem mem_joined (join : α → α → α) {level : List α} (rest : List (List α)) {i : Nat}
    {node other : α} (found : level[i]? = some node) (beside : sibling level i = some other) :
    (if i % 2 = 0 then (node, other) else (other, node)) ∈
      joined (level :: pairUp join level :: rest) := by
  have lt : i < level.length := (List.getElem?_eq_some_iff.mp found).1
  rw [joined]
  refine List.mem_append_left _ (List.mem_filterMap.mpr ⟨i / 2, ?_, ?_⟩)
  · rw [List.mem_range, length_pairUp]
    omega
  · rcases Nat.mod_two_eq_zero_or_one i with even | odd
    · have whole : 2 * (i / 2) = i := by omega
      simp [whole, found, beside, even]
    · obtain ⟨left, right⟩ := sibling_of_odd odd found beside
      simp [left, right, odd]

/-! ### Paths -/

/-- The siblings met on the way from a position to the root. -/
def siblings : Nat → List (List α) → List α
  | i, level :: above :: rest => (sibling level i).toList ++ siblings (i / 2) (above :: rest)
  | _, _ => []

/-- The node at the top of the levels. -/
def root (levels : List (List α)) : Option α := levels.getLast?.bind (·.head?)

theorem levels_ne_nil (join : α → α → α) (fuel : Nat) (level : List α) : levels join fuel level ≠ [] := by
  cases fuel with
  | zero => simp [levels]
  | succ fuel =>
      rw [levels]
      split <;> simp

/-- The levels begin with the level itself. -/
theorem exists_levels_eq (join : α → α → α) (fuel : Nat) (level : List α) :
    ∃ rest, levels join fuel level = level :: rest := by
  cases fuel with
  | zero => exact ⟨[], rfl⟩
  | succ fuel =>
      rw [levels]
      split
      · exact ⟨_, rfl⟩
      · exact ⟨[], rfl⟩

/-- A level of one node is the last. -/
theorem root_levels_singleton (join : α → α → α) (fuel : Nat) (node : α) :
    root (levels join fuel [node]) = some node := by
  cases fuel with
  | zero => rfl
  | succ fuel => rfl

/-- A wider level has the root of the level above it. -/
theorem root_levels_pairUp (join : α → α → α) (fuel : Nat) {level : List α}
    (wide : 1 < level.length) :
    root (levels join (fuel + 1) level) = root (levels join fuel (pairUp join level)) := by
  rw [levels, if_pos wide, root, root]
  obtain ⟨rest, same⟩ := exists_levels_eq join fuel (pairUp join level)
  rw [same, List.getLast?_cons_cons]

/-- A position has a sibling at every level below the root. -/
theorem length_siblings (join : α → α → α) : ∀ (fuel : Nat) (level : List α) (i : Nat), i < level.length →
    (siblings i (levels join fuel level)).length = depth fuel level.length := by
  intro fuel
  induction fuel with
  | zero => exact fun _ _ _ => rfl
  | succ fuel ih =>
      intro level i lt
      rw [levels, depth]
      split
      · obtain ⟨other, beside⟩ := exists_sibling lt
        obtain ⟨rest, above⟩ := exists_levels_eq join fuel (pairUp join level)
        have up := ih (pairUp join level) (i / 2) (by
          rw [length_pairUp]
          omega)
        rw [length_pairUp] at up
        rw [above] at up ⊢
        rw [siblings, beside, List.length_append, up, Option.toList_some, List.length_singleton]
        omega
      · rfl

/-- **Completeness.** The siblings of a position lead from its node to the root. -/
theorem climb_siblings (join : α → α → α) : ∀ (fuel : Nat) (level : List α) {i : Nat} {node : α},
    level.length ≤ fuel → level[i]? = some node →
    root (levels join fuel level) =
      some (climb join i node (siblings i (levels join fuel level))) := by
  intro fuel
  induction fuel with
  | zero =>
      intro level i node few found
      obtain rfl := List.length_eq_zero_iff.mp (Nat.le_zero.mp few)
      simp at found
  | succ fuel ih =>
      intro level i node few found
      have lt : i < level.length := (List.getElem?_eq_some_iff.mp found).1
      rw [levels]
      split
      · rename_i wide
        obtain ⟨other, beside⟩ := exists_sibling lt
        obtain ⟨rest, above⟩ := exists_levels_eq join fuel (pairUp join level)
        have up := ih (pairUp join level) (by rw [length_pairUp]; omega)
          (getElem?_above found beside)
        rw [above] at up ⊢
        rw [root, List.getLast?_cons_cons, ← root, up, siblings, beside]
        rfl
      · rename_i narrow
        obtain ⟨only, rfl⟩ := List.length_eq_one_iff.mp (show level.length = 1 by omega)
        obtain rfl : i = 0 := by simpa using lt
        simpa [root, siblings, climb] using found

/-- **Uniqueness.** Where joining is injective on what the tree and the walk
join, a walk of the height of the tree that ends at the root began at the node
of its position and went along its siblings. -/
theorem climb_inj : ∀ (fuel : Nat) (level : List α) {i : Nat} {node start : α} (path : List α),
    level.length ≤ fuel → level[i]? = some node → path.length = depth fuel level.length →
    (∀ a ∈ joined (levels join fuel level), ∀ b ∈ climbed join i start path,
      join a.1 a.2 = join b.1 b.2 → a = b) →
    root (levels join fuel level) = some (climb join i start path) →
    start = node ∧ path = siblings i (levels join fuel level) := by
  intro fuel
  induction fuel with
  | zero =>
      intro level i node start path few found
      obtain rfl := List.length_eq_zero_iff.mp (Nat.le_zero.mp few)
      simp at found
  | succ fuel ih =>
      intro level i node start path few found long injective ends
      have lt : i < level.length := (List.getElem?_eq_some_iff.mp found).1
      rw [levels] at injective ends ⊢
      rw [depth] at long
      split at long
      · rename_i wide
        rw [if_pos wide] at injective ends ⊢
        obtain ⟨mine, path, rfl⟩ := List.exists_cons_of_length_eq_add_one long
        obtain ⟨other, beside⟩ := exists_sibling lt
        obtain ⟨rest, above⟩ := exists_levels_eq join fuel (pairUp join level)
        have pair := mem_joined join rest found beside
        rw [← above] at pair
        -- By induction the walk meets the tree one level up, and there the pairs are one.
        have up := ih (pairUp join level) path (by rw [length_pairUp]; omega)
          (getElem?_above found beside) (by simpa using long)
          (fun a memA b memB => injective a (by
              rw [above] at memA ⊢
              exact List.mem_append_right _ memA) b (List.mem_cons_of_mem _ memB))
          (by
            rw [above] at ends ⊢
            rwa [root, List.getLast?_cons_cons, ← root] at ends)
        have parts : start = node ∧ mine = other := by
          have first := up.1
          have same := injective _ pair _ List.mem_cons_self
          rcases Nat.mod_two_eq_zero_or_one i with even | odd
          · simp only [even, if_true] at first same
            have pairs := Prod.mk.inj (same first.symm)
            exact ⟨pairs.1.symm, pairs.2.symm⟩
          · simp only [odd, Nat.one_ne_zero, if_false] at first same
            have pairs := Prod.mk.inj (same first.symm)
            exact ⟨pairs.2.symm, pairs.1.symm⟩
        refine ⟨parts.1, ?_⟩
        rw [above, siblings, beside, ← above, ← up.2, parts.2]
        rfl
      · rename_i narrow
        rw [if_neg narrow] at ends ⊢
        obtain rfl := List.length_eq_zero_iff.mp long
        obtain ⟨only, rfl⟩ := List.length_eq_one_iff.mp (show level.length = 1 by omega)
        obtain rfl : i = 0 := by simpa using lt
        simp [root, climb] at ends found
        exact ⟨by rw [← ends, found], rfl⟩

end MerkleTree

end QmaskCore
