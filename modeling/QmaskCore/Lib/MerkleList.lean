import Mathlib.Data.List.Nodup
import QmaskCore.Lib.MerkleTree

/-!
A Merkle root and the list below it.

An odd level joins its last node with itself, so two lists can share a root
when one ends in a repetition. `raise_inj` says that is all: where joining is
injective on what is joined, lists without repetition that come to the same
level after the same number of steps are the same. Lists of different depth are
told apart by a node that is a leaf of one and joined in the other
(`eq_of_root`).
-/

namespace QmaskCore

namespace MerkleTree

variable {α : Type}

/-- The pairs joined in one level. -/
def pairs : List α → List (α × α)
  | [] => []
  | [a] => [(a, a)]
  | a :: b :: rest => (a, b) :: pairs rest

theorem pairUp_eq_map (join : α → α → α) : ∀ level : List α,
    pairUp join level = (pairs level).map fun p => join p.1 p.2
  | [] => rfl
  | [_] => rfl
  | a :: b :: rest => by rw [pairUp, pairs, List.map_cons, pairUp_eq_map join rest]

theorem sublist_pairs : ∀ level : List α, ((pairs level).map (·.1)).Sublist level
  | [] => .slnil
  | [_] => .refl _
  | a :: b :: rest => .cons_cons a ((sublist_pairs rest).trans (List.sublist_cons_self b rest))

theorem nodup_pairs {level : List α} (distinct : level.Nodup) : (pairs level).Nodup :=
  List.Nodup.of_map _ (distinct.sublist (sublist_pairs level))

/-- A level without repetition is known from its pairs. -/
theorem pairs_inj : ∀ {level other : List α}, level.Nodup → other.Nodup →
    pairs level = pairs other → level = other
  | [], [], _, _, _ => rfl
  | [], [_], _, _, same => by cases same
  | [], _ :: _ :: _, _, _, same => by cases same
  | [_], [], _, _, same => by cases same
  | [_], [_], _, _, same => by cases same; rfl
  | [a], b :: c :: rest, _, distinct, same => by
      -- The pair of a node with itself would have to be one of different nodes.
      obtain ⟨rfl, rfl⟩ := Prod.mk.inj (List.cons.inj same).1
      simp at distinct
  | _ :: _ :: _, [], _, _, same => by cases same
  | b :: c :: rest, [a], distinct, _, same => by
      obtain ⟨rfl, rfl⟩ := Prod.mk.inj (List.cons.inj same).1
      simp at distinct
  | a :: b :: rest, c :: d :: rest', distinct, distinct', same => by
      obtain ⟨first, below⟩ := List.cons.inj same
      obtain ⟨rfl, rfl⟩ := Prod.mk.inj first
      have tail : rest = rest' := pairs_inj (distinct.of_cons.of_cons) (distinct'.of_cons.of_cons) below
      rw [tail]

/-! ### Several levels -/

section

variable (join : α → α → α)

/-- The level a number of steps up. -/
def raise : Nat → List α → List α
  | 0, level => level
  | n + 1, level => raise n (pairUp join level)

/-- The pairs joined on the way there. -/
def below : Nat → List α → List (α × α)
  | 0, _ => []
  | n + 1, level => pairs level ++ below n (pairUp join level)

end

/-- Joining is injective on some pairs. -/
def InjOn (join : α → α → α) (known : List (α × α)) : Prop :=
  ∀ p ∈ known, ∀ q ∈ known, join p.1 p.2 = join q.1 q.2 → p = q

variable {join : α → α → α} {known : List (α × α)}

theorem raise_add (m : Nat) : ∀ (n : Nat) (level : List α),
    raise join (n + m) level = raise join m (raise join n level)
  | 0, level => by rw [Nat.zero_add, raise]
  | n + 1, level => by rw [Nat.succ_add, raise, raise, raise_add m n]

theorem below_add (m : Nat) : ∀ (n : Nat) (level : List α),
    below join (n + m) level = below join n level ++ below join m (raise join n level)
  | 0, level => by rw [Nat.zero_add, below, raise, List.nil_append]
  | n + 1, level => by
      rw [Nat.succ_add, below, below, raise, below_add m n, List.append_assoc]

/-- A level above one without repetition has none. -/
theorem nodup_pairUp (injective : InjOn join known) {level : List α} (sub : pairs level ⊆ known)
    (distinct : level.Nodup) : (pairUp join level).Nodup := by
  rw [pairUp_eq_map]
  exact List.Nodup.map_on (fun p memP q memQ same => injective p (sub memP) q (sub memQ) same)
    (nodup_pairs distinct)

theorem nodup_raise (injective : InjOn join known) : ∀ (n : Nat) {level : List α},
    below join n level ⊆ known → level.Nodup → (raise join n level).Nodup
  | 0, _, _, distinct => distinct
  | n + 1, _, sub, distinct =>
      nodup_raise injective n (fun _ mem => sub (List.mem_append_right _ mem))
        (nodup_pairUp injective (fun _ mem => sub (List.mem_append_left _ mem)) distinct)

theorem eq_of_map_eq {l l' : List (α × α)} (injective : InjOn join known) :
    l ⊆ known → l' ⊆ known →
    (l.map fun p => join p.1 p.2) = l'.map (fun p => join p.1 p.2) → l = l' := by
  induction l generalizing l' with
  | nil => exact fun _ _ same => (List.map_eq_nil_iff.mp same.symm).symm
  | cons p l ih =>
      intro sub sub' same
      cases l' with
      | nil => cases same
      | cons q l' =>
          obtain ⟨first, rest⟩ := List.cons.inj same
          rw [injective p (sub List.mem_cons_self) q (sub' List.mem_cons_self) first,
            ih (fun _ mem => sub (List.mem_cons_of_mem _ mem))
              (fun _ mem => sub' (List.mem_cons_of_mem _ mem)) rest]

/-- Lists without repetition that come to the same level in the same number of steps. -/
theorem raise_inj (injective : InjOn join known) : ∀ (n : Nat) {level other : List α},
    below join n level ⊆ known → below join n other ⊆ known → level.Nodup → other.Nodup →
    raise join n level = raise join n other → level = other := by
  intro n
  induction n with
  | zero => exact fun _ _ _ _ same => same
  | succ n ih =>
      intro level other sub sub' distinct distinct' same
      have here : pairs level ⊆ known := fun _ mem => sub (List.mem_append_left _ mem)
      have here' : pairs other ⊆ known := fun _ mem => sub' (List.mem_append_left _ mem)
      have up : pairUp join level = pairUp join other :=
        ih (fun _ mem => sub (List.mem_append_right _ mem))
          (fun _ mem => sub' (List.mem_append_right _ mem)) (nodup_pairUp injective here distinct)
          (nodup_pairUp injective here' distinct') same
      rw [pairUp_eq_map, pairUp_eq_map] at up
      exact pairs_inj distinct distinct' (eq_of_map_eq injective here here' up)

/-- Lists without repetition with one node on top of both, where no leaf of the
first is joined in the second. -/
theorem eq_of_deeper (injective : InjOn join known) {n k : Nat} {level other : List α} {top : α}
    (sub : below join n level ⊆ known) (sub' : below join (k + n) other ⊆ known)
    (distinct : level.Nodup) (distinct' : other.Nodup)
    (leaf : ∀ a ∈ level, ∀ p ∈ below join (k + n) other, a ≠ join p.1 p.2)
    (root : raise join n level = [top]) (root' : raise join (k + n) other = [top])
    (nonempty : level ≠ []) : level = other := by
  rw [raise_add] at root'
  rw [below_add] at sub' leaf
  have subLow : below join k other ⊆ known := fun _ mem => sub' (List.mem_append_left _ mem)
  have same : level = raise join k other :=
    raise_inj injective n sub (fun _ mem => sub' (List.mem_append_right _ mem)) distinct
      (nodup_raise injective k subLow distinct') (root.trans root'.symm)
  cases k with
  | zero => exact same
  | succ k =>
      -- A leaf of the first list would be a node joined in the second.
      obtain ⟨a, mem⟩ := List.exists_mem_of_ne_nil _ nonempty
      have joined : raise join (k + 1) other = pairUp join (raise join k other) :=
        (raise_add 1 k other).trans rfl
      rw [same, joined, pairUp_eq_map] at mem
      obtain ⟨p, memP, rfl⟩ := List.mem_map.mp mem
      refine absurd rfl (leaf _ ?_ p (List.mem_append_left _ ?_))
      · rw [same, joined, pairUp_eq_map]
        exact List.mem_map_of_mem memP
      · rw [below_add]
        exact List.mem_append_right _ (List.mem_append_left _ memP)

/-- **The root identifies the list.** Lists without repetition under one root are
the same when joining is injective on what is joined and no leaf of either is a
joined node of the other. -/
theorem eq_of_root (injective : InjOn join known) {n m : Nat} {level other : List α} {top : α}
    (sub : below join n level ⊆ known) (sub' : below join m other ⊆ known)
    (distinct : level.Nodup) (distinct' : other.Nodup)
    (leaf : ∀ a ∈ level ++ other, ∀ p ∈ known, a ≠ join p.1 p.2)
    (root : raise join n level = [top]) (root' : raise join m other = [top])
    (nonempty : level ≠ []) (nonempty' : other ≠ []) : level = other := by
  rcases Nat.le_total n m with le | le
  · obtain ⟨k, rfl⟩ := Nat.exists_eq_add_of_le' le
    exact eq_of_deeper injective sub sub' distinct distinct'
      (fun a mem p memP => leaf a (List.mem_append_left _ mem) p (sub' memP)) root root' nonempty
  · obtain ⟨k, rfl⟩ := Nat.exists_eq_add_of_le' le
    exact (eq_of_deeper injective sub' sub distinct' distinct
      (fun a mem p memP => leaf a (List.mem_append_right _ mem) p (sub memP)) root' root
      nonempty').symm

end MerkleTree

end QmaskCore
