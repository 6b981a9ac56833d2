import Mathlib.Data.Nat.Digits.Lemmas

/-!
Digit strings carried from one base to another.

A string of digits, most significant first, is more than the number it spells:
it may begin with zeros. `rebase` writes the number in another base behind as
many zeros, and `rebase_rebase` says that this loses nothing. `length_rebase_le`
bounds the length of what is written.
-/

namespace Radix

/-- The zeros a string begins with. -/
def zeros (ds : List Nat) : Nat := (ds.takeWhile (· = 0)).length

def value (a : Nat) (ds : List Nat) : Nat := Nat.ofDigits a ds.reverse

/-- The digits of the same number in base `b`, behind as many zeros. -/
def rebase (a b : Nat) (ds : List Nat) : List Nat :=
  List.replicate (zeros ds) 0 ++ (Nat.digits b (value a ds)).reverse

theorem replicate_zeros_append (ds : List Nat) :
    List.replicate (zeros ds) 0 ++ ds.dropWhile (· = 0) = ds := by
  have all : ds.takeWhile (· = 0) = List.replicate (zeros ds) 0 :=
    List.eq_replicate_iff.mpr ⟨rfl, fun d mem =>
      of_decide_eq_true (List.all_eq_true.mp (List.all_takeWhile) d mem)⟩
  rw [← all, List.takeWhile_append_dropWhile]

theorem zeros_le_length (ds : List Nat) : zeros ds ≤ ds.length :=
  (List.takeWhile_sublist _).length_le

theorem zeros_replicate_append (z : Nat) {ds : List Nat} (lead : ∀ d ∈ ds.head?, d ≠ 0) :
    zeros (List.replicate z 0 ++ ds) = z := by
  induction z with
  | zero =>
      cases ds with
      | nil => rfl
      | cons d ds =>
          have nonzero : d ≠ 0 := lead d rfl
          simp [zeros, nonzero]
  | succ z ih =>
      rw [List.replicate_succ, List.cons_append, zeros, List.takeWhile_cons_of_pos (by simp)]
      exact congrArg Nat.succ ih

theorem value_replicate_append (a z : Nat) (ds : List Nat) :
    value a (List.replicate z 0 ++ ds) = value a ds := by
  rw [value, List.reverse_append, List.reverse_replicate, Nat.ofDigits_append_replicate_zero, value]

theorem head_reverse_digits (b n : Nat) : ∀ d ∈ (Nat.digits b n).reverse.head?, d ≠ 0 := by
  intro d head
  rw [List.head?_reverse] at head
  obtain ⟨some, rfl⟩ := List.mem_getLast?_eq_getLast head
  exact Nat.getLast_digit_ne_zero b (Nat.digits_ne_nil_iff_ne_zero.mp some)

theorem head_dropWhile (ds : List Nat) : ∀ d ∈ (ds.dropWhile (· = 0)).head?, d ≠ 0 := by
  intro d head zero
  have kept := List.head?_dropWhile_not (· = 0) ds
  rw [head] at kept
  simp [zero] at kept

/-- The digits that are written spell the same number. -/
theorem value_rebase (a b : Nat) (ds : List Nat) : value b (rebase a b ds) = value a ds := by
  rw [rebase, value_replicate_append, value, List.reverse_reverse, Nat.ofDigits_digits]

theorem zeros_rebase (a b : Nat) (ds : List Nat) : zeros (rebase a b ds) = zeros ds :=
  zeros_replicate_append _ (head_reverse_digits b _)

/-- A string of digits is its number behind its zeros. -/
theorem rebase_self {a : Nat} (base : 1 < a) {ds : List Nat} (small : ∀ d ∈ ds, d < a) :
    List.replicate (zeros ds) 0 ++ (Nat.digits a (value a ds)).reverse = ds := by
  have digits : Nat.digits a (value a ds) = (ds.dropWhile (· = 0)).reverse := by
    have spelled := value_replicate_append a (zeros ds) (ds.dropWhile (· = 0))
    rw [replicate_zeros_append] at spelled
    rw [spelled, value]
    refine Nat.digits_ofDigits a base _ (fun d mem => small d ?_) fun some => ?_
    · exact List.dropWhile_subset _ (List.mem_reverse.mp mem)
    · rw [List.getLast_reverse]
      exact head_dropWhile ds _ (List.head?_eq_some_head _)
  rw [digits, List.reverse_reverse, replicate_zeros_append]

/-- **Nothing is lost.** -/
theorem rebase_rebase {a b : Nat} (base : 1 < a) {ds : List Nat} (small : ∀ d ∈ ds, d < a) :
    rebase b a (rebase a b ds) = ds := by
  rw [rebase, zeros_rebase, value_rebase, rebase_self base small]

theorem lt_of_mem_rebase {a b : Nat} (base : 1 < b) {ds : List Nat} :
    ∀ d ∈ rebase a b ds, d < b := by
  intro d mem
  rcases List.mem_append.mp mem with zero | digit
  · rw [List.eq_of_mem_replicate zero]
    omega
  · exact Nat.digits_lt_base base (List.mem_reverse.mp digit)

/-- Where `p` digits of the one base are worth no more than `q` of the other, a
string that has few behind its zeros is written with few. -/
theorem length_rebase_le {a b p q k : Nat} (base : 1 < a) (base' : 1 < b) (fits : a ^ p ≤ b ^ q)
    {ds : List Nat} (small : ∀ d ∈ ds, d < a) (few : ds.length ≤ zeros ds + p * k) :
    (rebase a b ds).length ≤ zeros ds + q * k := by
  have length := congrArg List.length (replicate_zeros_append ds)
  rw [List.length_append, List.length_replicate] at length
  have spelled := value_replicate_append a (zeros ds) (ds.dropWhile (· = 0))
  rw [replicate_zeros_append] at spelled
  have below : value a ds < b ^ (q * k) := calc
    value a ds < a ^ (ds.dropWhile (· = 0)).length := by
      rw [spelled, value, ← List.length_reverse]
      exact Nat.ofDigits_lt_base_pow_length base fun d mem =>
        small d (List.dropWhile_subset _ (List.mem_reverse.mp mem))
    _ ≤ a ^ (p * k) := Nat.pow_le_pow_right (by omega) (by omega)
    _ = (a ^ p) ^ k := Nat.pow_mul a p k
    _ ≤ (b ^ q) ^ k := Nat.pow_le_pow_left fits k
    _ = b ^ (q * k) := (Nat.pow_mul b q k).symm
  rw [rebase, List.length_append, List.length_replicate, List.length_reverse]
  exact Nat.add_le_add_left ((Nat.digits_length_le_iff base' _).mpr below) _

end Radix
