import Mathlib.Algebra.Ring.Nat
import Mathlib.Data.Nat.Bitwise

/-!
Numbers as strings of bits, the highest first.

An encoding that cuts one string of bits into digits of another width keeps the bits
not yet handed out at the low end of a number. `bits_append` puts a digit behind
them and `bits_split` takes one off their front, so what was put in is what was taken
out and what is pending. `flatMap_bits_inj` says that digits of one width are found
again in their bits, and that a few bits behind them are no matter.
-/

namespace BitString

/-- The lowest `w` bits of a number. -/
def bits : Nat → Nat → List Bool
  | 0, _ => []
  | w + 1, n => n.testBit w :: bits w n

@[simp] theorem length_bits (w n : Nat) : (bits w n).length = w := by
  induction w with
  | zero => rfl
  | succ w ih => rw [bits, List.length_cons, ih]

theorem bits_congr {w n m : Nat} (same : ∀ i < w, n.testBit i = m.testBit i) :
    bits w n = bits w m := by
  induction w with
  | zero => rfl
  | succ w ih =>
      rw [bits, bits, same w (Nat.lt_succ_self w),
        ih fun i lt => same i (lt.trans (Nat.lt_succ_self w))]

/-- The bits that are kept are all that count. -/
theorem bits_mod {w c : Nat} (le : w ≤ c) (n : Nat) : bits w (n % 2 ^ c) = bits w n := by
  refine bits_congr fun i lt => ?_
  rw [Nat.testBit_mod_two_pow, decide_eq_true (lt.trans_le le), Bool.true_and]

theorem bits_split (v r n : Nat) : bits (v + r) n = bits v (n / 2 ^ r) ++ bits r n := by
  induction v with
  | zero => rw [Nat.zero_add, bits, List.nil_append]
  | succ v ih =>
      rw [Nat.succ_add, bits, ih, bits, List.cons_append, Nat.testBit_div_two_pow, Nat.add_comm v r,
        Nat.add_comm r v]

theorem bits_append {w d : Nat} (small : d < 2 ^ w) (h n : Nat) :
    bits (h + w) (n <<< w ||| d) = bits h n ++ bits w d := by
  have put : n <<< w ||| d = 2 ^ w * n + d := by
    rw [Nat.shiftLeft_eq, Nat.mul_comm]
    exact (Nat.two_pow_add_eq_or_of_lt small n).symm
  have high : (2 ^ w * n + d) / 2 ^ w = n := by
    rw [Nat.mul_add_div (Nat.two_pow_pos w), Nat.div_eq_of_lt small, Nat.add_zero]
  have low : (2 ^ w * n + d) % 2 ^ w = d := by
    rw [Nat.mul_add_mod, Nat.mod_eq_of_lt small]
  rw [put, bits_split, high, ← bits_mod le_rfl (2 ^ w * n + d), low]

@[simp] theorem bits_zero (w : Nat) : bits w 0 = List.replicate w false := by
  induction w with
  | zero => rfl
  | succ w ih => rw [bits, ih, Nat.zero_testBit, List.replicate_succ]

theorem eq_of_bits_eq {w n m : Nat} (same : bits w n = bits w m) (lt : n < 2 ^ w)
    (lt' : m < 2 ^ w) : n = m := by
  have each : ∀ i < w, n.testBit i = m.testBit i := by
    clear lt lt'
    induction w with
    | zero => exact fun i lt => absurd lt (Nat.not_lt_zero i)
    | succ w ih =>
        obtain ⟨top, rest⟩ := List.cons.inj same
        intro i lt
        rcases Nat.lt_succ_iff_lt_or_eq.mp lt with below | rfl
        · exact ih rest i below
        · exact top
  refine Nat.eq_of_testBit_eq fun i => ?_
  by_cases inside : i < w
  · exact each i inside
  · have above : 2 ^ w ≤ 2 ^ i := Nat.pow_le_pow_right (by decide) (by omega)
    rw [Nat.testBit_lt_two_pow (lt.trans_le above), Nat.testBit_lt_two_pow (lt'.trans_le above)]

/-! ### Strings of digits -/

/-- Digits with fewer bits behind them than a digit has are found again. -/
theorem flatMap_bits_inj {w : Nat} {ds es : List Nat} {l r : List Bool}
    (same : ds.flatMap (bits w) ++ l = es.flatMap (bits w) ++ r) (short : l.length < w)
    (short' : r.length < w) (small : ∀ d ∈ ds, d < 2 ^ w) (small' : ∀ e ∈ es, e < 2 ^ w) :
    ds = es := by
  induction ds generalizing es with
  | nil =>
      cases es with
      | nil => rfl
      | cons e es =>
          have length := congrArg List.length same
          simp only [List.flatMap_nil, List.nil_append, List.flatMap_cons, List.length_append,
            length_bits] at length
          omega
  | cons d ds ih =>
      cases es with
      | nil =>
          have length := congrArg List.length same
          simp only [List.flatMap_nil, List.nil_append, List.flatMap_cons, List.length_append,
            length_bits] at length
          omega
      | cons e es =>
          rw [List.flatMap_cons, List.flatMap_cons, List.append_assoc, List.append_assoc] at same
          obtain ⟨first, rest⟩ := List.append_inj same (by simp)
          rw [eq_of_bits_eq first (small d List.mem_cons_self) (small' e List.mem_cons_self),
            ih rest (fun d mem => small d (List.mem_cons_of_mem _ mem))
              fun e mem => small' e (List.mem_cons_of_mem _ mem)]

end BitString
