import Mathlib.Data.Nat.ModEq
import Mathlib.Tactic.LinearCombination
import Mathlib.Tactic.Ring
import QmaskCore.Lib.Limbs

/-!
Arithmetic of numbers of several 32-bit limbs.

The loops add, multiply and count limb by limb with a carry, and divide by
shifting and subtracting. What a turn leaves is said exactly, the carry
included (`value_put`); the sums, products and differences modulo
`2 ^ (32 * w)` follow by running the turns. `value_divide` is the quotient
itself, and `value_divideFrom` says what is left over.
-/

namespace Limbs

variable {w : Nat}

/-- `pn[i] = v`. -/
def setAt (i : Nat) (v : BitVec 32) (pn : Limbs w) : Limbs w :=
  fun j => if j.val = i then v else pn j

/-- The limb `n` is cut to, and what is carried over. -/
def put (i : Nat) (n : BitVec 64) (pn : Limbs w) : Limbs w × BitVec 64 :=
  (pn.setAt i (n.setWidth 32), n >>> 32)

/-- A turn of the loop of `operator+=`. -/
def addTurn (b : Limbs w) (turn : Limbs w × BitVec 64) (i : Fin w) : Limbs w × BitVec 64 :=
  turn.1.put i (turn.2 + (turn.1 i).setWidth 64 + (b i).setWidth 64)

/-- `operator+=`. -/
def add (a b : Limbs w) : Limbs w := ((List.finRange w).foldl (addTurn b) (a, 0#64)).1

/-- `operator~`. -/
def complement (a : Limbs w) : Limbs w := fun i => ~~~ a i

/-- The loop of `operator++` from limb `i` on, `left` limbs before the end. -/
def incrementFrom (pn : Limbs w) (i : Nat) : (left : Nat) → Limbs w
  | 0 => pn
  | left + 1 =>
      let next := pn.setAt i (pn.limb i + 1)
      if next.limb i = 0#32 then incrementFrom next (i + 1) left else next

/-- `operator++`. -/
def increment (a : Limbs w) : Limbs w := incrementFrom a 0 w

/-- The loop of `operator--` from limb `i` on. -/
def decrementFrom (pn : Limbs w) (i : Nat) : (left : Nat) → Limbs w
  | 0 => pn
  | left + 1 =>
      let next := pn.setAt i (pn.limb i - 1)
      if next.limb i = 0xffffffff#32 then decrementFrom next (i + 1) left else next

/-- `operator--`. -/
def decrement (a : Limbs w) : Limbs w := decrementFrom a 0 w

/-- The unary `operator-`. -/
def negate (a : Limbs w) : Limbs w := a.complement.increment

/-- `operator-=`. -/
def subtract (a b : Limbs w) : Limbs w := a.add b.negate

/-- A turn of the loop of `operator*=` by a word. -/
def scaleTurn (b32 : BitVec 32) (turn : Limbs w × BitVec 64) (i : Fin w) : Limbs w × BitVec 64 :=
  turn.1.put i (turn.2 + b32.setWidth 64 * (turn.1 i).setWidth 64)

/-- `operator*=` by a word. -/
def scale (a : Limbs w) (b32 : BitVec 32) : Limbs w :=
  ((List.finRange w).foldl (scaleTurn b32) (a, 0#64)).1

/-- A turn of the inner loop of `operator*=`, where limb `j` of the one factor is `x`. -/
def productTurn (x : BitVec 32) (b : Limbs w) (j : Nat) (turn : Limbs w × BitVec 64)
    (i : Fin (w - j)) : Limbs w × BitVec 64 :=
  turn.1.put (i + j)
    (turn.2 + (turn.1.limb (i + j)).setWidth 64 + x.setWidth 64 * (b.limb i).setWidth 64)

/-- A turn of the outer loop of `operator*=`. -/
def productRow (a b : Limbs w) (acc : Limbs w) (j : Fin w) : Limbs w :=
  ((List.finRange (w - j)).foldl (productTurn (a j) b j) (acc, 0#64)).1

/-- `operator*=`. -/
def multiply (a b : Limbs w) : Limbs w := (List.finRange w).foldl (productRow a b) zero

/-- The loop of `operator/=` with `shift + 1` turns left: the quotient and the rest. -/
def divideFrom (num div quotient : Limbs w) : (turns : Nat) → Limbs w × Limbs w
  | 0 => (quotient, num)
  | shift + 1 =>
      if 0 ≤ num.compareTo div then
        divideFrom (num.subtract div) (div.shiftRight 1)
          (quotient.orAt (shift / 32) (1#32 <<< (shift % 32))) shift
      else divideFrom num (div.shiftRight 1) quotient shift

inductive UintError where
  | divisionByZero
  deriving DecidableEq, Repr

/-- `operator/=`. -/
def divide (num div : Limbs w) : Except UintError (Limbs w) :=
  if div.bits = 0 then .error .divisionByZero
  else if num.bits < div.bits then .ok zero
  else .ok (divideFrom num (div.shiftLeft (num.bits - div.bits)) zero (num.bits - div.bits + 1)).1

/-! ### A limb set -/

@[simp] theorem limb_setAt (pn : Limbs w) {i : Nat} (v : BitVec 32) (j : Nat) (inside : i < w) :
    (pn.setAt i v).limb j = if j = i then v else pn.limb j := by
  by_cases lt : j < w
  · rw [limb_of_lt _ lt, limb_of_lt _ lt]
    rfl
  · rw [limb_of_le _ (by omega), limb_of_le _ (by omega), if_neg (by omega)]

theorem limb_fin (a : Limbs w) (i : Fin w) : a.limb i = a i := limb_of_lt a i.isLt

theorem value_zero : (zero : Limbs w).value = 0 := value_eq_of_bit fun n => by
  rw [bit, limb]
  split <;> simp [zero]

theorem limb_succ (a : Limbs (w + 1)) (i : Nat) : a.limb (i + 1) = limb (fun j => a j.succ) i := by
  by_cases lt : i < w
  · rw [limb_of_lt _ lt, limb_of_lt _ (Nat.succ_lt_succ lt)]
    rfl
  · rw [limb_of_le _ (by omega), limb_of_le _ (by omega)]

/-- Setting a limb changes the number by what the limb stands for. -/
theorem value_setAt : ∀ {w : Nat} (pn : Limbs w) {i : Nat} (v : BitVec 32), i < w →
    (pn.setAt i v).value + 2 ^ (32 * i) * (pn.limb i).toNat = pn.value + 2 ^ (32 * i) * v.toNat
  | w + 1, pn, 0, v, _ => by
      have rest : (fun j : Fin w => pn.setAt 0 v j.succ) = fun j : Fin w => pn j.succ :=
        funext fun j => if_neg (Nat.succ_ne_zero _)
      have first : pn.setAt 0 v 0 = v := if_pos rfl
      rw [value, value, rest, first, limb_of_lt pn (Nat.succ_pos w), Nat.mul_zero, Nat.pow_zero,
        Nat.one_mul, Nat.one_mul]
      change _ + _ + (pn 0).toNat = _
      omega
  | w + 1, pn, i + 1, v, inside => by
      have rest : (fun j : Fin w => pn.setAt (i + 1) v j.succ) =
          setAt i v fun j : Fin w => pn j.succ := by
        funext j
        simp only [setAt, Fin.val_succ, Nat.add_right_cancel_iff]
      have first : pn.setAt (i + 1) v 0 = pn 0 := if_neg (Nat.succ_ne_zero i).symm
      have step := value_setAt (fun j : Fin w => pn j.succ) v (Nat.lt_of_succ_lt_succ inside)
      rw [value, value, rest, first, limb_succ, Nat.mul_succ, Nat.pow_add]
      linear_combination 2 ^ 32 * step

/-! ### The turns of a loop -/

/-- What every turn carries on holds after the loop. -/
theorem foldl_finRange_rec {σ : Type*} : ∀ {w : Nat} {P : Nat → σ → Prop} {step : σ → Fin w → σ}
    {s : σ}, P 0 s → (∀ (i : Fin w) s, P i s → P (i + 1) (step s i)) →
    P w ((List.finRange w).foldl step s)
  | 0, _, _, _, start, _ => start
  | w + 1, P, step, s, start, turn => by
      rw [List.finRange_succ_last, List.foldl_append, List.foldl_map]
      have before : P w ((List.finRange w).foldl (fun s i => step s i.castSucc) s) :=
        foldl_finRange_rec start fun i s => turn i.castSucc s
      exact turn (Fin.last w) _ before

/-- The limb written and the carry together are the number that was cut. -/
theorem value_put (pn : Limbs w) {i : Nat} (n : BitVec 64) (inside : i < w) :
    (pn.put i n).1.value + 2 ^ (32 * (i + 1)) * (pn.put i n).2.toNat +
      2 ^ (32 * i) * (pn.limb i).toNat = pn.value + 2 ^ (32 * i) * n.toNat := by
  have set := value_setAt pn (n.setWidth 32) inside
  have parts : n.toNat % 2 ^ 32 + 2 ^ 32 * (n.toNat / 2 ^ 32) = n.toNat := Nat.mod_add_div _ _
  rw [BitVec.toNat_setWidth] at set
  rw [put, BitVec.toNat_ushiftRight, Nat.shiftRight_eq_div_pow, Nat.mul_succ, Nat.pow_add]
  linear_combination set + 2 ^ (32 * i) * parts

theorem toNat_put_snd (pn : Limbs w) (i : Nat) (n : BitVec 64) :
    (pn.put i n).2.toNat = n.toNat / 2 ^ 32 := by
  rw [put, BitVec.toNat_ushiftRight, Nat.shiftRight_eq_div_pow]

theorem limb_put_of_ne (pn : Limbs w) {i j : Nat} (n : BitVec 64) (inside : i < w) (ne : j ≠ i) :
    (pn.put i n).1.limb j = pn.limb j := by
  rw [put, limb_setAt pn _ j inside, if_neg ne]

theorem toNat_wide (b : BitVec 32) : (b.setWidth 64).toNat = b.toNat := by
  rw [BitVec.toNat_setWidth]
  exact Nat.mod_eq_of_lt (b.isLt.trans (by decide))

theorem toNat_sumTurn {carry : BitVec 64} (x y : BitVec 32) (small : carry.toNat < 2 ^ 32) :
    (carry + x.setWidth 64 + y.setWidth 64).toNat = carry.toNat + x.toNat + y.toNat := by
  have left := x.isLt
  have right := y.isLt
  rw [BitVec.toNat_add, BitVec.toNat_add, toNat_wide, toNat_wide,
    Nat.mod_eq_of_lt (by omega : carry.toNat + x.toNat < 2 ^ 64)]
  exact Nat.mod_eq_of_lt (by omega)

theorem mul_limbs_le (x y : BitVec 32) : x.toNat * y.toNat ≤ (2 ^ 32 - 1) * (2 ^ 32 - 1) :=
  Nat.mul_le_mul (Nat.le_sub_one_of_lt x.isLt) (Nat.le_sub_one_of_lt y.isLt)

/-- A carry, a limb and a product of limbs fit in the word a turn works with. -/
theorem toNat_productTurn {carry : BitVec 64} (old x y : BitVec 32) (small : carry.toNat < 2 ^ 32) :
    (carry + old.setWidth 64 + x.setWidth 64 * y.setWidth 64).toNat =
      carry.toNat + old.toNat + x.toNat * y.toNat := by
  have product := mul_limbs_le x y
  have limb := old.isLt
  rw [BitVec.toNat_add, BitVec.toNat_add, BitVec.toNat_mul, toNat_wide, toNat_wide, toNat_wide,
    Nat.mod_eq_of_lt (by omega : x.toNat * y.toNat < 2 ^ 64),
    Nat.mod_eq_of_lt (by omega : carry.toNat + old.toNat < 2 ^ 64)]
  exact Nat.mod_eq_of_lt (by omega)

theorem toNat_scaleTurn {carry : BitVec 64} (x y : BitVec 32) (small : carry.toNat < 2 ^ 32) :
    (carry + x.setWidth 64 * y.setWidth 64).toNat = carry.toNat + x.toNat * y.toNat := by
  have product := mul_limbs_le x y
  rw [BitVec.toNat_add, BitVec.toNat_mul, toNat_wide, toNat_wide,
    Nat.mod_eq_of_lt (by omega : x.toNat * y.toNat < 2 ^ 64)]
  exact Nat.mod_eq_of_lt (by omega)

/-! ### Sums -/

/-- The sum, what does not fit falling off. -/
theorem value_add (a b : Limbs w) : (a.add b).value = (a.value + b.value) % 2 ^ (32 * w) := by
  let P (k : Nat) (turn : Limbs w × BitVec 64) : Prop := turn.2.toNat ≤ 1 ∧
    turn.1.value + 2 ^ (32 * k) * turn.2.toNat = a.value + b.value % 2 ^ (32 * k)
  have loop : P w ((List.finRange w).foldl (addTurn b) (a, 0#64)) := by
    refine foldl_finRange_rec ⟨Nat.zero_le _, by simp [Nat.mod_one]⟩ ?_
    rintro i ⟨pn, carry⟩ ⟨small, sum⟩
    have one : carry.toNat ≤ 1 := small
    have n := toNat_sumTurn (pn i) (b i) (by omega : carry.toNat < 2 ^ 32)
    refine ⟨?_, ?_⟩
    · have left := (pn i).isLt
      have right := (b i).isLt
      rw [addTurn, toNat_put_snd, n]
      omega
    · have turn := value_put pn (carry + (pn i).setWidth 64 + (b i).setWidth 64) i.isLt
      have low := (value_mod_succ b i).symm
      rw [n, limb_fin] at turn
      rw [limb_fin] at low
      rw [addTurn]
      linear_combination turn + sum + low
  obtain ⟨-, sum⟩ := loop
  rw [Nat.mod_eq_of_lt b.value_lt] at sum
  rw [add, ← sum, Nat.add_mul_mod_self_left, Nat.mod_eq_of_lt (value_lt _)]

theorem value_complement : ∀ {w : Nat} (a : Limbs w),
    a.complement.value + a.value + 1 = 2 ^ (32 * w)
  | 0, _ => rfl
  | w + 1, a => by
      have rest := value_complement fun i => a i.succ
      have limb := (a 0).isLt
      have first : (~~~ a 0).toNat = 2 ^ 32 - 1 - (a 0).toNat := BitVec.toNat_not
      rw [value, value, Nat.mul_succ, Nat.pow_add]
      change (~~~ a 0).toNat + 2 ^ 32 * (complement fun i => a i.succ).value + _ + 1 = _
      rw [first]
      omega

/-- Counting up from limb `i` adds what the limb stands for. -/
theorem value_incrementFrom (pn : Limbs w) {i left : Nat} (rest : i + left = w) :
    (pn.incrementFrom i left).value = (pn.value + 2 ^ (32 * i)) % 2 ^ (32 * w) := by
  induction left generalizing pn i with
  | zero =>
      rw [show i = w from rest, Nat.add_mod_right, Nat.mod_eq_of_lt pn.value_lt]
      rfl
  | succ left ih =>
      have inside : i < w := by omega
      have set := value_setAt pn (pn.limb i + 1) inside
      have limb := (pn.limb i).isLt
      have up : (pn.limb i + 1).toNat = ((pn.limb i).toNat + 1) % 2 ^ 32 := BitVec.toNat_add ..
      rw [incrementFrom]
      simp only [limb_setAt pn _ _ inside, if_true]
      split
      · rename_i full
        have top : 2 ^ 32 = (pn.limb i).toNat + 1 := by
          rw [full, BitVec.toNat_zero] at up
          omega
        rw [full, BitVec.toNat_zero] at set
        have carried : (pn.setAt i 0#32).value + 2 ^ (32 * i) * 2 ^ 32 =
            pn.value + 2 ^ (32 * i) := by
          linear_combination set + 2 ^ (32 * i) * top
        rw [full, ih _ (by omega), Nat.mul_succ, Nat.pow_add, carried]
      · rename_i free
        have limb : (pn.limb i).toNat + 1 < 2 ^ 32 := by
          have ne : (pn.limb i + 1).toNat ≠ 0 := fun zero => free (BitVec.eq_of_toNat_eq zero)
          omega
        rw [up, Nat.mod_eq_of_lt limb, Nat.mul_add, Nat.mul_one] at set
        have counted : (pn.setAt i (pn.limb i + 1)).value = pn.value + 2 ^ (32 * i) := by
          omega
        rw [← counted, Nat.mod_eq_of_lt (value_lt _)]

theorem value_increment (a : Limbs w) : a.increment.value = (a.value + 1) % 2 ^ (32 * w) :=
  value_incrementFrom a (Nat.zero_add w)

/-- Counting down from limb `i` takes away what the limb stands for. -/
theorem decrementFrom_modEq (pn : Limbs w) {i left : Nat} (rest : i + left = w) :
    (pn.decrementFrom i left).value + 2 ^ (32 * i) ≡ pn.value [MOD 2 ^ (32 * w)] := by
  induction left generalizing pn i with
  | zero =>
      rw [show i = w from rest]
      exact Nat.add_modEq_right
  | succ left ih =>
      have inside : i < w := by omega
      have set := value_setAt pn (pn.limb i - 1) inside
      have limb := (pn.limb i).isLt
      have down : (pn.limb i - 1).toNat = (2 ^ 32 - 1 + (pn.limb i).toNat) % 2 ^ 32 :=
        BitVec.toNat_sub ..
      rw [decrementFrom]
      simp only [limb_setAt pn _ _ inside, if_true]
      split
      · rename_i empty
        have bottom : (pn.limb i).toNat = 0 := by
          have full : (pn.limb i - 1).toNat = 2 ^ 32 - 1 := by rw [empty]; rfl
          omega
        have borrowed : (pn.setAt i (pn.limb i - 1)).value + 2 ^ (32 * i) =
            pn.value + 2 ^ (32 * (i + 1)) := by
          have top : (pn.limb i - 1).toNat + 1 = 2 ^ 32 := by omega
          rw [bottom] at set
          rw [Nat.mul_succ, Nat.pow_add]
          linear_combination set + 2 ^ (32 * i) * top
        refine Nat.ModEq.add_right_cancel' (2 ^ (32 * (i + 1))) ?_
        rw [← borrowed, Nat.add_right_comm]
        exact (ih _ (by omega)).add_right _
      · rename_i filled
        have limb : 0 < (pn.limb i).toNat := by
          refine Nat.pos_of_ne_zero fun zero => filled (BitVec.eq_of_toNat_eq ?_)
          rw [down, zero]
          rfl
        have one : (pn.limb i).toNat = (pn.limb i - 1).toNat + 1 := by omega
        have counted : (pn.setAt i (pn.limb i - 1)).value + 2 ^ (32 * i) = pn.value := by
          linear_combination set + 2 ^ (32 * i) * one.symm
        rw [counted]

theorem value_decrement_add_one (a : Limbs w) :
    a.decrement.value + 1 ≡ a.value [MOD 2 ^ (32 * w)] :=
  decrementFrom_modEq a (Nat.zero_add w)

theorem negate_modEq (a : Limbs w) : a.negate.value + a.value ≡ 0 [MOD 2 ^ (32 * w)] := by
  have whole := value_complement a
  have up : a.negate.value ≡ a.complement.value + 1 [MOD 2 ^ (32 * w)] := by
    rw [negate, value_increment]
    exact Nat.mod_modEq _ _
  refine (up.add_right _).trans ?_
  rw [Nat.add_right_comm, whole]
  exact Nat.modEq_zero_iff_dvd.mpr dvd_rfl

theorem subtract_modEq (a b : Limbs w) :
    (a.subtract b).value + b.value ≡ a.value [MOD 2 ^ (32 * w)] := by
  have sum : (a.subtract b).value ≡ a.value + b.negate.value [MOD 2 ^ (32 * w)] := by
    rw [subtract, value_add]
    exact Nat.mod_modEq _ _
  refine (sum.add_right _).trans ?_
  rw [Nat.add_assoc]
  exact (negate_modEq b).add_left _

/-- A difference that is not negative is exact. -/
theorem value_subtract {a b : Limbs w} (le : b.value ≤ a.value) :
    (a.subtract b).value = a.value - b.value := by
  have same : (a.subtract b).value ≡ a.value - b.value [MOD 2 ^ (32 * w)] := by
    refine Nat.ModEq.add_right_cancel' b.value ?_
    rw [Nat.sub_add_cancel le]
    exact subtract_modEq a b
  exact same.eq_of_lt_of_lt (value_lt _) ((Nat.sub_le _ _).trans_lt a.value_lt)

/-! ### Products -/

theorem value_scale (a : Limbs w) (b32 : BitVec 32) :
    (a.scale b32).value = a.value * b32.toNat % 2 ^ (32 * w) := by
  let P (k : Nat) (turn : Limbs w × BitVec 64) : Prop := turn.2.toNat < 2 ^ 32 ∧
    turn.1.value + 2 ^ (32 * k) * turn.2.toNat + a.value % 2 ^ (32 * k) =
      a.value + b32.toNat * (a.value % 2 ^ (32 * k)) ∧
    ∀ j : Fin w, k ≤ j → turn.1 j = a j
  have loop : P w ((List.finRange w).foldl (scaleTurn b32) (a, 0#64)) := by
    refine foldl_finRange_rec ⟨by simp, by simp [Nat.mod_one], fun _ _ => rfl⟩ ?_
    rintro i ⟨pn, carry⟩ ⟨small, product, rest⟩
    have n := toNat_scaleTurn b32 (pn i) small
    have limit := mul_limbs_le b32 (pn i)
    refine ⟨?_, ?_, fun j beyond => ?_⟩
    · have bound : carry.toNat < 2 ^ 32 := small
      rw [scaleTurn, toNat_put_snd, n]
      omega
    · have turn := value_put pn (carry + b32.setWidth 64 * (pn i).setWidth 64) i.isLt
      have low := (value_mod_succ a i).symm
      have old : pn i = a i := rest i le_rfl
      rw [n, limb_fin, old] at turn
      rw [limb_fin] at low
      rw [scaleTurn, rest i le_rfl]
      linear_combination turn + product + b32.toNat * low + low.symm
    · have ne : j.val ≠ i.val := Nat.ne_of_gt beyond
      have kept := limb_put_of_ne pn (carry + b32.setWidth 64 * (pn i).setWidth 64) i.isLt ne
      rw [limb_fin, limb_fin] at kept
      exact kept.trans (rest j (Nat.le_of_succ_le beyond))
  obtain ⟨-, product, -⟩ := loop
  rw [Nat.mod_eq_of_lt a.value_lt] at product
  have whole : (a.scale b32).value + 2 ^ (32 * w) *
      ((List.finRange w).foldl (scaleTurn b32) (a, 0#64)).2.toNat = a.value * b32.toNat := by
    rw [scale]
    linear_combination product
  rw [← whole, Nat.add_mul_mod_self_left, Nat.mod_eq_of_lt (value_lt _)]

/-- A row adds the multiple of `b` that limb `j` of `a` stands for. -/
theorem productRow_modEq (a b acc : Limbs w) (j : Fin w) :
    (productRow a b acc j).value ≡
      acc.value + 2 ^ (32 * j.val) * (a j).toNat * b.value [MOD 2 ^ (32 * w)] := by
  let P (k : Nat) (turn : Limbs w × BitVec 64) : Prop := turn.2.toNat < 2 ^ 32 ∧
    turn.1.value + 2 ^ (32 * (k + j.val)) * turn.2.toNat =
      acc.value + 2 ^ (32 * j.val) * (a j).toNat * (b.value % 2 ^ (32 * k))
  have loop : P (w - j) ((List.finRange (w - j)).foldl (productTurn (a j) b j) (acc, 0#64)) := by
    refine foldl_finRange_rec ⟨by simp, by simp [Nat.mod_one]⟩ ?_
    rintro i ⟨pn, carry⟩ ⟨small, product⟩
    have inside : i.val + j.val < w := by omega
    have n := toNat_productTurn (pn.limb (i + j)) (a j) (b.limb i) small
    have limit := mul_limbs_le (a j) (b.limb i)
    refine ⟨?_, ?_⟩
    · have bound : carry.toNat < 2 ^ 32 := small
      have limb := (pn.limb (i + j)).isLt
      rw [productTurn, toNat_put_snd, n]
      omega
    · have turn := value_put pn (carry + (pn.limb (i + j)).setWidth 64 +
        (a j).setWidth 64 * (b.limb i).setWidth 64) inside
      have low := (value_mod_succ b i).symm
      have shifted : 2 ^ (32 * (i.val + j.val)) = 2 ^ (32 * i.val) * 2 ^ (32 * j.val) := by
        rw [← Nat.pow_add, Nat.mul_add]
      rw [n] at turn
      rw [productTurn, Nat.add_right_comm]
      linear_combination turn + product + 2 ^ (32 * j.val) * (a j).toNat * low +
        (a j).toNat * (b.limb i).toNat * shifted
  obtain ⟨-, product⟩ := loop
  have top : w - j.val + j.val = w := by omega
  rw [top] at product
  have cut : 2 ^ (32 * j.val) * (b.value % 2 ^ (32 * (w - j))) ≡
      2 ^ (32 * j.val) * b.value [MOD 2 ^ (32 * w)] := by
    have modulus : 2 ^ (32 * w) = 2 ^ (32 * j.val) * 2 ^ (32 * (w - j)) := by
      rw [← Nat.pow_add, ← Nat.mul_add, Nat.add_sub_cancel' j.isLt.le]
    rw [modulus]
    exact (Nat.mod_modEq _ _).mul_left' _
  have dropped : (productRow a b acc j).value ≡
      acc.value + 2 ^ (32 * j.val) * (a j).toNat * (b.value % 2 ^ (32 * (w - j)))
        [MOD 2 ^ (32 * w)] := by
    rw [← product, productRow]
    exact (Nat.add_mul_mod_self_left ..).symm
  refine dropped.trans (Nat.ModEq.add_left _ ?_)
  rw [Nat.mul_right_comm _ (a j).toNat, Nat.mul_right_comm _ (a j).toNat]
  exact cut.mul_right _

/-- The product, what does not fit falling off. -/
theorem value_multiply (a b : Limbs w) :
    (a.multiply b).value = a.value * b.value % 2 ^ (32 * w) := by
  let P (k : Nat) (acc : Limbs w) : Prop :=
    acc.value ≡ a.value % 2 ^ (32 * k) * b.value [MOD 2 ^ (32 * w)]
  have rows : P w (a.multiply b) := by
    refine foldl_finRange_rec ?_ fun j acc sum => ?_
    · change _ ≡ a.value % 2 ^ 0 * _ [MOD _]
      rw [value_zero, Nat.pow_zero, Nat.mod_one, Nat.zero_mul]
    · refine (productRow_modEq a b acc j).trans ?_
      have low := value_mod_succ a j
      rw [limb_fin] at low
      change _ ≡ a.value % 2 ^ (32 * (j.val + 1)) * _ [MOD _]
      rw [low, Nat.add_mul, Nat.add_comm]
      exact sum.add_left _
  have product : (a.multiply b).value ≡ a.value % 2 ^ (32 * w) * b.value [MOD 2 ^ (32 * w)] := rows
  rw [Nat.mod_eq_of_lt a.value_lt] at product
  rw [← Nat.mod_eq_of_lt (value_lt (a.multiply b))]
  exact product

/-! ### Comparisons -/

/-- The limbs are the digits of the number. -/
theorem value_injective : ∀ {w : Nat} {a b : Limbs w}, a.value = b.value → a = b
  | 0, _, _, _ => funext fun i => i.elim0
  | w + 1, a, b, same => by
      rw [value, value] at same
      have smallA := (a 0).isLt
      have smallB := (b 0).isLt
      have first : a 0 = b 0 := BitVec.eq_of_toNat_eq (by omega)
      have rest : (fun i : Fin w => a i.succ) = fun i => b i.succ :=
        value_injective (by omega)
      funext i
      cases i using Fin.cases with
      | zero => exact first
      | succ i => exact congrFun rest i

theorem equalTo_iff (a : Limbs (w + 2)) (b : BitVec 64) : a.equalTo b = true ↔ a.value = b.toNat := by
  have limbs : a.equalTo b = true ↔ a = ofWord b := by
    simp only [equalTo, List.all_eq_true, List.mem_finRange, forall_const, beq_iff_eq]
    exact funext_iff.symm
  rw [limbs, ← value_ofWord (w := w) b]
  exact ⟨congrArg value, value_injective⟩

theorem compareTo_pos_iff (a b : Limbs w) : 0 < a.compareTo b ↔ b.value < a.value :=
  (compareTo_spec a b).2

/-! ### Quotients -/

theorem value_orAt_bit (pn : Limbs w) {shift : Nat} (inside : shift < 32 * w) :
    (pn.orAt (shift / 32) (1#32 <<< (shift % 32))).value = pn.value ||| 2 ^ shift := by
  refine value_eq_of_bit fun n => ?_
  rw [Nat.testBit_or, testBit_value, Nat.testBit_two_pow]
  by_cases lt : n / 32 < w
  · rw [bit, bit, limb_of_lt _ lt, limb_of_lt _ lt, orAt]
    split
    · rename_i same
      have here : n / 32 = shift / 32 := same
      have iff : n % 32 = shift % 32 ↔ shift = n := by omega
      rw [BitVec.getLsbD_or, BitVec.getLsbD_shiftLeft, BitVec.getLsbD_one]
      congr 1
      by_cases eq : shift = n
      · simp [eq, Nat.mod_lt]
      · have ne : n % 32 ≠ shift % 32 := fun eq' => eq (iff.mp eq')
        simp only [eq, decide_false]
        by_cases above : n % 32 < shift % 32
        · simp [above]
        · simp [show n % 32 - shift % 32 ≠ 0 by omega]
    · rename_i other
      have ne : shift ≠ n := fun eq => other (by rw [eq])
      rw [decide_eq_false ne, Bool.or_false]
  · have ne : shift ≠ n := by omega
    rw [bit_of_le _ (by omega), bit_of_le _ (by omega), decide_eq_false ne, Bool.or_false]

/-- What the loop of the division carries on: `num` is less than `div` was before
its last shift, and the quotient has no bit yet where it is still to get one. -/
theorem value_divideFrom {divisor : Nat} : ∀ {turns : Nat} {num div quotient : Limbs w},
    turns ≤ 32 * w → div.value = divisor * 2 ^ turns / 2 → num.value < divisor * 2 ^ turns →
    2 ^ turns ∣ quotient.value →
    (divideFrom num div quotient turns).1.value * divisor +
        (divideFrom num div quotient turns).2.value = quotient.value * divisor + num.value ∧
      (divideFrom num div quotient turns).2.value < divisor
  | 0, num, div, quotient, _, _, small, _ => ⟨rfl, by rwa [Nat.pow_zero, Nat.mul_one] at small⟩
  | shift + 1, num, div, quotient, fits, aligned, small, clear => by
      have div_eq : div.value = divisor * 2 ^ shift := by
        rw [aligned, Nat.pow_succ, ← Nat.mul_assoc, Nat.mul_div_cancel _ (by decide : 0 < 2)]
      have next : (div.shiftRight 1).value = divisor * 2 ^ shift / 2 := by
        rw [value_shiftRight, div_eq, Nat.pow_one]
      have double : divisor * 2 ^ (shift + 1) = divisor * 2 ^ shift + divisor * 2 ^ shift := by
        rw [Nat.pow_succ, ← Nat.mul_assoc, Nat.mul_two]
      have kept : 2 ^ shift ∣ quotient.value :=
        (Nat.pow_dvd_pow 2 (Nat.le_succ shift)).trans clear
      have order := (compareTo_spec num div).1
      rw [divideFrom]
      split
      · rename_i ge
        have le : div.value ≤ num.value := by
          by_contra lt
          exact absurd (order.mpr (Nat.lt_of_not_le lt)) (not_lt.mpr ge)
        obtain ⟨q, whole⟩ := clear
        have set : (quotient.orAt (shift / 32) (1#32 <<< (shift % 32))).value =
            quotient.value + 2 ^ shift := by
          rw [value_orAt_bit quotient (by omega), whole]
          exact (Nat.two_pow_add_eq_or_of_lt
            (Nat.pow_lt_pow_right (by decide) (Nat.lt_succ_self shift)) q).symm
        have rest := value_subtract le
        have left : (num.subtract div).value < divisor * 2 ^ shift := by omega
        have run := value_divideFrom (Nat.le_of_succ_le fits) next left
          (by rw [set]; exact Nat.dvd_add kept dvd_rfl)
        refine ⟨run.1.trans ?_, run.2⟩
        rw [set, rest, Nat.add_mul, Nat.mul_comm (2 ^ shift), ← div_eq]
        omega
      · rename_i lt
        have less : num.value < div.value := order.mp (not_le.mp lt)
        exact value_divideFrom (Nat.le_of_succ_le fits) next (div_eq ▸ less) kept

theorem bits_eq_zero_iff (a : Limbs w) : a.bits = 0 ↔ a.value = 0 := by
  rw [bits_eq_size, Nat.size_eq_zero]

theorem bits_le (a : Limbs w) : a.bits ≤ 32 * w := by
  rw [bits_eq_size]
  exact Nat.size_le.mpr a.value_lt

theorem divide_zero (num : Limbs w) {div : Limbs w} (zero : div.value = 0) :
    num.divide div = .error .divisionByZero :=
  if_pos ((bits_eq_zero_iff div).mpr zero)

/-- The quotient is exact, whatever the two numbers, unless the divisor is zero. -/
theorem value_divide (num div : Limbs w) (nonzero : div.value ≠ 0) :
    ∃ quotient, num.divide div = .ok quotient ∧ quotient.value = num.value / div.value := by
  have pos : 0 < div.bits := Nat.pos_of_ne_zero (mt (bits_eq_zero_iff div).mp nonzero)
  rw [divide, if_neg pos.ne']
  split
  · rename_i short
    have less : num.value < div.value := by
      by_contra le
      have sizes := Nat.size_le_size (Nat.le_of_not_lt le)
      rw [← bits_eq_size, ← bits_eq_size] at sizes
      omega
    exact ⟨zero, rfl, by rw [value_zero, Nat.div_eq_of_lt less]⟩
  · rename_i long
    have width := bits_le num
    generalize shiftEq : num.bits - div.bits = shift
    have bits : num.bits = div.bits + shift := by omega
    have top : div.value < 2 ^ div.bits := by
      rw [bits_eq_size]
      exact Nat.lt_size_self _
    have bottom : 2 ^ (div.bits - 1) ≤ div.value := by
      refine Nat.lt_size.mp ?_
      rw [← bits_eq_size]
      omega
    have numTop : num.value < 2 ^ num.bits := by
      rw [bits_eq_size]
      exact Nat.lt_size_self _
    have aligned : (div.shiftLeft shift).value = div.value * 2 ^ shift := by
      rw [value_shiftLeft]
      refine Nat.mod_eq_of_lt ?_
      calc div.value * 2 ^ shift < 2 ^ div.bits * 2 ^ shift :=
            Nat.mul_lt_mul_of_pos_right top (Nat.two_pow_pos _)
        _ = 2 ^ num.bits := by rw [bits, Nat.pow_add]
        _ ≤ 2 ^ (32 * w) := Nat.pow_le_pow_right (by decide) width
    have half : div.value * 2 ^ (shift + 1) / 2 = div.value * 2 ^ shift := by
      rw [Nat.pow_succ, ← Nat.mul_assoc, Nat.mul_div_cancel _ (by decide : 0 < 2)]
    have start : num.value < div.value * 2 ^ (shift + 1) := by
      calc num.value < 2 ^ num.bits := numTop
        _ = 2 ^ (div.bits - 1) * 2 ^ (shift + 1) := by rw [← Nat.pow_add, bits]; congr 1; omega
        _ ≤ div.value * 2 ^ (shift + 1) := Nat.mul_le_mul_right _ bottom
    have none : 2 ^ (shift + 1) ∣ (zero : Limbs w).value := by
      rw [value_zero]
      exact Nat.dvd_zero _
    have run := value_divideFrom (by omega) (aligned.trans half.symm) start none
    refine ⟨_, rfl, ?_⟩
    rw [value_zero, Nat.zero_mul, Nat.zero_add] at run
    refine (Nat.div_eq_of_lt_le ?_ ?_).symm
    · rw [← run.1]
      exact Nat.le_add_right _ _
    · rw [← run.1, Nat.succ_mul]
      exact Nat.add_lt_add_left run.2 _

end Limbs
