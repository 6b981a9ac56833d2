import Mathlib.Algebra.Order.Ring.Rat
import Mathlib.Tactic.Linarith
import QmaskCore.Lib.Checks
import QmaskCore.Lib.Scan
import QmaskCore.SmallNetwork

/-!
Amounts as text.

`parseAmount` reads digit by digit into 64 bits, with a check in front of each
multiplication; `formatAmount` writes all eight decimal places. `Numeral` is what an
amount may look like, with its value as a fraction. `amounts_read_exactly` says that
the one reads exactly the other, within the money range, and that no operation on
the way overflows.
-/

namespace QmaskCore

open Checks Scan

namespace Rpc

/-- How reading an amount ends without one. -/
inductive AmountError where
  /-- A signed operation overflowed, and the program means nothing from there on. -/
  | overflow
  | refused (why : String)
deriving DecidableEq

/-- What an operation on `int64_t` gives. -/
def int64 (n : Int) : Except AmountError Int64 :=
  if -2 ^ 63 ≤ n ∧ n < 2 ^ 63 then .ok (Int64.ofInt n) else .error .overflow

/-- A digit behind a number. -/
def appendDigit (v : Int64) (c : UInt8) : Except AmountError Int64 := do
  let tenfold ← int64 (v.toInt * 10)
  int64 (tenfold.toInt + (c.toNat - 48 : Nat))

section

variable (P : Params) (coin : Int64)

/-- The digits in front of the point: their number, how many they are, and the rest. -/
def wholeFrom : Int64 → Nat → List UInt8 → Except AmountError (Int64 × Nat × List UInt8)
  | whole, wholeDigits, [] => .ok (whole, wholeDigits, [])
  | whole, wholeDigits, c :: s =>
      if isDigit c then
        if P.maxMoney / coin < whole then .error (.refused "amount out of range")
        else
          match appendDigit whole c with
          | .error e => .error e
          | .ok whole => wholeFrom whole (wholeDigits + 1) s
      else .ok (whole, wholeDigits, c :: s)

/-- The digits behind it. -/
def fracFrom : Int64 → Nat → List UInt8 → Except AmountError (Int64 × Nat × List UInt8)
  | frac, fracDigits, [] => .ok (frac, fracDigits, [])
  | frac, fracDigits, c :: s =>
      if isDigit c then
        if 8 ≤ fracDigits then .error (.refused "amount has more than eight decimal places")
        else
          match appendDigit frac c with
          | .error e => .error e
          | .ok frac => fracFrom frac (fracDigits + 1) s
      else .ok (frac, fracDigits, c :: s)

/-- The fraction brought to eight places. -/
def scaleFrac : Nat → Int64 → Except AmountError Int64
  | 0, frac => .ok frac
  | places + 1, frac =>
      match int64 (frac.toInt * 10) with
      | .error e => .error e
      | .ok frac => scaleFrac places frac

/-- The fraction scaled, the last check, and the sum. -/
def amountOf (negative : Bool) (whole frac : Int64) (fracDigits : Nat) :
    Except AmountError Int64 := do
  let frac ← scaleFrac (8 - fracDigits) frac
  let room ← int64 (P.maxMoney.toInt - frac.toInt)
  rejectIf (room / coin < whole) (.refused "amount out of range")
  let scaled ← int64 (whole.toInt * coin.toInt)
  let out ← int64 (scaled.toInt + frac.toInt)
  if negative then int64 (-out.toInt) else .ok out

/-- `coin` is `NetParams::COIN`. -/
def parseAmount (text : List UInt8) : Except AmountError Int64 :=
  if text = [] then .error (.refused "amount is empty")
  else
    let (negative, s) := sign text
    match wholeFrom P coin 0 0 s with
    | .error e => .error e
    | .ok (whole, wholeDigits, s) =>
        match (if s.head? = some 46 then fracFrom 0 0 s.tail else .ok (0, 0, s)) with
        | .error e => .error e
        | .ok (frac, fracDigits, s) =>
            if s ≠ [] then .error (.refused "amount is not a number")
            else if wholeDigits = 0 ∧ fracDigits = 0 then .error (.refused "amount has no digits")
            else amountOf P coin negative whole frac fracDigits

/-- `setfill('0')` and `setw`. -/
def padded (width n : Nat) : List UInt8 :=
  List.replicate (width - (decimal n).length) 48 ++ decimal n

def formatAmount (units : Int64) : List UInt8 :=
  let negative : Bool := units < 0
  let magnitude : UInt64 := if negative then ~~~units.toUInt64 + 1 else units.toUInt64
  let whole := magnitude / coin.toUInt64
  let frac := magnitude % coin.toUInt64
  (if negative then [45] else []) ++ (decimal whole.toNat ++ 46 :: padded 8 frac.toNat)

end

/-! ### What an amount looks like -/

/-- A sign, digits, and up to eight more behind a point. -/
structure Numeral where
  sign : List UInt8
  whole : List UInt8
  /-- The digits behind the point, if there is one. -/
  fraction : Option (List UInt8)
  sign_mem : sign = [] ∨ sign = [43] ∨ sign = [45]
  whole_digits : ∀ b ∈ whole, isDigit b = true
  fraction_digits : ∀ b ∈ fraction.getD [], isDigit b = true
  fraction_le : (fraction.getD []).length ≤ 8
  digits_ne_nil : whole ++ fraction.getD [] ≠ []

namespace Numeral

def text (n : Numeral) : List UInt8 :=
  n.sign ++ (n.whole ++ (n.fraction.map (46 :: ·)).getD [])

/-- What it denotes. -/
def value (n : Numeral) : ℚ :=
  (if n.sign = [45] then -1 else 1) *
    (magnitude 0 n.whole + magnitude 0 (n.fraction.getD []) / 10 ^ (n.fraction.getD []).length)

/-- The same in units, without the sign. -/
def units (n : Numeral) : Nat :=
  magnitude 0 n.whole * 10 ^ 8 +
    magnitude 0 (n.fraction.getD []) * 10 ^ (8 - (n.fraction.getD []).length)

theorem value_mul (n : Numeral) :
    n.value * 10 ^ 8 = (if n.sign = [45] then -1 else 1) * (n.units : ℚ) := by
  have places : (10 : ℚ) ^ 8 = 10 ^ (n.fraction.getD []).length *
      10 ^ (8 - (n.fraction.getD []).length) := by
    rw [← pow_add, Nat.add_sub_cancel' n.fraction_le]
  have nonzero : (10 : ℚ) ^ (n.fraction.getD []).length ≠ 0 := by positivity
  rw [value, units, mul_assoc]
  congr 1
  have below : (magnitude 0 (n.fraction.getD []) : ℚ) / 10 ^ (n.fraction.getD []).length * 10 ^ 8 =
      magnitude 0 (n.fraction.getD []) * 10 ^ (8 - (n.fraction.getD []).length) := by
    rw [places, ← mul_assoc, div_mul_cancel₀ _ nonzero]
  rw [add_mul, below]
  push_cast
  rfl

/-- How large it is, in units. -/
theorem abs_value_mul (n : Numeral) : |n.value * 10 ^ 8| = (n.units : ℚ) := by
  have nonneg : (0 : ℚ) ≤ n.units := Nat.cast_nonneg _
  rw [value_mul]
  split
  · rw [neg_one_mul, abs_neg, abs_of_nonneg nonneg]
  · rw [one_mul, abs_of_nonneg nonneg]

theorem text_ne_nil (n : Numeral) : n.text ≠ [] := by
  intro empty
  rw [text, List.append_eq_nil_iff, List.append_eq_nil_iff] at empty
  refine n.digits_ne_nil ?_
  rw [empty.2.1]
  cases eq : n.fraction with
  | none => rfl
  | some f => simp [eq] at empty

/-- The sign comes off, since neither a digit nor the point is one. -/
theorem sign_text (n : Numeral) : Scan.sign n.text =
    (decide (n.sign = [45]), n.whole ++ (n.fraction.map (46 :: ·)).getD []) := by
  have bare : Scan.sign (n.whole ++ (n.fraction.map (46 :: ·)).getD []) =
      (false, n.whole ++ (n.fraction.map (46 :: ·)).getD []) := by
    cases eq : n.whole with
    | nil =>
        cases n.fraction with
        | none => rfl
        | some f => rfl
    | cons c w =>
        have plain := not_sign_of_isDigit (n.whole_digits c (by rw [eq]; exact List.mem_cons_self))
        rw [List.cons_append, Scan.sign, if_neg plain.1, if_neg plain.2]
  rcases n.sign_mem with none | plus | minus
  · rw [text, none, List.nil_append, bare]
    rfl
  · rw [text, plus]
    rfl
  · rw [text, minus]
    rfl

end Numeral

/-! ### The loops -/

theorem int64_eq {n : Int} (low : -2 ^ 63 ≤ n) (high : n < 2 ^ 63) :
    ∃ v : Int64, int64 n = .ok v ∧ v.toInt = n :=
  ⟨Int64.ofInt n, if_pos ⟨low, high⟩, Int64.toInt_ofInt_of_le low high⟩

theorem appendDigit_eq {v : Int64} {n : Nat} (value : v.toInt = n) {c : UInt8}
    (digit : isDigit c = true) (small : 10 * n + 9 < 2 ^ 63) :
    ∃ v', appendDigit v c = .ok v' ∧ v'.toInt = (10 * n + (c.toNat - 48) : Nat) := by
  have one := digit_le digit
  obtain ⟨tenfold, first, tenfold_eq⟩ := @int64_eq (v.toInt * 10) (by omega) (by omega)
  obtain ⟨v', second, v'_eq⟩ := @int64_eq (tenfold.toInt + (c.toNat - 48 : Nat))
    (by omega) (by omega)
  refine ⟨v', ?_, by omega⟩
  rw [appendDigit, first]
  exact second

section

variable {P : Params} {coin : Int64} {money : Nat}

/-- Division by `COIN`. -/
theorem toInt_div_coin (unit : coin.toInt = 10 ^ 8) {v : Int64} {n : Nat} (value : v.toInt = n) :
    (v / coin).toInt = (n / 10 ^ 8 : Nat) := by
  have other : coin ≠ -1 := by
    rintro rfl
    exact absurd unit (by decide)
  rw [Int64.toInt_div_of_ne_right v coin other, unit, value]
  exact Int.tdiv_eq_ediv_of_nonneg (Int.natCast_nonneg n)

variable (unit : coin.toInt = 10 ^ 8) (limit : P.maxMoney.toInt = money) (small : money < 2 ^ 62)

include unit limit small in
/-- The digits are read, or they denote more than there can be. -/
theorem wholeFrom_spec {s rest : List UInt8} (stop : ∀ b ∈ rest.head?, isDigit b = false) :
    ∀ {whole : Int64} {n count : Nat}, (∀ b ∈ s, isDigit b = true) → whole.toInt = n →
    n ≤ 10 * (money / 10 ^ 8) + 9 →
    (wholeFrom P coin whole count (s ++ rest) = .error (.refused "amount out of range") ∧
      money / 10 ^ 8 < magnitude n s) ∨
    ∃ whole', wholeFrom P coin whole count (s ++ rest) = .ok (whole', count + s.length, rest) ∧
      whole'.toInt = magnitude n s ∧ magnitude n s ≤ 10 * (money / 10 ^ 8) + 9 := by
  induction s with
  | nil =>
      intro whole n count _ value bound
      refine .inr ⟨whole, ?_, value, bound⟩
      cases rest with
      | nil => rfl
      | cons b rest =>
          rw [List.nil_append, wholeFrom, if_neg (by rw [stop b rfl]; exact Bool.false_ne_true)]
          rfl
  | cons c s ih =>
      intro whole n count digits value bound
      have digit := digits c List.mem_cons_self
      have most := toInt_div_coin unit limit
      have one := digit_le digit
      rw [List.cons_append, wholeFrom, if_pos digit]
      by_cases above : P.maxMoney / coin < whole
      · rw [if_pos above]
        rw [Int64.lt_iff_toInt_lt, most, value] at above
        refine .inl ⟨rfl, lt_of_lt_of_le ?_ (le_magnitude (c :: s) n)⟩
        omega
      · rw [if_neg above]
        rw [Int64.lt_iff_toInt_lt, most, value] at above
        obtain ⟨whole', appended, value'⟩ := appendDigit_eq value digit (by omega)
        rw [appended]
        have next := @ih whole' _ (count + 1) (fun b mem => digits b (List.mem_cons_of_mem c mem))
          value' (by omega)
        rw [Nat.add_assoc, Nat.add_comm 1] at next
        exact next

/-- Up to eight digits are read. -/
theorem fracFrom_spec {s rest : List UInt8} (stop : ∀ b ∈ rest.head?, isDigit b = false) :
    ∀ {frac : Int64} {n count : Nat}, (∀ b ∈ s, isDigit b = true) → frac.toInt = n →
    n < 10 ^ count → count ≤ 8 →
    if count + s.length ≤ 8 then
      ∃ frac', fracFrom frac count (s ++ rest) = .ok (frac', count + s.length, rest) ∧
        frac'.toInt = magnitude n s
    else fracFrom frac count (s ++ rest) =
      .error (.refused "amount has more than eight decimal places") := by
  induction s with
  | nil =>
      intro frac n count _ value _ few
      rw [List.length_nil, Nat.add_zero, if_pos few]
      refine ⟨frac, ?_, value⟩
      cases rest with
      | nil => rfl
      | cons b rest =>
          rw [List.nil_append, fracFrom, if_neg (by rw [stop b rfl]; exact Bool.false_ne_true)]
  | cons c s ih =>
      intro frac n count digits value bound few
      have digit := digits c List.mem_cons_self
      have one := digit_le digit
      rw [List.cons_append, fracFrom, if_pos digit]
      by_cases full : 8 ≤ count
      · have many : ¬ count + (c :: s).length ≤ 8 := by
          rw [List.length_cons]
          omega
        rw [if_pos full, if_neg many]
      · have eight : 10 ^ count ≤ 10 ^ 8 := Nat.pow_le_pow_right (by omega) few
        obtain ⟨frac', appended, value'⟩ := appendDigit_eq value digit (by omega)
        rw [if_neg full, appended]
        have next := ih (fun b mem => digits b (List.mem_cons_of_mem c mem)) value'
          (by rw [pow_succ]; omega) (by omega : count + 1 ≤ 8)
        rw [Nat.add_assoc, Nat.add_comm 1] at next
        exact next

end

theorem scaleFrac_eq : ∀ {places : Nat} {frac : Int64} {n : Nat}, frac.toInt = n →
    n * 10 ^ places < 2 ^ 63 →
    ∃ frac', scaleFrac places frac = .ok frac' ∧ frac'.toInt = (n * 10 ^ places : Nat) := by
  intro places
  induction places with
  | zero => exact fun {frac n} value _ => ⟨frac, rfl, by rw [pow_zero, mul_one, value]⟩
  | succ places ih =>
      intro frac n value small
      rw [pow_succ', ← mul_assoc] at small ⊢
      have tenfold : n * 10 ≤ n * 10 * 10 ^ places := Nat.le_mul_of_pos_right _ (by positivity)
      obtain ⟨frac', step, value'⟩ := @int64_eq (frac.toInt * 10) (by omega) (by omega)
      rw [scaleFrac, step]
      exact ih (by rw [value', value, Nat.cast_mul]; rfl) small

/-- The sign, and what it stands in front of. -/
theorem exists_sign (text : List UInt8) : ∃ sgn, (sgn = [] ∨ sgn = [43] ∨ sgn = [45]) ∧
    text = sgn ++ (Scan.sign text).2 := by
  cases text with
  | nil => exact ⟨[], .inl rfl, rfl⟩
  | cons b s =>
      rw [Scan.sign]
      split_ifs with minus plus
      · exact ⟨[45], .inr (.inr rfl), by rw [minus]; rfl⟩
      · exact ⟨[43], .inr (.inl rfl), by rw [plus]; rfl⟩
      · exact ⟨[], .inl rfl, rfl⟩

/-- The digits a text begins with. -/
theorem exists_digits (s : List UInt8) : ∃ ds r, s = ds ++ r ∧ (∀ b ∈ ds, isDigit b = true) ∧
    ∀ b ∈ r.head?, isDigit b = false := by
  refine ⟨s.takeWhile isDigit, s.dropWhile isDigit, List.takeWhile_append_dropWhile.symm,
    fun b mem => List.mem_takeWhile_imp mem, fun b mem => ?_⟩
  have first := List.head?_dropWhile_not isDigit s
  rw [Option.mem_def.mp mem] at first
  simpa using first

section

variable {P : Params} {coin : Int64} {money : Nat}
variable (unit : coin.toInt = 10 ^ 8) (limit : P.maxMoney.toInt = money) (small : money < 2 ^ 62)
variable (covers : 10 ^ 8 ≤ money)

include unit limit small covers in
/-- The last check is exact. -/
theorem amountOf_spec (negative : Bool) {whole frac : Int64} {w f fracDigits : Nat}
    (value : whole.toInt = w) (value' : frac.toInt = f) (below : f < 10 ^ fracDigits)
    (few : fracDigits ≤ 8) :
    if w * 10 ^ 8 + f * 10 ^ (8 - fracDigits) ≤ money then
      ∃ v, amountOf P coin negative whole frac fracDigits = .ok v ∧
        v.toInt = (if negative then -1 else 1) *
          ((w * 10 ^ 8 + f * 10 ^ (8 - fracDigits) : Nat) : Int)
    else amountOf P coin negative whole frac fracDigits =
      .error (.refused "amount out of range") := by
  have places : f * 10 ^ (8 - fracDigits) < 10 ^ 8 := by
    have scaled := Nat.mul_lt_mul_of_pos_right below
      (@Nat.pow_pos 10 (8 - fracDigits) (by omega))
    rwa [← pow_add, Nat.add_sub_cancel' few] at scaled
  obtain ⟨frac', scaled, frac'_eq⟩ := @scaleFrac_eq (8 - fracDigits) frac f value' (by omega)
  generalize f * 10 ^ (8 - fracDigits) = fraction at *
  obtain ⟨room, left, room_eq⟩ := @int64_eq (P.maxMoney.toInt - frac'.toInt) (by omega) (by omega)
  have quotient := @toInt_div_coin coin unit room (money - fraction) (by omega)
  have check : room / coin < whole ↔ money < w * 10 ^ 8 + fraction := by
    rw [Int64.lt_iff_toInt_lt, quotient, value, Nat.cast_lt, Nat.div_lt_iff_lt_mul (by omega)]
    omega
  by_cases within : w * 10 ^ 8 + fraction ≤ money
  · have fits : whole ≤ room / coin := Int64.not_lt.mp fun above =>
      absurd (check.mp above) (not_lt.mpr within)
    rw [if_pos within]
    obtain ⟨product, multiplied, product_eq⟩ := @int64_eq (whole.toInt * coin.toInt)
      (by rw [value, unit]; omega) (by rw [value, unit]; omega)
    rw [value, unit] at product_eq
    obtain ⟨out, added, out_eq⟩ := @int64_eq (product.toInt + frac'.toInt) (by omega) (by omega)
    obtain ⟨opposite, negated, opposite_eq⟩ := @int64_eq (-out.toInt) (by omega) (by omega)
    cases negative with
    | true =>
        refine ⟨opposite, ?_, ?_⟩
        · simp [amountOf, scaled, left, fits, multiplied, added, negated]
        · rw [opposite_eq, out_eq, product_eq, frac'_eq, if_pos rfl]
          push_cast
          omega
    | false =>
        refine ⟨out, ?_, ?_⟩
        · simp [amountOf, scaled, left, fits, multiplied, added]
        · rw [out_eq, product_eq, frac'_eq, if_neg Bool.false_ne_true]
          push_cast
          omega
  · rw [if_neg within, amountOf, scaled]
    change (int64 _ >>= _) = _
    rw [left]
    change (rejectIf _ _ >>= _) = _
    rw [rejectIf, if_pos (check.mpr (not_le.mp within))]
    rfl

include unit limit small covers in
/-- A numeral is read for what it denotes, if there can be as much. -/
theorem parseAmount_text (n : Numeral) :
    if n.units ≤ money then
      ∃ v, parseAmount P coin n.text = .ok v ∧
        v.toInt = (if n.sign = [45] then -1 else 1) * (n.units : Int)
    else parseAmount P coin n.text = .error (.refused "amount out of range") := by
  have some : n.text ≠ [] := n.text_ne_nil
  have stop : ∀ b ∈ ((n.fraction.map (46 :: ·)).getD []).head?, isDigit b = false := by
    cases n.fraction with
    | none => simp
    | some f => simp [isDigit]
  have frac : ∃ frac, (if ((n.fraction.map (46 :: ·)).getD []).head? = .some 46 then
        fracFrom 0 0 ((n.fraction.map (46 :: ·)).getD []).tail
      else .ok (0, 0, (n.fraction.map (46 :: ·)).getD [])) =
        .ok (frac, (n.fraction.getD []).length, []) ∧
      frac.toInt = magnitude 0 (n.fraction.getD []) := by
    have digits := n.fraction_digits
    have few := n.fraction_le
    cases eq : n.fraction with
    | none => exact ⟨0, rfl, rfl⟩
    | some f =>
        rw [eq, Option.getD_some] at digits few
        have read := @fracFrom_spec f [] (by simp) 0 0 0 digits rfl (by simp) (by omega)
        rw [Nat.zero_add, if_pos few, List.append_nil] at read
        exact read
  obtain ⟨frac, fraction_eq, value'⟩ := frac
  have whole := @wholeFrom_spec P coin money unit limit small _ _ stop 0 0 0 n.whole_digits rfl
    (by omega)
  rw [parseAmount, if_neg some, n.sign_text]
  dsimp only
  rcases whole with ⟨refused, large⟩ | ⟨whole, read, value, _⟩
  · have above : ¬ n.units ≤ money := by
      rw [Numeral.units]
      omega
    rw [if_neg above, refused]
  · have below := @magnitude_lt _ 0 0 n.fraction_digits (by omega)
    rw [Nat.zero_add] at below
    have digits : ¬ (0 + n.whole.length = 0 ∧ (n.fraction.getD []).length = 0) := by
      rintro ⟨none, none'⟩
      refine n.digits_ne_nil ?_
      rw [List.append_eq_nil_iff]
      exact ⟨List.length_eq_zero_iff.mp (by omega), List.length_eq_zero_iff.mp none'⟩
    rw [read]
    dsimp only
    rw [fraction_eq]
    dsimp only
    rw [if_neg (not_not_intro rfl), if_neg digits]
    have last := amountOf_spec unit limit small covers (decide (n.sign = [45])) value value' below
      n.fraction_le
    simp only [decide_eq_true_eq] at last
    exact last

include unit limit small in
/-- What is not a numeral is refused. -/
theorem refused_or_numeral (text : List UInt8) :
    (∃ why, parseAmount P coin text = .error (.refused why)) ∨ ∃ n : Numeral, n.text = text := by
  by_cases empty : text = []
  · exact .inl ⟨_, if_pos empty⟩
  obtain ⟨sgn, sgn_mem, text_eq⟩ := exists_sign text
  obtain ⟨ds, r, split, digits, stop⟩ := exists_digits (Scan.sign text).2
  rw [parseAmount, if_neg empty]
  dsimp only
  rw [split] at text_eq ⊢
  rcases @wholeFrom_spec P coin money unit limit small ds r stop 0 0 0 digits rfl (by omega) with
    ⟨refused, _⟩ | ⟨whole, read, _, _⟩
  · rw [refused]
    exact .inl ⟨_, rfl⟩
  rw [read]
  dsimp only
  by_cases point : r.head? = some 46
  · rw [if_pos point]
    obtain ⟨t, rfl⟩ : ∃ t, r = 46 :: t := ⟨r.tail, List.eq_cons_of_mem_head? point⟩
    obtain ⟨fs, r, rfl, digits', stop'⟩ := exists_digits t
    have frac := @fracFrom_spec fs r stop' 0 0 0 digits' rfl (by simp) (by omega)
    rw [List.tail_cons]
    split at frac
    · rename_i few
      obtain ⟨frac, read', _⟩ := frac
      rw [read']
      dsimp only
      by_cases rest : r = []
      · by_cases none : ds = [] ∧ fs = []
        · rw [if_neg (not_not_intro rest), if_pos (by rw [none.1, none.2]; exact ⟨rfl, rfl⟩)]
          exact .inl ⟨_, rfl⟩
        · refine .inr ⟨⟨sgn, ds, some fs, sgn_mem, digits, digits', by simpa using few, ?_⟩, ?_⟩
          · rwa [Ne, List.append_eq_nil_iff]
          · rw [Numeral.text, text_eq, rest]
            simp
      · rw [if_pos rest]
        exact .inl ⟨_, rfl⟩
    · rw [frac]
      exact .inl ⟨_, rfl⟩
  · rw [if_neg point]
    dsimp only
    by_cases rest : r = []
    · by_cases none : ds = []
      · rw [if_neg (not_not_intro rest), if_pos (by rw [none]; exact ⟨rfl, rfl⟩)]
        exact .inl ⟨_, rfl⟩
      · refine .inr ⟨⟨sgn, ds, .none, sgn_mem, digits, by simp, by simp, by simpa using none⟩, ?_⟩
        rw [Numeral.text, text_eq, rest]
        simp
    · rw [if_pos rest]
      exact .inl ⟨_, rfl⟩

end

/-! ### Writing -/

/-- The size of a number, in 64 bits without a sign. -/
theorem toNat_size (u : Int64) :
    (if decide (u < 0) = true then ~~~u.toUInt64 + 1 else u.toUInt64).toNat = u.toInt.natAbs := by
  have signed : u.toInt = if 2 * u.toUInt64.toNat < 2 ^ 64 then (u.toUInt64.toNat : Int)
      else u.toUInt64.toNat - (2 ^ 64 : Nat) := BitVec.toInt_eq_toNat_cond u.toBitVec
  have range := u.toUInt64.toNat_lt
  have size : UInt64.size = 2 ^ 64 := rfl
  by_cases negative : u < 0
  · rw [if_pos (decide_eq_true negative), ← UInt64.neg_eq_not_add, UInt64.toNat_neg]
    rw [Int64.lt_iff_toInt_lt, Int64.toInt_zero] at negative
    split at signed
    · omega
    · rw [Nat.mod_eq_of_lt (by omega)]
      omega
  · rw [if_neg (by rwa [decide_eq_true_eq])]
    rw [Int64.lt_iff_toInt_lt, Int64.toInt_zero] at negative
    split at signed
    · omega
    · omega

theorem isDigit_padded {width n : Nat} {b : UInt8} (mem : b ∈ padded width n) :
    isDigit b = true := by
  rcases List.mem_append.mp mem with zero | digit
  · rw [List.eq_of_mem_replicate zero]
    rfl
  · exact isDigit_decimal digit

theorem length_padded {width n : Nat} (some : 0 < width) (fits : n < 10 ^ width) :
    (padded width n).length = width := by
  have few : (decimal n).length ≤ width := (length_decimal_le_iff some).mpr fits
  rw [padded, List.length_append, List.length_replicate, Nat.sub_add_cancel few]

theorem magnitude_padded (width n : Nat) : magnitude 0 (padded width n) = n := by
  have zeros : ∀ k l, magnitude 0 (List.replicate k 48 ++ l) = magnitude 0 l := by
    intro k l
    induction k with
    | zero => rfl
    | succ k ih =>
        rw [List.replicate_succ, List.cons_append, magnitude_cons]
        exact ih
  rw [padded, zeros, magnitude_decimal]

/-- What `formatAmount` writes. -/
def written (u : Int64) : Numeral where
  sign := if u < 0 then [45] else []
  whole := decimal (u.toInt.natAbs / 10 ^ 8)
  fraction := some (padded 8 (u.toInt.natAbs % 10 ^ 8))
  sign_mem := by
    split
    · exact .inr (.inr rfl)
    · exact .inl rfl
  whole_digits := fun _ => isDigit_decimal
  fraction_digits := fun _ => isDigit_padded
  fraction_le := (length_padded (by omega) (Nat.mod_lt _ (by omega))).le
  digits_ne_nil := List.append_ne_nil_of_left_ne_nil (decimal_ne_nil _) _

theorem units_written (u : Int64) : (written u).units = u.toInt.natAbs := by
  have eight := @length_padded 8 (u.toInt.natAbs % 10 ^ 8) (by omega) (Nat.mod_lt _ (by omega))
  rw [Numeral.units, written]
  dsimp only
  rw [Option.getD_some, magnitude_decimal, magnitude_padded, eight]
  omega

theorem toInt_written (u : Int64) :
    (if (written u).sign = [45] then -1 else 1) * (u.toInt.natAbs : Int) = u.toInt := by
  have sign_eq : (written u).sign = if u < 0 then [45] else [] := rfl
  rw [sign_eq]
  by_cases negative : u < 0
  · rw [if_pos negative, if_pos rfl]
    rw [Int64.lt_iff_toInt_lt, Int64.toInt_zero] at negative
    omega
  · rw [if_neg negative, if_neg (List.cons_ne_nil 45 []).symm]
    rw [Int64.lt_iff_toInt_lt, Int64.toInt_zero] at negative
    omega

theorem formatAmount_eq {coin : Int64} (unit : coin.toInt = 10 ^ 8) (u : Int64) :
    formatAmount coin u = (written u).text := by
  have same : coin = 100000000 := Int64.toInt.inj unit
  have unsigned : coin.toUInt64.toNat = 10 ^ 8 := by
    rw [same]
    rfl
  rw [formatAmount, UInt64.toNat_div, UInt64.toNat_mod, toNat_size, unsigned, Numeral.text, written]
  simp

/-! ### What is read -/

section

variable {P : Params} {coin : Int64} {money : Nat} (unit : coin.toInt = 10 ^ 8)
variable (limit : P.maxMoney.toInt = money) (small : money < 2 ^ 62) (covers : 10 ^ 8 ≤ money)

include unit limit in
/-- The range, in units. -/
theorem abs_le_maxMoney_iff (n : Numeral) :
    |n.value * coin.toInt| ≤ P.maxMoney.toInt ↔ n.units ≤ money := by
  have value : ((coin.toInt : Int) : ℚ) = 10 ^ 8 := by
    rw [unit]
    norm_num
  rw [value, Numeral.abs_value_mul, limit, Int.cast_natCast, Nat.cast_le]

include unit limit small covers

theorem parseAmount_ne_overflow (text : List UInt8) :
    parseAmount P coin text ≠ .error .overflow := by
  rcases refused_or_numeral unit limit small text with ⟨why, refused⟩ | ⟨n, rfl⟩
  · rw [refused]
    simp
  · have outcome := parseAmount_text unit limit small covers n
    split at outcome
    · obtain ⟨v, amount, _⟩ := outcome
      rw [amount]
      simp
    · rw [outcome]
      simp

/-- What is read is a numeral in the range. -/
theorem exists_parseAmount_iff {text : List UInt8} : (∃ v, parseAmount P coin text = .ok v) ↔
    ∃ n : Numeral, n.text = text ∧ n.units ≤ money := by
  constructor
  · rintro ⟨v, amount⟩
    rcases refused_or_numeral unit limit small text with ⟨why, refused⟩ | ⟨n, rfl⟩
    · rw [refused] at amount
      cases amount
    · refine ⟨n, rfl, ?_⟩
      by_contra above
      have outcome := parseAmount_text unit limit small covers n
      rw [if_neg above, amount] at outcome
      cases outcome
  · rintro ⟨n, rfl, bound⟩
    have outcome := parseAmount_text unit limit small covers n
    rw [if_pos bound] at outcome
    obtain ⟨v, amount, _⟩ := outcome
    exact ⟨v, amount⟩

/-- It is read for its units. -/
theorem toInt_of_parseAmount {n : Numeral} {v : Int64}
    (amount : parseAmount P coin n.text = .ok v) :
    v.toInt = (if n.sign = [45] then -1 else 1) * (n.units : Int) := by
  have outcome := parseAmount_text unit limit small covers n
  split at outcome
  · obtain ⟨v', amount', v'_eq⟩ := outcome
    rw [amount] at amount'
    cases amount'
    exact v'_eq
  · rw [amount] at outcome
    cases outcome

/-- What was written is read back. -/
theorem parseAmount_formatAmount {u : Int64} (range : u.toInt.natAbs ≤ money) :
    parseAmount P coin (formatAmount coin u) = .ok u := by
  have outcome := parseAmount_text unit limit small covers (written u)
  rw [units_written, if_pos range] at outcome
  obtain ⟨v, amount, v_eq⟩ := outcome
  rw [toInt_written, Int64.toInt_inj] at v_eq
  rw [formatAmount_eq unit, amount, v_eq]

end

end Rpc

open Rpc

/-- Reading an amount never overflows. It succeeds on a numeral whose value is within the
money range, and on nothing else, and then with exactly that value; and it reads back what
was written. -/
theorem amounts_read_exactly (P : Params) (coin : Int64) (unit : coin.toInt = 10 ^ 8)
    (covers : coin ≤ P.maxMoney) (small : P.maxMoney.toInt < 2 ^ 62) :
    (∀ text, parseAmount P coin text ≠ .error .overflow) ∧
    (∀ text, (∃ v, parseAmount P coin text = .ok v) ↔ ∃ n : Numeral, n.text = text ∧
      |n.value * coin.toInt| ≤ P.maxMoney.toInt) ∧
    (∀ (n : Numeral) v,
      parseAmount P coin n.text = .ok v → (v.toInt : ℚ) = n.value * coin.toInt) ∧
    ∀ u : Int64,
      |u.toInt| ≤ P.maxMoney.toInt → parseAmount P coin (formatAmount coin u) = .ok u := by
  rw [Int64.le_iff_toInt_le, unit] at covers
  obtain ⟨money, limit⟩ := Int.eq_ofNat_of_zero_le (le_trans (by omega) covers)
  have small : money < 2 ^ 62 := by omega
  have covers : 10 ^ 8 ≤ money := by omega
  refine ⟨parseAmount_ne_overflow unit limit small covers, fun text => ?_, fun n v amount => ?_,
    fun u range => ?_⟩
  · rw [exists_parseAmount_iff unit limit small covers]
    simp only [abs_le_maxMoney_iff unit limit]
  · rw [toInt_of_parseAmount unit limit small covers amount, unit]
    push_cast
    exact n.value_mul.symm
  · rw [Int.abs_eq_natAbs] at range
    exact parseAmount_formatAmount unit limit small covers (by omega)

theorem amounts_read_exactly_up_to_21_million :
    let P := { smallNetwork with maxMoney := 2100000000000000 }
    (∀ text, parseAmount P 100000000 text ≠ .error .overflow) ∧
    (∀ text, (∃ v, parseAmount P 100000000 text = .ok v) ↔ ∃ n : Numeral, n.text = text ∧
      |n.value * (100000000 : Int64).toInt| ≤ P.maxMoney.toInt) ∧
    (∀ (n : Numeral) v, parseAmount P 100000000 n.text = .ok v →
      (v.toInt : ℚ) = n.value * (100000000 : Int64).toInt) ∧
    ∀ u : Int64, |u.toInt| ≤ P.maxMoney.toInt →
      parseAmount P 100000000 (formatAmount 100000000 u) = .ok u :=
  amounts_read_exactly { smallNetwork with maxMoney := 2100000000000000 } 100000000 (by decide)
    (by decide) (by decide)

end QmaskCore
