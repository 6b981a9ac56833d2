import Mathlib.Algebra.Order.Ring.Int
import Mathlib.Data.List.TakeWhile

/-!
Reading words and decimal numbers off a byte string, as a C stream does.

Every reader first skips blanks and gives back what it read with the text after
it, or nothing. `word` reads up to the next blank, `number` an optional sign
and the digits after it; `signed` and `unsigned` are the numbers of a given
width. `decimal` and `decimalInt` write numbers, and what they write is read
back (`number_decimalInt`).
-/

namespace Scan

/-- `isspace` of the C locale. -/
def isSpace (b : UInt8) : Bool := b = 32 || (9 ≤ b && b ≤ 13)

def isDigit (b : UInt8) : Bool := 48 ≤ b && b ≤ 57

def skipSpace (s : List UInt8) : List UInt8 := s.dropWhile isSpace

def word (s : List UInt8) : Option (List UInt8 × List UInt8) :=
  let s := skipSpace s
  let w := s.takeWhile fun b => !isSpace b
  if w = [] then none else some (w, s.dropWhile fun b => !isSpace b)

/-- What a string of digits denotes, after a value read before. -/
def magnitude (v : Nat) (digits : List UInt8) : Nat :=
  digits.foldl (fun v b => 10 * v + (b.toNat - 48)) v

theorem digit_le {c : UInt8} (digit : isDigit c = true) : c.toNat - 48 ≤ 9 := by
  simp only [isDigit, Bool.and_eq_true, decide_eq_true_eq, UInt8.le_iff_toNat_le] at digit
  have high : c.toNat ≤ 57 := digit.2
  omega

@[simp] theorem magnitude_nil (v : Nat) : magnitude v [] = v := rfl

@[simp] theorem magnitude_cons (v : Nat) (c : UInt8) (s : List UInt8) :
    magnitude v (c :: s) = magnitude (10 * v + (c.toNat - 48)) s := by
  rw [magnitude, List.foldl_cons, magnitude]

/-- More digits make a larger number. -/
theorem le_magnitude (s : List UInt8) : ∀ v, v ≤ magnitude v s := by
  induction s with
  | nil => exact fun v => le_rfl
  | cons c s ih =>
      intro v
      rw [magnitude_cons]
      exact le_trans (by omega) (ih (10 * v + (c.toNat - 48)))

theorem magnitude_lt {s : List UInt8} : ∀ {v n : Nat}, (∀ b ∈ s, isDigit b = true) →
    v < 10 ^ n → magnitude v s < 10 ^ (n + s.length) := by
  induction s with
  | nil => exact fun _ small => small
  | cons c s ih =>
      intro v n digits small
      have one := digit_le (digits c List.mem_cons_self)
      rw [magnitude_cons, List.length_cons, Nat.add_comm s.length, ← Nat.add_assoc]
      refine ih (fun b mem => digits b (List.mem_cons_of_mem c mem)) ?_
      rw [pow_succ]
      omega

/-- An optional sign. -/
def sign : List UInt8 → Bool × List UInt8
  | [] => (false, [])
  | b :: s => if b = 45 then (true, s) else if b = 43 then (false, s) else (false, b :: s)

/-- Sign, magnitude and rest. -/
def number (s : List UInt8) : Option (Bool × Nat × List UInt8) :=
  let (negative, s) := sign (skipSpace s)
  let digits := s.takeWhile isDigit
  if digits = [] then none else some (negative, magnitude 0 digits, s.dropWhile isDigit)

/-- A number of `bits` bits in two's complement. -/
def signed (bits : Nat) (s : List UInt8) : Option (Int × List UInt8) :=
  match number s with
  | none => none
  | some (negative, v, rest) =>
      if negative then if v ≤ 2 ^ (bits - 1) then some (-v, rest) else none
      else if v < 2 ^ (bits - 1) then some (v, rest) else none

/-- A number of `bits` bits; one with a minus sign counts down from the top. -/
def unsigned (bits : Nat) (s : List UInt8) : Option (Nat × List UInt8) :=
  match number s with
  | none => none
  | some (negative, v, rest) =>
      if v < 2 ^ bits then some (if negative then (2 ^ bits - v) % 2 ^ bits else v, rest) else none

/-! ### Writing -/

def ascii (c : Char) : UInt8 := UInt8.ofNat c.toNat

/-- The bytes of an ASCII text. -/
def text (s : String) : List UInt8 := s.toList.map ascii

def decimal (n : Nat) : List UInt8 := (Nat.toDigits 10 n).map ascii

def decimalInt : Int → List UInt8
  | .ofNat n => decimal n
  | .negSucc n => 45 :: decimal (n + 1)

theorem toNat_ascii_of_isDigit {c : Char} (digit : c.isDigit = true) :
    (ascii c).toNat = c.toNat := by
  have range := Char.isDigit_iff_toNat.mp digit
  exact UInt8.toNat_ofNat_of_lt' (by
    rw [UInt8.size]
    exact Nat.lt_of_le_of_lt range.2 (by decide))

theorem isDigit_decimal {n : Nat} {b : UInt8} (mem : b ∈ decimal n) : isDigit b = true := by
  obtain ⟨c, char, rfl⟩ := List.mem_map.mp mem
  have digit : c.isDigit = true := Nat.isDigit_of_mem_toDigits (by omega) le_rfl char
  have range := Char.isDigit_iff_toNat.mp digit
  have same := toNat_ascii_of_isDigit digit
  simp only [isDigit, Bool.and_eq_true, decide_eq_true_eq, UInt8.le_iff_toNat_le, same]
  exact range

theorem decimal_ne_nil (n : Nat) : decimal n ≠ [] := by
  rw [decimal, Ne, List.map_eq_nil_iff]
  exact Nat.toDigits_ne_nil

theorem length_decimal_le_iff {k n : Nat} (some : 0 < k) : (decimal n).length ≤ k ↔ n < 10 ^ k := by
  rw [decimal, List.length_map]
  exact Nat.length_toDigits_le_iff (by decide) some

theorem magnitude_decimal (n : Nat) : magnitude 0 (decimal n) = n := by
  have same : ∀ (l : List Char) (v : Nat), (∀ c ∈ l, c.isDigit = true) →
      magnitude v (l.map ascii) = Nat.ofDigitChars 10 l v := by
    intro l
    induction l with
    | nil => exact fun v _ => (Nat.ofDigitChars_nil).symm
    | cons c l ih =>
        intro v digits
        rw [List.map_cons, Nat.ofDigitChars_cons, ← ih _ fun c' mem =>
          digits c' (List.mem_cons_of_mem _ mem)]
        rw [magnitude, List.foldl_cons, toNat_ascii_of_isDigit (digits c List.mem_cons_self)]
        rfl
  rw [decimal, same _ _ fun c mem => Nat.isDigit_of_mem_toDigits (by decide) (by decide) mem]
  exact Nat.ofDigitChars_ten_toDigits

/-! ### Reading back -/

theorem not_isSpace_of_isDigit {b : UInt8} (digit : isDigit b = true) : isSpace b = false := by
  simp only [isDigit, Bool.and_eq_true, decide_eq_true_eq, UInt8.le_iff_toNat_le] at digit
  have low : (48 : UInt8).toNat ≤ b.toNat := digit.1
  have blank : b ≠ 32 := by
    rintro rfl
    exact absurd low (by decide)
  have control : ¬ b ≤ 13 := by
    rw [UInt8.le_iff_toNat_le]
    exact fun le => absurd (low.trans le) (by decide)
  simp [isSpace, blank, control]

theorem not_sign_of_isDigit {b : UInt8} (digit : isDigit b = true) : b ≠ 45 ∧ b ≠ 43 := by
  constructor
  · rintro rfl
    cases digit
  · rintro rfl
    cases digit

@[simp] theorem skipSpace_blank (s : List UInt8) : skipSpace (32 :: s) = skipSpace s := rfl

theorem skipSpace_of_head {s : List UInt8} (head : ∀ b ∈ s.head?, isSpace b = false) :
    skipSpace s = s := by
  cases s with
  | nil => rfl
  | cons b s =>
      rw [skipSpace, List.dropWhile_cons_of_neg]
      rw [head b rfl]
      exact Bool.false_ne_true

theorem mem_of_head?_append {w rest : List UInt8} (ne : w ≠ []) {b : UInt8}
    (mem : b ∈ (w ++ rest).head?) : b ∈ w := by
  cases w with
  | nil => exact absurd rfl ne
  | cons c w =>
      cases mem
      exact List.mem_cons_self

/-- A stretch whose bytes pass the test, before one that does not. -/
theorem takeWhile_append_of_head {p : UInt8 → Bool} {w rest : List UInt8}
    (pass : ∀ b ∈ w, p b = true) (stop : ∀ b ∈ rest.head?, p b = false) :
    (w ++ rest).takeWhile p = w ∧ (w ++ rest).dropWhile p = rest := by
  rw [List.takeWhile_append_of_pos pass, List.dropWhile_append_of_pos pass]
  cases rest with
  | nil => simp
  | cons b rest =>
      have no : ¬ p b = true := by
        rw [stop b rfl]
        exact Bool.false_ne_true
      rw [List.takeWhile_cons_of_neg no, List.dropWhile_cons_of_neg no, List.append_nil]
      exact ⟨rfl, rfl⟩

@[simp] theorem word_blank (s : List UInt8) : word (32 :: s) = word s := rfl

@[simp] theorem number_blank (s : List UInt8) : number (32 :: s) = number s := rfl

@[simp] theorem signed_blank (bits : Nat) (s : List UInt8) :
    signed bits (32 :: s) = signed bits s := rfl

@[simp] theorem unsigned_blank (bits : Nat) (s : List UInt8) :
    unsigned bits (32 :: s) = unsigned bits s := rfl

theorem word_append {w rest : List UInt8} (ne : w ≠ []) (solid : ∀ b ∈ w, isSpace b = false)
    (stop : ∀ b ∈ rest.head?, isSpace b = true) : word (w ++ rest) = some (w, rest) := by
  have head : ∀ b ∈ (w ++ rest).head?, isSpace b = false := by
    intro b mem
    exact solid b (mem_of_head?_append ne mem)
  obtain ⟨taken, left⟩ := @takeWhile_append_of_head (fun b => !isSpace b) w rest
    (fun b mem => by simp [solid b mem]) fun b mem => by simp [stop b mem]
  simp only [word, skipSpace_of_head head, taken, left, if_neg ne]

theorem number_digits (negative : Bool) {digits rest : List UInt8} (ne : digits ≠ [])
    (all : ∀ b ∈ digits, isDigit b = true) (stop : ∀ b ∈ rest.head?, isDigit b = false) :
    number ((if negative then [45] else []) ++ (digits ++ rest)) =
      some (negative, magnitude 0 digits, rest) := by
  obtain ⟨taken, left⟩ := takeWhile_append_of_head all stop
  have signless : sign (digits ++ rest) = (false, digits ++ rest) := by
    cases digits with
    | nil => exact absurd rfl ne
    | cons b digits =>
        have plain := not_sign_of_isDigit (all b List.mem_cons_self)
        rw [List.cons_append, sign, if_neg plain.1, if_neg plain.2]
  have head : ∀ b ∈ (digits ++ rest).head?, isSpace b = false := by
    intro b mem
    exact not_isSpace_of_isDigit (all b (mem_of_head?_append ne mem))
  cases negative with
  | true =>
      have skip : skipSpace (45 :: (digits ++ rest)) = 45 :: (digits ++ rest) := rfl
      simp only [number, if_true, List.singleton_append, skip, sign, taken, left, if_neg ne]
  | false =>
      simp only [number, Bool.false_eq_true, if_false, List.nil_append, skipSpace_of_head head,
        signless, taken, left, if_neg ne]

/-- A number that was written is read back. -/
theorem number_decimalInt (z : Int) {rest : List UInt8}
    (stop : ∀ b ∈ rest.head?, isDigit b = false) :
    number (decimalInt z ++ rest) = some (decide (z < 0), z.natAbs, rest) := by
  cases z with
  | ofNat n =>
      have read := number_digits false (decimal_ne_nil n) (fun _ => isDigit_decimal)
        stop
      rw [magnitude_decimal] at read
      have positive : ¬ (n : Int) < 0 := not_lt.mpr (Int.natCast_nonneg n)
      simpa [decimalInt, positive] using read
  | negSucc n =>
      have read := number_digits true (decimal_ne_nil (n + 1))
        (fun _ => isDigit_decimal) stop
      rw [magnitude_decimal] at read
      simpa [decimalInt, Int.negSucc_lt_zero] using read

theorem signed_decimalInt {bits : Nat} {z v : Int} {rest rest' : List UInt8}
    (stop : ∀ b ∈ rest.head?, isDigit b = false)
    (read : signed bits (decimalInt z ++ rest) = some (v, rest')) : v = z ∧ rest' = rest := by
  rw [signed, number_decimalInt z stop] at read
  dsimp only at read
  split at read
  · rename_i negative
    split at read
    · cases read
      have below := of_decide_eq_true negative
      exact ⟨by omega, rfl⟩
    · cases read
  · rename_i positive
    split at read
    · cases read
      have above := of_decide_eq_false (Bool.eq_false_iff.mpr positive)
      exact ⟨by omega, rfl⟩
    · cases read

theorem unsigned_decimal {bits n v : Nat} {rest rest' : List UInt8}
    (stop : ∀ b ∈ rest.head?, isDigit b = false)
    (read : unsigned bits (decimal n ++ rest) = some (v, rest')) : v = n ∧ rest' = rest := by
  have digits : number (decimal n ++ rest) = some (false, n, rest) := number_decimalInt n stop
  rw [unsigned, digits] at read
  dsimp only at read
  split at read
  · cases read
    exact ⟨rfl, rfl⟩
  · cases read

end Scan
