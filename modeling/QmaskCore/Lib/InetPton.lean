import QmaskCore.Lib.Hex
import QmaskCore.Lib.Scan

/-!
`inet_pton`: which texts are addresses, and of what number.

A dotted quad has four decimal octets without leading zeros (`pton4`). An IPv6
text has hexadecimal groups of up to four digits, one run of zeros may be
written `::`, and the last two groups may be a dotted quad (`pton6`). Both read
up to the first NUL (`cStr`). `IsInternal` tells the addresses that mean
something inside one network only.
-/

namespace Inet

open Scan

/-- A C string ends at its first NUL. -/
def cStr (s : List UInt8) : List UInt8 := s.takeWhile fun b => b ≠ 0

/-- The octets read so far, and the one being read if a digit of it was seen. -/
def pton4From : List UInt8 → List Nat → Option Nat → Option (List Nat)
  | [], octets, current =>
      match current with
      | some v => if octets.length + 1 < 4 then none else some (octets ++ [v])
      | none => none
  | ch :: src, octets, current =>
      if isDigit ch then
        let digit := ch.toNat - 48
        match current with
        | none => if 4 < octets.length + 1 then none else pton4From src octets (some digit)
        | some v =>
            if v = 0 then none
            else if 255 < 10 * v + digit then none
            else pton4From src octets (some (10 * v + digit))
      else if ch = 46 then
        match current with
        | none => none
        | some v => if octets.length + 1 = 4 then none else pton4From src (octets ++ [v]) none
      else none

/-- `inet_pton(AF_INET, …)`. -/
def pton4 (s : List UInt8) : Option (List Nat) := pton4From (cStr s) [] none

/-- `hex_digit_value`. -/
def hexDigit (ch : UInt8) : Option Nat :=
  if isDigit ch then some (ch.toNat - 48)
  else if 97 ≤ ch ∧ ch ≤ 102 then some (ch.toNat - 97 + 10)
  else if 65 ≤ ch ∧ ch ≤ 70 then some (ch.toNat - 65 + 10)
  else none

/-- How far an IPv6 text was read. -/
structure Groups where
  bytes : List Nat
  /-- Where `::` stood. -/
  colon : Option Nat
  /-- The text from the current group on. -/
  token : List UInt8
  digits : Nat
  value : Nat

namespace Groups

/-- A group is complete. -/
def push (g : Groups) : Option Groups :=
  if 16 < g.bytes.length + 2 then none
  else some { g with bytes := g.bytes ++ [g.value / 256, g.value % 256], digits := 0, value := 0 }

/-- The end of the text: `::` is filled up with zeros. -/
def finish (g : Groups) : Option (List Nat) :=
  match if 0 < g.digits then g.push else some g with
  | none => none
  | some g =>
      match g.colon with
      | none => if g.bytes.length = 16 then some g.bytes else none
      | some at' =>
          if g.bytes.length = 16 then none
          else some (g.bytes.take at' ++ List.replicate (16 - g.bytes.length) 0 ++ g.bytes.drop at')

end Groups

def pton6From : List UInt8 → Groups → Option (List Nat)
  | [], g => g.finish
  | ch :: src, g =>
      match hexDigit ch with
      | some digit =>
          if g.digits = 4 then none
          else pton6From src { g with digits := g.digits + 1, value := 16 * g.value + digit }
      | none =>
          if ch = 58 then
            let g := { g with token := src }
            if g.digits = 0 then
              if g.colon.isSome then none
              else pton6From src { g with colon := some g.bytes.length }
            else if src = [] then none
            else
              match g.push with
              | none => none
              | some g => pton6From src g
          else if ch = 46 ∧ g.bytes.length + 4 ≤ 16 then
            match pton4From g.token [] none with
            | none => none
            | some octets => { g with bytes := g.bytes ++ octets, digits := 0 : Groups }.finish
          else none

/-- `inet_pton(AF_INET6, …)`. -/
def pton6 (s : List UInt8) : Option (List Nat) :=
  match cStr s with
  | [] => none
  | ch :: src =>
      if ch = 58 then
        if src.head? = some 58 then pton6From src ⟨[], none, src, 0, 0⟩ else none
      else pton6From (ch :: src) ⟨[], none, ch :: src, 0, 0⟩

/-! ### Addresses that do not leave a network -/

/-- Loopback, unspecified, RFC 1918, RFC 6598, link-local and multicast. -/
def isInternal4 : List Nat → Bool
  | [a, b, c, d] =>
      a = 127 || (a = 0 && b = 0 && c = 0 && d = 0) || a = 10 || (a = 172 && 16 ≤ b && b ≤ 31) ||
        (a = 192 && b = 168) || (a = 100 && 64 ≤ b && b ≤ 127) || (a = 169 && b = 254) ||
        (224 ≤ a && a ≤ 239)
  | _ => false

/-- Loopback, unspecified, unique-local, link-local and multicast, and the IPv4
addresses among them. -/
def isInternal6 (bytes : List Nat) : Bool :=
  bytes = List.replicate 16 0 || bytes = List.replicate 15 0 ++ [1] ||
    (match bytes with
      | a :: b :: _ => a / 2 = 126 || (a = 254 && b / 64 = 2) || a = 255
      | _ => false) ||
    (bytes.take 12 = List.replicate 10 0 ++ [255, 255] && isInternal4 (bytes.drop 12))

/-- The text denotes, in either family, an internal address. -/
def IsInternal (s : List UInt8) : Prop :=
  (∃ octets, pton4 s = some octets ∧ isInternal4 octets = true) ∨
    ∃ bytes, pton6 s = some bytes ∧ isInternal6 bytes = true

/-! ### Dotted quads -/

/-- A dotted quad from the current octet on: its digits, then the end after the
fourth or a dot before it. -/
theorem pton4From_some : ∀ {src : List UInt8} {octets out : List Nat} {v : Nat},
    octets.length ≤ 3 → v ≤ 255 → pton4From src octets (some v) = some out →
    ∃ digits rest, src = digits ++ rest ∧ (∀ b ∈ digits, isDigit b = true) ∧
      (∀ b ∈ rest.head?, isDigit b = false) ∧ magnitude v digits ≤ 255 ∧
      ((rest = [] ∧ octets.length = 3 ∧ out = octets ++ [magnitude v digits]) ∨
        ∃ src', rest = 46 :: src' ∧ octets.length < 3 ∧
          pton4From src' (octets ++ [magnitude v digits]) none = some out) := by
  intro src
  induction src with
  | nil =>
      intro octets out v few fits read
      rw [pton4From] at read
      split at read
      · cases read
      · cases read
        exact ⟨[], [], rfl, by simp, by simp, fits, .inl ⟨rfl, by omega, rfl⟩⟩
  | cons ch src ih =>
      intro octets out v few fits read
      rw [pton4From] at read
      split at read
      · rename_i digit
        dsimp only at read
        split at read
        · cases read
        split at read
        · cases read
        rename_i fits'
        obtain ⟨digits, rest, rfl, all, stop, small, done⟩ := ih few (not_lt.mp fits') read
        refine ⟨ch :: digits, rest, rfl, ?_, stop, small, done⟩
        intro b mem
        rcases List.mem_cons.mp mem with rfl | mem
        · exact digit
        · exact all b mem
      split at read
      · rename_i noDigit dot
        subst dot
        split at read
        · cases read
        · refine ⟨[], 46 :: src, rfl, by simp, ?_, fits, .inr ⟨src, rfl, by omega, read⟩⟩
          intro b mem
          cases mem
          rfl
      · cases read

/-- An octet from its first digit on. -/
theorem pton4From_none {src : List UInt8} {octets out : List Nat} (few : octets.length ≤ 3)
    (read : pton4From src octets none = some out) :
    ∃ digits rest, src = digits ++ rest ∧ digits ≠ [] ∧ (∀ b ∈ digits, isDigit b = true) ∧
      (∀ b ∈ rest.head?, isDigit b = false) ∧ magnitude 0 digits ≤ 255 ∧
      ((rest = [] ∧ octets.length = 3 ∧ out = octets ++ [magnitude 0 digits]) ∨
        ∃ src', rest = 46 :: src' ∧ octets.length < 3 ∧
          pton4From src' (octets ++ [magnitude 0 digits]) none = some out) := by
  cases src with
  | nil => cases read
  | cons ch src =>
      rw [pton4From] at read
      split at read
      · rename_i digit
        rw [if_neg (by omega)] at read
        have byte := ch.toNat_lt
        have range : isDigit ch = true := digit
        rw [isDigit, Bool.and_eq_true, decide_eq_true_eq, decide_eq_true_eq, UInt8.le_iff_toNat_le,
          UInt8.le_iff_toNat_le] at range
        have nine : ch.toNat ≤ 57 := range.2
        obtain ⟨digits, rest, rfl, all, stop, small, done⟩ := pton4From_some few (by omega) read
        have first : magnitude 0 (ch :: digits) = magnitude (ch.toNat - 48) digits := by
          rw [magnitude, List.foldl_cons, Nat.mul_zero, Nat.zero_add]
          rfl
        rw [← first] at small done
        refine ⟨ch :: digits, rest, rfl, List.cons_ne_nil _ _, ?_, stop, small, done⟩
        intro b mem
        rcases List.mem_cons.mp mem with rfl | mem
        · exact digit
        · exact all b mem
      split at read
      · cases read
      · cases read

/-! ### Reading back -/

theorem pton4From_digits {rest : List UInt8} {octets : List Nat} : ∀ {ds : List UInt8} {v : Nat},
    (∀ b ∈ ds, isDigit b = true) → v ≠ 0 ∨ ds = [] → magnitude v ds ≤ 255 →
    pton4From (ds ++ rest) octets (some v) = pton4From rest octets (some (magnitude v ds)) := by
  intro ds
  induction ds with
  | nil => exact fun _ _ _ => rfl
  | cons c ds ih =>
      intro v digits lead fits
      have positive : v ≠ 0 := lead.resolve_right (List.cons_ne_nil _ _)
      rw [magnitude_cons] at fits
      have small := le_magnitude ds (10 * v + (c.toNat - 48))
      rw [List.cons_append, pton4From, if_pos (digits c List.mem_cons_self)]
      dsimp only
      rw [if_neg positive, if_neg (by omega), magnitude_cons]
      exact ih (fun b mem => digits b (List.mem_cons_of_mem c mem)) (.inl (by omega)) fits

/-- A number is written without leading zeros. -/
theorem decimal_eq_cons (n : Nat) : ∃ c ds, decimal n = c :: ds ∧ (c.toNat - 48 ≠ 0 ∨ ds = []) := by
  obtain ⟨c, ds, whole⟩ := List.exists_cons_of_ne_nil (decimal_ne_nil n)
  refine ⟨c, ds, whole, ?_⟩
  by_contra lead
  rw [not_or, not_not] at lead
  have value := magnitude_decimal n
  rw [whole, magnitude_cons, lead.1] at value
  have digits : ∀ b ∈ ds, isDigit b = true := fun b mem =>
    isDigit_decimal (n := n) (by rw [whole]; exact List.mem_cons_of_mem c mem)
  have below := @magnitude_lt ds 0 0 digits (by omega)
  rw [Nat.zero_add] at below
  have long : (decimal n).length ≤ ds.length := by
    rw [length_decimal_le_iff (List.length_pos_iff.mpr lead.2)]
    rwa [← value]
  rw [whole, List.length_cons] at long
  omega

theorem pton4From_decimal {n : Nat} {octets : List Nat} {rest : List UInt8} (fits : n ≤ 255)
    (few : octets.length ≤ 3) :
    pton4From (decimal n ++ rest) octets none = pton4From rest octets (some n) := by
  obtain ⟨c, ds, whole, lead⟩ := decimal_eq_cons n
  have digits : ∀ b ∈ c :: ds, isDigit b = true := by
    rw [← whole]
    exact fun _ => isDigit_decimal
  have value := magnitude_decimal n
  rw [whole, magnitude_cons] at value
  rw [whole, List.cons_append, pton4From, if_pos (digits c List.mem_cons_self)]
  dsimp only
  rw [if_neg (by omega)]
  have read := @pton4From_digits rest octets ds (10 * 0 + (c.toNat - 48))
    (fun b mem => digits b (List.mem_cons_of_mem c mem)) (by simpa using lead) (by omega)
  rw [value, Nat.mul_zero, Nat.zero_add] at read
  exact read

theorem pton4From_point {v : Nat} {octets : List Nat} {rest : List UInt8}
    (few : octets.length < 3) : pton4From (46 :: rest) octets (some v) =
      pton4From rest (octets ++ [v]) none := by
  rw [pton4From, if_neg (by decide), if_pos rfl]
  exact if_neg (by omega)

theorem cStr_eq_self {s : List UInt8} (solid : ∀ b ∈ s, b ≠ 0) : cStr s = s :=
  List.takeWhile_eq_self_iff.mpr fun b mem => decide_eq_true (solid b mem)

/-- Four numbers with points between them are read. -/
theorem pton4_decimal {a b c d : Nat} (fits : a ≤ 255 ∧ b ≤ 255 ∧ c ≤ 255 ∧ d ≤ 255) :
    pton4 (decimal a ++ 46 :: (decimal b ++ 46 :: (decimal c ++ 46 :: decimal d))) =
      some [a, b, c, d] := by
  have digit {n : Nat} {x : UInt8} (mem : x ∈ decimal n) : x ≠ 0 := by
    rintro rfl
    exact absurd (isDigit_decimal mem) (by decide)
  have solid : ∀ x ∈ decimal a ++ 46 :: (decimal b ++ 46 :: (decimal c ++ 46 :: decimal d)),
      x ≠ 0 := by
    intro x mem
    simp only [List.mem_append, List.mem_cons] at mem
    rcases mem with mem | rfl | mem | rfl | mem | rfl | mem
    · exact digit mem
    · decide
    · exact digit mem
    · decide
    · exact digit mem
    · decide
    · exact digit mem
  rw [pton4, cStr_eq_self solid, pton4From_decimal fits.1 (by simp), pton4From_point (by simp),
    pton4From_decimal fits.2.1 (by simp), pton4From_point (by simp),
    pton4From_decimal fits.2.2.1 (by simp), pton4From_point (by simp),
    ← List.append_nil (decimal d), pton4From_decimal fits.2.2.2 (by simp)]
  rfl

/-- Anything but digits and points is refused. -/
theorem pton4From_eq_none {other : UInt8} (noDigit : isDigit other = false) (noPoint : other ≠ 46) :
    ∀ {s : List UInt8} {octets : List Nat} {current : Option Nat}, other ∈ s →
    pton4From s octets current = none := by
  intro s
  induction s with
  | nil => exact fun mem => absurd mem List.not_mem_nil
  | cons c s ih =>
      intro octets current mem
      rcases List.mem_cons.mp mem with rfl | mem
      · cases current <;> simp [pton4From, noDigit, noPoint]
      · cases current <;> simp [pton4From, ih mem]

/-! ### Groups written out -/

/-- Groups of two bytes, with all their digits. -/
def groups : List UInt8 → List UInt8
  | a :: b :: c :: l => Hex.pair a ++ Hex.pair b ++ 58 :: groups (c :: l)
  | l => l.flatMap Hex.pair

theorem hexDigit_digit (n : Nat) : hexDigit (Hex.digit n) = some (n % 16) := by
  have all : ∀ d : Fin 16, hexDigit (Hex.digit d.val) = some d.val := by decide
  have reduced : Hex.digit n = Hex.digit (n % 16) := by
    rw [Hex.digit, Hex.digit, Nat.mod_mod]
  rw [reduced]
  exact all ⟨n % 16, Nat.mod_lt _ (by omega)⟩

/-- The digits of one group. -/
theorem pton6From_pairs (a b : UInt8) (rest token : List UInt8) (bytes : List Nat) :
    pton6From (Hex.pair a ++ Hex.pair b ++ rest) ⟨bytes, none, token, 0, 0⟩ =
      pton6From rest ⟨bytes, none, token, 4, 256 * a.toNat + b.toNat⟩ := by
  have small := a.toNat_lt
  have small' := b.toNat_lt
  have value : 16 * (16 * (16 * (a.toNat / 16 % 16) + a.toNat % 16) + b.toNat / 16 % 16) +
      b.toNat % 16 = 256 * a.toNat + b.toNat := by omega
  rw [Hex.pair_eq, Hex.pair_eq]
  simp only [List.cons_append, List.nil_append, pton6From, hexDigit_digit]
  simp [value]

theorem push_group {a b : UInt8} {token : List UInt8} {bytes : List Nat}
    (room : bytes.length + 2 ≤ 16) :
    (⟨bytes, none, token, 4, 256 * a.toNat + b.toNat⟩ : Groups).push =
      some ⟨bytes ++ [a.toNat, b.toNat], none, token, 0, 0⟩ := by
  have small := b.toNat_lt
  have high : (256 * a.toNat + b.toNat) / 256 = a.toNat := by omega
  have low : (256 * a.toNat + b.toNat) % 256 = b.toNat := by omega
  rw [Groups.push, if_neg (by simpa using room), high, low]

theorem groups_ne_nil {l : List UInt8} (some : l ≠ []) : groups l ≠ [] := by
  obtain ⟨a, l, rfl⟩ := List.exists_cons_of_ne_nil some
  match l with
  | [] => simp [groups, Hex.pair]
  | [_] => simp [groups, Hex.pair]
  | _ :: _ :: _ => simp [groups, Hex.pair]

/-- What was written out is read. -/
theorem pton6From_groups {l : List UInt8} : ∀ {bytes : List Nat} {token : List UInt8},
    l.length % 2 = 0 → l ≠ [] → bytes.length + l.length = 16 →
    pton6From (groups l) ⟨bytes, none, token, 0, 0⟩ = some (bytes ++ l.map (·.toNat)) := by
  induction l using groups.induct with
  | case1 a b c l ih =>
      intro bytes token even _ sixteen
      simp only [List.length_cons] at even sixteen
      have more : groups (c :: l) ≠ [] := groups_ne_nil (List.cons_ne_nil c l)
      have rest := @ih (bytes ++ [a.toNat, b.toNat]) (groups (c :: l))
        (by rw [List.length_cons]; omega) (List.cons_ne_nil c l) (by simp; omega)
      have colon : hexDigit 58 = none := rfl
      rw [groups, pton6From_pairs, pton6From, colon]
      dsimp only
      rw [if_pos rfl, if_neg (by omega), if_neg more, push_group (by omega)]
      dsimp only
      rw [rest]
      simp
  | case2 l short =>
      intro bytes token even some sixteen
      match l, short with
      | [], _ => exact absurd rfl some
      | [_], _ => cases even
      | [a, b], _ =>
          have full : bytes.length + 2 = 16 := sixteen
          have last : groups [a, b] = Hex.pair a ++ Hex.pair b ++ [] := rfl
          rw [last, pton6From_pairs, pton6From, Groups.finish, if_pos (Nat.succ_pos 3),
            push_group (by omega)]
          simp [full]
      | a :: b :: c :: l, short => exact absurd rfl (short a b c l)

theorem mem_groups {l : List UInt8} {x : UInt8} (mem : x ∈ groups l) :
    (hexDigit x).isSome ∨ x = 58 := by
  have pair {b : UInt8} (mem : x ∈ Hex.pair b) : (hexDigit x).isSome := by
    rw [Hex.pair_eq, List.mem_cons, List.mem_singleton] at mem
    rcases mem with rfl | rfl
    · rw [hexDigit_digit, Option.isSome_some]
    · rw [hexDigit_digit, Option.isSome_some]
  induction l using groups.induct with
  | case1 a b c l ih =>
      rw [groups] at mem
      simp only [List.mem_append, List.mem_cons] at mem
      rcases mem with (first | second) | colon | rest
      · exact .inl (pair first)
      · exact .inl (pair second)
      · exact .inr colon
      · exact ih rest
  | case2 l short =>
      rw [groups.eq_2 l short] at mem
      obtain ⟨b, _, mem⟩ := List.mem_flatMap.mp mem
      exact .inl (pair mem)

theorem cStr_groups (l : List UInt8) : cStr (groups l) = groups l := by
  refine cStr_eq_self ?_
  rintro x mem rfl
  rcases mem_groups mem with digit | colon
  · cases digit
  · cases colon

theorem exists_cons₃ {l : List UInt8} (long : 3 ≤ l.length) :
    ∃ a b c l', l = a :: b :: c :: l' := by
  match l, long with
  | a :: b :: c :: l', _ => exact ⟨a, b, c, l', rfl⟩

/-- An address written out in full is read. -/
theorem pton6_groups {l : List UInt8} (full : l.length = 16) :
    pton6 (groups l) = some (l.map (·.toNat)) := by
  obtain ⟨a, b, c, l', rfl⟩ := exists_cons₃ (by omega : 3 ≤ l.length)
  have read := fun token => @pton6From_groups (a :: b :: c :: l') [] token (by rw [full])
    (List.cons_ne_nil _ _) (by rw [full]; rfl)
  have first : Hex.digit (a.toNat / 16) ≠ 58 := by
    intro colon
    have digit := hexDigit_digit (a.toNat / 16)
    rw [colon] at digit
    cases digit
  rw [pton6, cStr_groups]
  rw [groups, Hex.pair_eq] at read ⊢
  simp only [List.cons_append, if_neg first]
  exact read _

/-- And it is no dotted quad. -/
theorem pton4_groups {l : List UInt8} (long : 3 ≤ l.length) : pton4 (groups l) = none := by
  obtain ⟨a, b, c, l', rfl⟩ := exists_cons₃ long
  rw [pton4, cStr_groups]
  refine @pton4From_eq_none 58 rfl (by decide) _ _ _ ?_
  rw [groups]
  exact List.mem_append_right _ List.mem_cons_self

end Inet
