import QmaskCore.Lib.InetPton

/-!
Which address texts `ConnManager` passes on.

The filter works on the text. On every text that is a dotted quad it sees the
octets that `inet_pton` reads (`parseIPv4_of_pton4`), and lets no internal
address through. Of IPv6 it knows a handful of spellings.
-/

namespace QmaskCore

open Scan Inet

/-- `%d`: the value, taken modulo the size of an `int` after it was cut to that
of a `long`. -/
def scanInt (s : List UInt8) : Option (Int × List UInt8) :=
  match number s with
  | none => none
  | some (negative, v, rest) =>
      let long : Int := if negative then max (-v) (-2 ^ 63) else min v (2 ^ 63 - 1)
      some (long.bmod (2 ^ 32), rest)

/-- The octets of `%d.%d.%d.%d%c`: so many numbers with a dot between each two, and
nothing after the last. -/
def scanOctets : Nat → List UInt8 → Option (List Int)
  | 0, _ => none
  | n + 1, s =>
      match scanInt s with
      | none => none
      | some (v, rest) =>
          if n = 0 then if rest = [] then some [v] else none
          else if rest.head? = some 46 then (scanOctets n rest.tail).map (v :: ·)
          else none

def parseIPv4 (ip : List UInt8) : Option (List Nat) :=
  match scanOctets 4 (cStr ip) with
  | none => none
  | some o => if o.all fun v => decide (0 ≤ v ∧ v ≤ 255) then some (o.map Int.toNat) else none

def isPrivateAddress (ip : List UInt8) : Bool :=
  match parseIPv4 ip with
  | some o =>
      let o (i : Nat) := o.getD i 0
      o 0 = 10 || (o 0 = 192 && o 1 = 168) || (o 0 = 172 && 16 ≤ o 1 && o 1 ≤ 31) ||
        (o 0 = 100 && 64 ≤ o 1 && o 1 ≤ 127) || (o 0 = 169 && o 1 = 254)
  | none =>
      [text "fc", text "fd", text "FC", text "FD"].contains (ip.take 2) ||
        ip.take 4 = text "fe80" || ip.take 4 = text "FE80"

def isUsableAddress (ip : List UInt8) : Bool :=
  if ip = [] then false
  else if ip = text "::" ∨ ip = text "::1" then false
  else
    match parseIPv4 ip with
    | some o =>
        let o (i : Nat) := o.getD i 0
        !(o 0 = 0) && !(o 0 = 127)
    | none => true

def isRelayableAddress (ip : List UInt8) : Bool :=
  if !isUsableAddress ip then false
  else if isPrivateAddress ip then false
  else
    match parseIPv4 ip with
    | some o =>
        let o (i : Nat) := o.getD i 0
        !(o 0 = 198 && (o 1 = 18 || o 1 = 19)) && !(o 0 = 192 && o 1 = 0 && o 2 = 2) &&
          !(o 0 = 198 && o 1 = 51 && o 2 = 100) && !(o 0 = 203 && o 1 = 0 && o 2 = 113) &&
          !(224 ≤ o 0)
    | none => true

/-! ### Dotted quads -/

theorem scanInt_octet {digits rest : List UInt8} (ne : digits ≠ [])
    (all : ∀ b ∈ digits, isDigit b = true) (stop : ∀ b ∈ rest.head?, isDigit b = false)
    (small : magnitude 0 digits ≤ 255) :
    scanInt (digits ++ rest) = some ((magnitude 0 digits : Int), rest) := by
  have read := number_digits false ne all stop
  rw [if_neg Bool.false_ne_true, List.nil_append] at read
  rw [scanInt, read]
  dsimp only
  rw [if_neg Bool.false_ne_true, min_eq_left (by omega), Int.bmod_eq_of_le (by omega) (by omega)]

/-- What `inet_pton` reads as a dotted quad `sscanf` reads too. -/
theorem scanOctets_of_pton4From : ∀ {n : Nat} {src : List UInt8} {octets out : List Nat},
    octets.length + (n + 1) = 4 → pton4From src octets none = some out →
    ∃ more : List Nat, out = octets ++ more ∧ more.length = n + 1 ∧ (∀ v ∈ more, v ≤ 255) ∧
      scanOctets (n + 1) src = some (more.map Int.ofNat) := by
  intro n
  induction n with
  | zero =>
      intro src octets out four read
      obtain ⟨digits, rest, rfl, ne, all, stop, small, done⟩ := pton4From_none (by omega) read
      rcases done with ⟨rfl, -, rfl⟩ | ⟨-, -, three, -⟩
      · refine ⟨[magnitude 0 digits], rfl, rfl, by simpa using small, ?_⟩
        rw [scanOctets, scanInt_octet ne all stop small]
        rfl
      · omega
  | succ n ih =>
      intro src octets out four read
      obtain ⟨digits, rest, rfl, ne, all, stop, small, done⟩ := pton4From_none (by omega) read
      rcases done with ⟨-, three, -⟩ | ⟨src', rfl, -, onward⟩
      · omega
      · have next : (octets ++ [magnitude 0 digits]).length + (n + 1) = 4 := by
          rw [List.length_append, List.length_singleton]
          omega
        obtain ⟨more, rfl, length, small', scanned⟩ := ih next onward
        refine ⟨magnitude 0 digits :: more, List.append_assoc _ _ _, by rw [List.length_cons, length],
          ?_, ?_⟩
        · intro v mem
          rcases List.mem_cons.mp mem with rfl | mem
          · exact small
          · exact small' v mem
        · rw [scanOctets, scanInt_octet ne all stop small]
          dsimp only
          rw [if_neg (Nat.succ_ne_zero n), List.head?_cons, if_pos rfl, List.tail_cons, scanned]
          rfl

theorem parseIPv4_of_pton4 {ip : List UInt8} {out : List Nat} (read : pton4 ip = some out) :
    out.length = 4 ∧ parseIPv4 ip = some out := by
  obtain ⟨more, same, length, small, scanned⟩ := scanOctets_of_pton4From (n := 3) rfl read
  rw [List.nil_append] at same
  subst same
  refine ⟨length, ?_⟩
  rw [parseIPv4, scanned]
  dsimp only
  rw [if_pos]
  · rw [List.map_map]
    exact congrArg some (List.map_id _)
  · simpa using small

/-- No dotted quad of an internal address is passed on. -/
theorem not_relayable_of_internal4 {ip : List UInt8} {octets : List Nat}
    (read : pton4 ip = some octets) (internal : isInternal4 octets = true) :
    isRelayableAddress ip = false := by
  obtain ⟨length, parsed⟩ := parseIPv4_of_pton4 read
  obtain ⟨a, b, c, d, rfl⟩ : ∃ a b c d, octets = [a, b, c, d] := by
    match octets, length with
    | [a, b, c, d], _ => exact ⟨a, b, c, d, rfl⟩
  by_contra relayed
  rw [Bool.not_eq_false] at relayed
  have usable : isUsableAddress ip = true := by
    by_contra no
    simp [isRelayableAddress, no] at relayed
  have shared : isPrivateAddress ip = false := by
    by_contra yes
    simp [isRelayableAddress, yes] at relayed
  have low : a < 224 := by
    simp [isRelayableAddress, usable, shared, parsed] at relayed
    exact relayed.2
  have loopback : a ≠ 0 ∧ a ≠ 127 := by
    simp [isUsableAddress, parsed] at usable
    exact usable.2.2
  simp only [isPrivateAddress, parsed, List.getD_cons_zero, List.getD_cons_succ] at shared
  simp only [isInternal4] at internal
  grind

/-! ### Spellings the filter knows -/

/-- `::`, `::1`, and what begins with `fc`, `fd` or `fe80` in either case. -/
def knownSpelling (ip : List UInt8) : Bool :=
  ip = text "::" || ip = text "::1" ||
    [text "fc", text "fd", text "FC", text "FD"].contains (ip.take 2) ||
    ip.take 4 = text "fe80" || ip.take 4 = text "FE80"

theorem scanInt_of_head {b : UInt8} {s : List UInt8} (space : isSpace b = false)
    (minus : b ≠ 45) (plus : b ≠ 43) (digit : isDigit b = false) : scanInt (b :: s) = none := by
  have skip : skipSpace (b :: s) = b :: s := skipSpace_of_head fun c mem => by
    cases mem
    exact space
  simp [scanInt, number, skip, sign, minus, plus, digit]

theorem parseIPv4_of_knownSpelling {ip : List UInt8} (known : knownSpelling ip = true) :
    parseIPv4 ip = none := by
  have head : ∃ b s, ip = b :: s ∧ (b = 58 ∨ b = 102 ∨ b = 70) := by
    cases ip with
    | nil => exact absurd known (by decide)
    | cons b s =>
        refine ⟨b, s, rfl, ?_⟩
        simp [knownSpelling, text, ascii] at known
        grind
  obtain ⟨b, s, rfl, first⟩ := head
  have stop : scanInt (cStr (b :: s)) = none := by
    rcases first with rfl | rfl | rfl
    all_goals
      rw [cStr, List.takeWhile_cons_of_pos (by decide)]
      exact scanInt_of_head (by decide) (by decide) (by decide) (by decide)
  rw [parseIPv4, scanOctets, stop]

/-- A spelling that is known is not passed on. -/
theorem not_relayable_of_knownSpelling {ip : List UInt8} (known : knownSpelling ip = true) :
    isRelayableAddress ip = false := by
  have parsed := parseIPv4_of_knownSpelling known
  by_contra relayed
  rw [Bool.not_eq_false] at relayed
  simp only [isRelayableAddress, isUsableAddress, isPrivateAddress, parsed] at relayed
  simp only [knownSpelling] at known
  grind

/-- An IPv6 text of an internal address that is spelled some other way. -/
def EvadesFilter (ip : List UInt8) : Prop :=
  (∃ bytes, pton6 ip = some bytes ∧ isInternal6 bytes = true) ∧ knownSpelling ip = false

/-- What is passed on is no internal address, unless it evades the filter. -/
theorem not_internal_of_relayable {ip : List UInt8} (relayed : isRelayableAddress ip = true)
    (plain : ¬ EvadesFilter ip) : ¬ IsInternal ip := by
  rintro (⟨octets, read, internal⟩ | six)
  · rw [not_relayable_of_internal4 read internal] at relayed
    cases relayed
  · refine plain ⟨six, Bool.eq_false_iff.mpr fun known => ?_⟩
    rw [not_relayable_of_knownSpelling known] at relayed
    cases relayed

end QmaskCore
