import Mathlib.Data.Fintype.Basic
import Mathlib.Tactic.FinCases
import QmaskCore.Lib.InetPton
import QmaskCore.Lib.LeadingBits
import QmaskCore.Lib.StdString
import QmaskCore.Primitives.Bytes

/-!
The addresses that may call.

An entry of `rpcallowip` is an address with a mask, and is kept as the bytes of both.
`IpAddress.fold` says which addresses are the same client, and `Denotes` what an entry
means; neither mentions a byte of a mask. `subnets_match_prefixes` says that an entry is
read for what it means, lets in just the addresses with the same first bits, and is
printed so that it can be read again.
-/

namespace QmaskCore

open Scan LeadingBits

namespace Rpc

/-- `TrimAscii`. -/
def trimAscii (s : List UInt8) : List UInt8 :=
  StdString.trim (fun b => b = 32 || b = 9) (fun b => b = 32 || b = 9 || b = 13 || b = 10) s

/-- `asio::ip::address`. -/
inductive IpAddress where
  | v4 (raw : Fin 4 → UInt8)
  | v6 (raw : Fin 16 → UInt8)

/-- What reads and prints addresses. -/
structure Asio where
  /-- `make_address`, nothing being an error. -/
  makeAddress : List UInt8 → Option IpAddress
  /-- `address_v6::to_string`. -/
  v6Text : (Fin 16 → UInt8) → List UInt8

structure RPCAddrBytes where
  isV6 : Bool
  bytes : Fin 16 → UInt8

structure RPCSubNet where
  isV6 : Bool
  network : Fin 16 → UInt8
  netmask : Fin 16 → UInt8

def width (isV6 : Bool) : Nat := if isV6 then 16 else 4

namespace RPCSubNet

/-- `Match`. -/
def matchBytes (s : RPCSubNet) (addr : RPCAddrBytes) : Bool :=
  if addr.isV6 ≠ s.isV6 then false
  else decide (∀ i : Fin 16, i.val < width s.isV6 → addr.bytes i &&& s.netmask i = s.network i)

/-- Four numbers with points between them. -/
def dotted (a b c d : UInt8) : List UInt8 :=
  decimal a.toNat ++ 46 :: (decimal b.toNat ++ 46 :: (decimal c.toNat ++ 46 :: decimal d.toNat))

def toString (asio : Asio) (s : RPCSubNet) : List UInt8 :=
  let bits :=
    ((List.range (width s.isV6)).map fun i => leadingOnes (s.netmask (Fin.ofNat 16 i))).sum
  (if s.isV6 then asio.v6Text s.network
    else dotted (s.network 0) (s.network 1) (s.network 2) (s.network 3)) ++ 47 :: decimal bits

end RPCSubNet

def rpcAddressToBytes : IpAddress → RPCAddrBytes
  | .v4 raw => ⟨false, fun i => if inside : i.val < 4 then raw ⟨i.val, inside⟩ else 0⟩
  | .v6 raw =>
      let mapped := decide (∀ i : Fin 16, i.val < 10 → raw i = 0)
      let mapped := if mapped ∧ (raw 10 ≠ 0xff ∨ raw 11 ≠ 0xff) then false else mapped
      if mapped then
        ⟨false, fun i => if inside : i.val < 4 then raw ⟨12 + i.val, by omega⟩ else 0⟩
      else ⟨true, raw⟩

/-- The bytes of a dotted mask as one number. -/
def maskValue (mb : Fin 4 → UInt8) : UInt32 :=
  (List.finRange 4).foldl (fun value i => (value <<< 8) ||| (mb i).toUInt32) 0

/-- The ones at the top, with `left` bits still to be looked at. -/
def countOnes (value : UInt32) : Nat → Nat
  | 0 => 32
  | left + 1 =>
      let bits := 31 - left
      if value &&& (0x80000000 >>> UInt32.ofNat bits) ≠ 0 then countOnes value left else bits

/-- The mask behind the slash. -/
def maskBits (asio : Asio) (isV6 : Bool) (maskPart : List UInt8) : Option Nat :=
  if 46 ∈ maskPart then
    if isV6 then none
    else
      match asio.makeAddress maskPart with
      | some (.v4 mb) =>
          let value := maskValue mb
          let bits := countOnes value 32
          let expected := if bits = 0 then 0 else (0xffffffff : UInt32) <<< UInt32.ofNat (32 - bits)
          -- A mask with a gap in it is a typo, not a network.
          if value ≠ expected then none else some bits
      | _ => none
  else if ∃ b ∈ maskPart, isDigit b = false then none
  else if 3 < maskPart.length then none
  else
    let n := magnitude 0 maskPart
    if width isV6 * 8 < n then none else some n

/-- The first `bits` bits, byte by byte: `share` is `take`, and `topBits` the byte `m`. -/
def subNet (parsed : RPCAddrBytes) (bits : Nat) : RPCSubNet where
  isV6 := parsed.isV6
  network i := if i.val < width parsed.isV6 then parsed.bytes i &&& topBits (share bits i) else 0
  netmask i := if i.val < width parsed.isV6 then topBits (share bits i) else 0

def rpcParseSubNet (asio : Asio) (text : List UInt8) : Option RPCSubNet :=
  let trimmed := trimAscii text
  if trimmed = [] then none
  else
    let slash := trimmed.idxOf? 47
    let addrPart := match slash with | none => trimmed | some i => trimmed.take i
    let maskPart := match slash with | none => [] | some i => trimmed.drop (i + 1)
    if slash.isSome ∧ maskPart = [] then none
    else
      match asio.makeAddress addrPart with
      | none => none
      | some addr =>
          let parsed := rpcAddressToBytes addr
          let bits :=
            if maskPart = [] then some (width parsed.isV6 * 8)
            else maskBits asio parsed.isV6 maskPart
          bits.map (subNet parsed)

/-! ### What an entry means -/

namespace IpAddress

/-- `::ffff:a.b.c.d`, an IPv4 client of a dual-stack socket. -/
def Mapped (raw : Fin 16 → UInt8) : Prop :=
  (∀ i : Fin 16, i.val < 10 → raw i = 0) ∧ raw 10 = 0xff ∧ raw 11 = 0xff

instance (raw : Fin 16 → UInt8) : Decidable (Mapped raw) := inferInstanceAs (Decidable (_ ∧ _))

/-- The client an address stands for. -/
def fold : IpAddress → IpAddress
  | .v4 raw => .v4 raw
  | .v6 raw => if Mapped raw then .v4 fun i => raw ⟨12 + i.val, by omega⟩ else .v6 raw

def isV6 : IpAddress → Bool
  | .v4 _ => false
  | .v6 _ => true

def bit : IpAddress → Nat → Bool
  | .v4 raw => LeadingBits.bit raw
  | .v6 raw => LeadingBits.bit raw

end IpAddress

/-- Printing and reading are inverse to each other, and a printed address has nothing in
it but digits, colons and points. -/
structure Asio.Inverse (asio : Asio) : Prop where
  v4 : ∀ raw, asio.makeAddress (RPCSubNet.dotted (raw 0) (raw 1) (raw 2) (raw 3)) = some (.v4 raw)
  v6 : ∀ raw, asio.makeAddress (asio.v6Text raw) = some (.v6 raw)
  v6Text : ∀ raw, ∀ b ∈ asio.v6Text raw, (Inet.hexDigit b).isSome ∨ b = 58 ∨ b = 46

/-- The address in an entry, and how many of its bits count. -/
inductive Denotes (asio : Asio) (text : List UInt8) : IpAddress → Nat → Prop where
  | bare {a : IpAddress} : trimAscii text ≠ [] → 47 ∉ trimAscii text →
      asio.makeAddress (trimAscii text) = some a → Denotes asio text a (width a.fold.isV6 * 8)
  | suffix {front digits : List UInt8} {a : IpAddress} : trimAscii text = front ++ 47 :: digits →
      47 ∉ front → digits ≠ [] → digits.length ≤ 3 → (∀ b ∈ digits, isDigit b = true) →
      asio.makeAddress front = some a → magnitude 0 digits ≤ width a.fold.isV6 * 8 →
      Denotes asio text a (magnitude 0 digits)
  | mask {front mask : List UInt8} {a : IpAddress} {m : Fin 4 → UInt8} {n : Nat} :
      trimAscii text = front ++ 47 :: mask → 47 ∉ front → 46 ∈ mask →
      asio.makeAddress front = some a → a.fold.isV6 = false →
      asio.makeAddress mask = some (.v4 m) → n ≤ 32 → (∀ k < 32, bit m k = decide (k < n)) →
      Denotes asio text a n

/-! ### Folding -/

theorem rpcAddressToBytes_v6 (raw : Fin 16 → UInt8) : rpcAddressToBytes (.v6 raw) =
    if IpAddress.Mapped raw then
      ⟨false, fun i => if inside : i.val < 4 then raw ⟨12 + i.val, by omega⟩ else 0⟩
    else ⟨true, raw⟩ := by
  rw [rpcAddressToBytes]
  by_cases zeros : ∀ i : Fin 16, i.val < 10 → raw i = 0
  · by_cases ones : raw 10 = 0xff ∧ raw 11 = 0xff
    · simp [IpAddress.Mapped, ones.1, ones.2]
    · have other : raw 10 ≠ 0xff ∨ raw 11 ≠ 0xff := by
        rwa [Ne, Ne, ← not_and_or]
      simp only [IpAddress.Mapped, ones, and_false, decide_eq_true zeros, other, and_self, if_true,
        Bool.false_eq_true, if_false]
  · simp [IpAddress.Mapped, zeros]

theorem isV6_rpcAddressToBytes (a : IpAddress) : (rpcAddressToBytes a).isV6 = a.fold.isV6 := by
  cases a with
  | v4 raw => rfl
  | v6 raw =>
      rw [rpcAddressToBytes_v6, IpAddress.fold]
      split <;> rfl

/-- The bytes are those of the client. -/
theorem bit_rpcAddressToBytes (a : IpAddress) {k : Nat} (inside : k < width a.fold.isV6 * 8) :
    bit (rpcAddressToBytes a).bytes k = a.fold.bit k := by
  have short (raw : Fin 4 → UInt8) (small : k < 32) :
      bit (fun i : Fin 16 => if four : i.val < 4 then raw ⟨i.val, four⟩ else 0) k = bit raw k := by
    have wide : k / 8 < 16 := by omega
    have four : k / 8 < 4 := by omega
    rw [bit, bit, dif_pos wide, dif_pos four, dif_pos four]
  cases a with
  | v4 raw => exact short raw inside
  | v6 raw =>
      rw [rpcAddressToBytes_v6]
      by_cases mapped : IpAddress.Mapped raw
      · simp only [IpAddress.fold, if_pos mapped] at inside ⊢
        exact short (fun i => raw ⟨12 + i.val, by omega⟩) inside
      · simp only [IpAddress.fold, if_neg mapped]
        rfl

/-! ### Dotted masks -/

theorem toNat_putByte {value : UInt32} {n : Nat} (is : value.toNat = n) (small : n < 2 ^ 24)
    (b : UInt8) : ((value <<< 8) ||| b.toUInt32).toNat = 2 ^ 8 * n + b.toNat := by
  rw [UInt32.toNat_or, UInt32.toNat_shiftLeft, is]
  change n <<< 8 % 2 ^ 32 ||| b.toNat = _
  rw [Nat.shiftLeft_eq, Nat.mod_eq_of_lt (by omega), Nat.mul_comm,
    Nat.two_pow_add_eq_or_of_lt b.toNat_lt]

theorem toNat_maskValue (mb : Fin 4 → UInt8) : (maskValue mb).toNat =
    2 ^ 8 * (2 ^ 8 * (2 ^ 8 * (mb 0).toNat + (mb 1).toNat) + (mb 2).toNat) + (mb 3).toNat := by
  have zeroth := (mb 0).toNat_lt
  have first := (mb 1).toNat_lt
  have second := (mb 2).toNat_lt
  have one := toNat_putByte UInt32.toNat_zero (by omega) (mb 0)
  rw [Nat.mul_zero, Nat.zero_add] at one
  have two := toNat_putByte one (by omega) (mb 1)
  have three := toNat_putByte two (by omega) (mb 2)
  exact toNat_putByte three (by omega) (mb 3)

/-- A byte behind a number. -/
theorem testBit_append_byte (high : Nat) (b : UInt8) (j : Nat) :
    (2 ^ 8 * high + b.toNat).testBit j =
      if j < 8 then b.toNat.testBit j else high.testBit (j - 8) :=
  Nat.testBit_two_pow_mul_add high b.toNat_lt j

theorem testBit_maskValue (mb : Fin 4 → UInt8) {k : Nat} (inside : k < 32) :
    (maskValue mb).toNat.testBit (31 - k) = bit mb k := by
  have place : k / 8 < 4 := by omega
  rw [toNat_maskValue, testBit_append_byte, testBit_append_byte, testBit_append_byte, bit,
    dif_pos place]
  obtain quarter | quarter | quarter | quarter :
      k / 8 = 0 ∨ k / 8 = 1 ∨ k / 8 = 2 ∨ k / 8 = 3 := by omega
  · have here : (⟨k / 8, place⟩ : Fin 4) = 0 := Fin.ext quarter
    rw [here, if_neg (by omega), if_neg (by omega), if_neg (by omega)]
    congr 1
    omega
  · have here : (⟨k / 8, place⟩ : Fin 4) = 1 := Fin.ext quarter
    rw [here, if_neg (by omega), if_neg (by omega), if_pos (by omega)]
    congr 1
    omega
  · have here : (⟨k / 8, place⟩ : Fin 4) = 2 := Fin.ext quarter
    rw [here, if_neg (by omega), if_pos (by omega)]
    congr 1
    omega
  · have here : (⟨k / 8, place⟩ : Fin 4) = 3 := Fin.ext quarter
    rw [here, if_pos (by omega)]
    congr 1
    omega

/-- The mask with so many ones. -/
theorem testBit_expected {bits k : Nat} (few : bits ≤ 32) (inside : k < 32) :
    (if bits = 0 then 0 else (0xffffffff : UInt32) <<< UInt32.ofNat (32 - bits)).toNat.testBit
      (31 - k) = decide (k < bits) := by
  by_cases none : bits = 0
  · rw [if_pos none, none]
    simp
  · rw [if_neg none, UInt32.toNat_shiftLeft]
    have shift : (UInt32.ofNat (32 - bits)).toNat % 32 = 32 - bits := by
      rw [UInt32.toNat_ofNat_of_lt' (by rw [UInt32.size]; omega), Nat.mod_eq_of_lt (by omega)]
    change ((2 ^ 32 - 1) <<< ((UInt32.ofNat (32 - bits)).toNat % 32) % 2 ^ 32).testBit (31 - k) = _
    rw [shift, Nat.testBit_mod_two_pow, Nat.testBit_shiftLeft, Nat.testBit_two_pow_sub_one]
    simp only [ge_iff_le, decide_eq_true (by omega : 31 - k < 32), Bool.true_and,
      decide_eq_true (by omega : 31 - k - (32 - bits) < 32), Bool.and_true]
    rw [decide_eq_decide]
    omega

/-- Looking at one bit. -/
theorem and_single_ne_zero_iff (value : UInt32) {bits : Nat} (inside : bits < 32) :
    value &&& (0x80000000 >>> UInt32.ofNat bits) ≠ 0 ↔ value.toNat.testBit (31 - bits) = true := by
  have shift : (UInt32.ofNat bits).toNat % 32 = bits := by
    rw [UInt32.toNat_ofNat_of_lt' (by rw [UInt32.size]; omega), Nat.mod_eq_of_lt inside]
  have single : (0x80000000 >>> UInt32.ofNat bits : UInt32).toNat = 2 ^ (31 - bits) := by
    rw [UInt32.toNat_shiftRight, shift, Nat.shiftRight_eq_div_pow]
    exact Nat.pow_div (x := 2) (m := 31) (n := bits) (by omega) (by omega)
  rw [Ne, ← UInt32.toNat_inj, UInt32.toNat_and, single, Nat.and_two_pow, UInt32.toNat_zero]
  cases value.toNat.testBit (31 - bits) <;> simp

/-- The loop stops at the first bit that is missing. -/
theorem countOnes_spec (value : UInt32) : ∀ {left : Nat}, left ≤ 32 →
    (∀ k < 32 - left, value.toNat.testBit (31 - k) = true) →
    countOnes value left ≤ 32 ∧
    (∀ k < countOnes value left, value.toNat.testBit (31 - k) = true) ∧
    (countOnes value left < 32 → value.toNat.testBit (31 - countOnes value left) = false) := by
  intro left
  induction left with
  | zero => exact fun _ ones => ⟨le_rfl, ones, fun lt => absurd lt (lt_irrefl 32)⟩
  | succ left ih =>
      intro few ones
      have asked : value &&& (0x80000000 >>> UInt32.ofNat (31 - left)) ≠ 0 ↔
          value.toNat.testBit (31 - (31 - left)) = true :=
        and_single_ne_zero_iff value (by omega)
      rw [countOnes]
      split
      · rename_i one
        refine ih (by omega) fun k lt => ?_
        by_cases last : k = 31 - left
        · rw [last]
          exact asked.mp one
        · exact ones k (by omega)
      · rename_i zero
        refine ⟨by omega, fun k lt => ones k (by omega), fun _ => ?_⟩
        rwa [asked, Bool.not_eq_true] at zero

/-- Contiguous ones are counted. -/
theorem countOnes_eq {mb : Fin 4 → UInt8} {n : Nat} (few : n ≤ 32)
    (contiguous : ∀ k < 32, bit mb k = decide (k < n)) : countOnes (maskValue mb) 32 = n := by
  obtain ⟨le, ones, stop⟩ := countOnes_spec (maskValue mb) (le_refl 32) (by omega)
  generalize countOnes (maskValue mb) 32 = bits at *
  rcases lt_trichotomy bits n with less | same | more
  · have clear := stop (by omega)
    rw [testBit_maskValue mb (by omega), contiguous bits (by omega), decide_eq_true less] at clear
    cases clear
  · exact same
  · have set := ones n more
    rw [testBit_maskValue mb (by omega), contiguous n (by omega),
      decide_eq_false (lt_irrefl n)] at set
    cases set

/-- A mask is let through just when its ones are at the top. -/
theorem contiguous_iff {mb : Fin 4 → UInt8} {bits : Nat} (few : bits ≤ 32) :
    (maskValue mb = if bits = 0 then 0 else (0xffffffff : UInt32) <<< UInt32.ofNat (32 - bits)) ↔
      ∀ k < 32, bit mb k = decide (k < bits) := by
  rw [← UInt32.toNat_inj]
  constructor
  · intro same k inside
    rw [← testBit_maskValue mb inside, same, testBit_expected few inside]
  · intro contiguous
    refine Nat.eq_of_testBit_eq fun i => ?_
    by_cases inside : i < 32
    · obtain ⟨k, lt, rfl⟩ : ∃ k < 32, i = 31 - k := ⟨31 - i, by omega, by omega⟩
      rw [testBit_maskValue mb lt, testBit_expected few lt, contiguous k lt]
    · have above (v : UInt32) : v.toNat.testBit i = false :=
        Nat.testBit_lt_two_pow (v.toNat_lt.trans_le (Nat.pow_le_pow_right (by omega) (by omega)))
      rw [above, above]

/-! ### Reading an entry -/

variable {asio : Asio} {text : List UInt8} {a : IpAddress} {n : Nat}

theorem width_le (isV6 : Bool) : width isV6 ≤ 16 := by
  cases isV6 <;> decide

theorem Denotes.le (means : Denotes asio text a n) : n ≤ width a.fold.isV6 * 8 := by
  cases means with
  | bare => exact le_rfl
  | suffix _ _ _ _ _ _ fits => exact fits
  | mask _ _ _ _ v4 _ few _ =>
      rw [v4]
      exact few

theorem maskBits_digits {isV6 : Bool} {digits : List UInt8}
    (all : ∀ b ∈ digits, isDigit b = true) (short : digits.length ≤ 3)
    (fits : magnitude 0 digits ≤ width isV6 * 8) :
    maskBits asio isV6 digits = some (magnitude 0 digits) := by
  have noPoint : 46 ∉ digits := fun mem => absurd (all 46 mem) (by decide)
  have noOther : ¬ ∃ b ∈ digits, isDigit b = false := by
    rintro ⟨b, mem, other⟩
    rw [all b mem] at other
    cases other
  rw [maskBits, if_neg noPoint, if_neg noOther, if_neg (by omega)]
  exact if_neg (by omega)

theorem maskBits_dotted {mask : List UInt8} {m : Fin 4 → UInt8} (point : 46 ∈ mask)
    (read : asio.makeAddress mask = some (.v4 m)) (few : n ≤ 32)
    (contiguous : ∀ k < 32, bit m k = decide (k < n)) : maskBits asio false mask = some n := by
  have count := countOnes_eq few contiguous
  rw [maskBits, if_pos point, if_neg Bool.false_ne_true, read]
  simp only [count]
  rw [if_neg (not_not_intro ((contiguous_iff few).mpr contiguous))]

/-- What the mask behind the slash can be. -/
theorem of_maskBits {isV6 : Bool} {mask : List UInt8} (read : maskBits asio isV6 mask = some n) :
    (mask.length ≤ 3 ∧ (∀ b ∈ mask, isDigit b = true) ∧ n = magnitude 0 mask ∧
      n ≤ width isV6 * 8) ∨
    (46 ∈ mask ∧ isV6 = false ∧ ∃ m, asio.makeAddress mask = some (.v4 m) ∧ n ≤ 32 ∧
      ∀ k < 32, bit m k = decide (k < n)) := by
  rw [maskBits] at read
  split at read
  · rename_i point
    cases isV6 with
    | true => cases read
    | false =>
        rw [if_neg Bool.false_ne_true] at read
        split at read
        · rename_i m parsed
          obtain ⟨le, _, _⟩ := countOnes_spec (maskValue m) (le_refl 32) (by omega)
          obtain ⟨same, counted⟩ := Option.ite_none_left_eq_some.mp read
          cases counted
          exact .inr ⟨point, rfl, m, parsed, le, (contiguous_iff le).mp (not_not.mp same)⟩
        · cases read
  · split at read
    · cases read
    · rename_i digits
      split at read
      · cases read
      · dsimp only at read
        split at read
        · cases read
        · cases read
          refine .inl ⟨by omega, fun b mem => ?_, rfl, by omega⟩
          by_contra other
          exact digits ⟨b, mem, Bool.eq_false_iff.mpr other⟩

theorem parse_whole (some : trimAscii text ≠ []) (whole : 47 ∉ trimAscii text) :
    rpcParseSubNet asio text = (asio.makeAddress (trimAscii text)).map fun a =>
      subNet (rpcAddressToBytes a) (width a.fold.isV6 * 8) := by
  have slash : (trimAscii text).idxOf? 47 = none := List.idxOf?_eq_none_iff.mpr whole
  rw [rpcParseSubNet, if_neg some, slash]
  dsimp only
  rw [if_neg (by simp)]
  cases asio.makeAddress (trimAscii text) with
  | none => rfl
  | some a => simp [isV6_rpcAddressToBytes]

theorem parse_cut {front mask : List UInt8} (cut : trimAscii text = front ++ 47 :: mask)
    (first : 47 ∉ front) : rpcParseSubNet asio text = if mask = [] then none else
      (asio.makeAddress front).bind fun a =>
        (maskBits asio a.fold.isV6 mask).map (subNet (rpcAddressToBytes a)) := by
  have some : trimAscii text ≠ [] := by
    rw [cut]
    exact List.append_ne_nil_of_right_ne_nil _ (List.cons_ne_nil _ _)
  have slash : (trimAscii text).idxOf? 47 = .some front.length := by
    rw [cut, StdString.idxOf?_append_cons first]
  have behind : (front ++ 47 :: mask).drop (front.length + 1) = mask := by
    rw [← List.drop_drop, List.drop_left]
    rfl
  rw [rpcParseSubNet, if_neg some, slash]
  simp only [cut, List.take_left, behind]
  by_cases empty : mask = []
  · simp [empty]
  · simp only [empty, and_false, if_false]
    cases asio.makeAddress front with
    | none => rfl
    | some a => simp [isV6_rpcAddressToBytes]

/-- An entry with a meaning is read for it. -/
theorem parse_of_denotes (means : Denotes asio text a n) :
    rpcParseSubNet asio text = some (subNet (rpcAddressToBytes a) n) := by
  cases means with
  | bare some whole read => rw [parse_whole some whole, read, Option.map_some]
  | suffix cut first some short all read fits =>
      rw [parse_cut cut first, if_neg some, read, Option.bind_some, maskBits_digits all short fits,
        Option.map_some]
  | mask cut first point read v4 mask few contiguous =>
      rw [parse_cut cut first, if_neg (List.ne_nil_of_mem point), read, Option.bind_some, v4,
        maskBits_dotted point mask few contiguous, Option.map_some]

/-- And nothing else is read. -/
theorem denotes_of_parse {s : RPCSubNet} (read : rpcParseSubNet asio text = some s) :
    ∃ a n, Denotes asio text a n := by
  have some : trimAscii text ≠ [] := by
    intro empty
    rw [rpcParseSubNet, if_pos empty] at read
    cases read
  by_cases slash : 47 ∈ trimAscii text
  · obtain ⟨front, mask, cut, first⟩ := List.eq_append_cons_of_mem slash
    rw [parse_cut cut first] at read
    obtain ⟨other, read⟩ := Option.ite_none_left_eq_some.mp read
    obtain ⟨a, parsed, read⟩ := Option.bind_eq_some_iff.mp read
    obtain ⟨n, bits, _⟩ := Option.map_eq_some_iff.mp read
    rcases of_maskBits bits with ⟨short, all, rfl, fits⟩ | ⟨point, v4, m, mask, few, contiguous⟩
    · exact ⟨a, _, .suffix cut first other short all parsed fits⟩
    · exact ⟨a, n, .mask cut first point parsed v4 mask few contiguous⟩
  · rw [parse_whole some slash, Option.map_eq_some_iff] at read
    obtain ⟨a, parsed, _⟩ := read
    exact ⟨a, _, .bare some slash parsed⟩

/-! ### Printing an entry -/

/-- The bytes that are kept are the same ones when they are masked again. -/
theorem subNet_network (parsed : RPCAddrBytes) {bytes : Fin 16 → UInt8} (n : Nat)
    (same : ∀ i : Fin 16, i.val < width parsed.isV6 → bytes i = (subNet parsed n).network i) :
    subNet ⟨parsed.isV6, bytes⟩ n = subNet parsed n := by
  have network (i : Fin 16) :
      (subNet ⟨parsed.isV6, bytes⟩ n).network i = (subNet parsed n).network i := by
    simp only [subNet] at same ⊢
    split
    · rename_i inside
      rw [same i inside, if_pos inside, UInt8.and_assoc, UInt8.and_self]
    · rfl
  have all : (subNet ⟨parsed.isV6, bytes⟩ n).network = (subNet parsed n).network := funext network
  simp only [subNet] at all ⊢
  rw [all]

theorem not_mapped_of_isV6 (v6 : (rpcAddressToBytes a).isV6 = true) :
    ¬ IpAddress.Mapped (rpcAddressToBytes a).bytes := by
  cases a with
  | v4 raw => cases v6
  | v6 raw =>
      rw [rpcAddressToBytes_v6] at v6 ⊢
      split at v6
      · cases v6
      · rename_i other
        rwa [if_neg other]

/-- A network of IPv6 is not taken for a mapped address: its mask would reach as far. -/
theorem not_mapped_network {parsed : RPCAddrBytes} (v6 : parsed.isV6 = true)
    (other : ¬ IpAddress.Mapped parsed.bytes) (n : Nat) :
    ¬ IpAddress.Mapped (subNet parsed n).network := by
  have masked (i : Fin 16) :
      (subNet parsed n).network i = parsed.bytes i &&& topBits (share n i) := by
    refine if_pos ?_
    rw [v6]
    exact i.isLt
  rintro ⟨zeros, ten, eleven⟩
  rw [masked] at ten eleven
  obtain ⟨ten, _⟩ := eq_full_of_and ten
  obtain ⟨eleven, full⟩ := eq_full_of_and eleven
  have long : (11 + 1) * 8 ≤ n := share_eq_eight_iff.mp (eq_eight_of_topBits (share_le n _) full)
  refine other ⟨fun i low => ?_, ten, eleven⟩
  have kept := zeros i low
  rw [masked, share_eq_eight_iff.mpr (by omega), topBits_eight] at kept
  rw [← kept]
  exact UInt8.and_neg_one.symm

/-- The printed length is the length of the mask. -/
theorem printed_bits {parsed : RPCAddrBytes} (fits : n ≤ width parsed.isV6 * 8) :
    ((List.range (width parsed.isV6)).map fun i =>
      leadingOnes ((subNet parsed n).netmask (Fin.ofNat 16 i))).sum = n := by
  have wide := width_le parsed.isV6
  have same : ∀ i ∈ List.range (width parsed.isV6),
      leadingOnes ((subNet parsed n).netmask (Fin.ofNat 16 i)) =
        leadingOnes (topBits (share n i)) := by
    intro i mem
    have inside := List.mem_range.mp mem
    have index : (Fin.ofNat 16 i).val = i := Nat.mod_eq_of_lt (by omega)
    simp only [subNet, index, if_pos inside]
  rw [List.map_congr_left same]
  exact sum_leadingOnes (by omega)

theorem toString_subNet {parsed : RPCAddrBytes} (fits : n ≤ width parsed.isV6 * 8) :
    (subNet parsed n).toString asio =
      (if parsed.isV6 then asio.v6Text (subNet parsed n).network
        else RPCSubNet.dotted ((subNet parsed n).network 0) ((subNet parsed n).network 1)
          ((subNet parsed n).network 2) ((subNet parsed n).network 3)) ++ 47 :: decimal n := by
  have bits := printed_bits fits
  rw [RPCSubNet.toString]
  change _ ++ 47 :: decimal ((List.range (width parsed.isV6)).map fun i =>
      leadingOnes ((subNet parsed n).netmask (Fin.ofNat 16 i))).sum = _
  rw [bits]
  rfl

theorem isDigit_or_point_of_mem_dotted {a b c d x : UInt8} (mem : x ∈ RPCSubNet.dotted a b c d) :
    isDigit x = true ∨ x = 46 := by
  simp only [RPCSubNet.dotted, List.mem_append, List.mem_cons] at mem
  rcases mem with digit | point | digit | point | digit | point | digit
  · exact .inl (isDigit_decimal digit)
  · exact .inr point
  · exact .inl (isDigit_decimal digit)
  · exact .inr point
  · exact .inl (isDigit_decimal digit)
  · exact .inr point
  · exact .inl (isDigit_decimal digit)

/-- What stands in an entry besides the slash. -/
def plain (b : UInt8) : Bool := (Inet.hexDigit b).isSome || b = 58 || b = 46

theorem plain_of_isDigit {b : UInt8} (digit : isDigit b = true) : plain b = true := by
  simp [plain, Inet.hexDigit, digit]

/-- An address with a length behind it is an entry. -/
theorem denotes_of_printed {front : List UInt8} (solid : ∀ b ∈ front, plain b = true)
    (read : asio.makeAddress front = some a) (fits : n ≤ width a.fold.isV6 * 8) :
    Denotes asio (front ++ 47 :: decimal n) a n := by
  have wide := width_le a.fold.isV6
  have noBlank : ∀ b ∈ front ++ 47 :: decimal n,
      b ≠ 32 ∧ b ≠ 9 ∧ b ≠ 13 ∧ b ≠ 10 := by
    have other {b : UInt8} (p : plain b = true) : b ≠ 32 ∧ b ≠ 9 ∧ b ≠ 13 ∧ b ≠ 10 := by
      refine ⟨?_, ?_, ?_, ?_⟩ <;> (rintro rfl; cases p)
    intro b mem
    rcases List.mem_append.mp mem with address | mem
    · exact other (solid b address)
    · rcases List.mem_cons.mp mem with rfl | digit
      · decide
      · exact other (plain_of_isDigit (isDigit_decimal digit))
  have whole : trimAscii (front ++ 47 :: decimal n) = front ++ 47 :: decimal n := by
    refine StdString.trim_eq_self (fun b mem => ?_) (fun b mem => ?_)
    · simp [noBlank b mem]
    · simp [noBlank b mem]
  have first : 47 ∉ front := fun mem => absurd (solid 47 mem) (by decide)
  have short : (decimal n).length ≤ 3 := by
    rw [length_decimal_le_iff (by omega)]
    omega
  have means := Denotes.suffix whole first (decimal_ne_nil n) short (fun _ => isDigit_decimal) read
    (by rwa [magnitude_decimal])
  rwa [magnitude_decimal] at means

theorem makeAddress_dotted (inverse : asio.Inverse) (net : Fin 16 → UInt8) :
    asio.makeAddress (RPCSubNet.dotted (net 0) (net 1) (net 2) (net 3)) =
      some (.v4 fun i => net ⟨i.val, by omega⟩) :=
  inverse.v4 fun i => net ⟨i.val, by omega⟩

/-- What is printed means the same network. -/
theorem denotes_toString (inverse : asio.Inverse) (fits : n ≤ width a.fold.isV6 * 8) :
    ∃ a', Denotes asio ((subNet (rpcAddressToBytes a) n).toString asio) a' n ∧
      subNet (rpcAddressToBytes a') n = subNet (rpcAddressToBytes a) n := by
  have family := isV6_rpcAddressToBytes a
  rw [← family] at fits
  have text := @toString_subNet asio _ _ fits
  by_cases v6 : (rpcAddressToBytes a).isV6 = true
  · have other := not_mapped_network v6 (not_mapped_of_isV6 v6) n
    refine ⟨.v6 (subNet (rpcAddressToBytes a) n).network, ?_, ?_⟩
    · rw [text, if_pos v6]
      refine denotes_of_printed (fun b mem => ?_) (inverse.v6 _) ?_
      · simpa [plain, or_assoc] using inverse.v6Text _ b mem
      · rw [IpAddress.fold, if_neg other]
        rwa [v6] at fits
    · have same := subNet_network (rpcAddressToBytes a) n fun _ _ => rfl
      rw [rpcAddressToBytes_v6, if_neg other]
      rwa [v6] at same
  · rw [Bool.not_eq_true] at v6
    refine ⟨.v4 fun i => (subNet (rpcAddressToBytes a) n).network ⟨i.val, by omega⟩, ?_, ?_⟩
    · rw [text, v6, if_neg Bool.false_ne_true]
      refine denotes_of_printed (fun b mem => ?_) (makeAddress_dotted inverse _) ?_
      · rcases isDigit_or_point_of_mem_dotted mem with digit | rfl
        · exact plain_of_isDigit digit
        · rfl
      · rwa [v6] at fits
    · refine Eq.trans ?_ (@subNet_network (rpcAddressToBytes a) (fun i =>
        if i.val < 4 then (subNet (rpcAddressToBytes a) n).network i else 0) n ?_)
      · rw [v6]
        rfl
      · intro i inside
        rw [v6] at inside
        exact if_pos inside

/-- An entry lets in the addresses with the same first bits. -/
theorem matchBytes_subNet (b : IpAddress) (fits : n ≤ width a.fold.isV6 * 8) :
    (subNet (rpcAddressToBytes a) n).matchBytes (rpcAddressToBytes b) = true ↔
      a.fold.isV6 = b.fold.isV6 ∧ ∀ k < n, a.fold.bit k = b.fold.bit k := by
  have family := isV6_rpcAddressToBytes a
  have family' := isV6_rpcAddressToBytes b
  rw [RPCSubNet.matchBytes]
  change (if (rpcAddressToBytes b).isV6 ≠ (rpcAddressToBytes a).isV6 then false else _) = true ↔ _
  by_cases same : a.fold.isV6 = b.fold.isV6
  · have masked := @masked_eq_iff 16 (width a.fold.isV6) n (rpcAddressToBytes b).bytes
      (rpcAddressToBytes a).bytes (by omega) (width_le _)
    rw [if_neg (by rw [family, family', same]; exact not_not_intro rfl), decide_eq_true_eq]
    have bits : (∀ k < n, bit (rpcAddressToBytes b).bytes k = bit (rpcAddressToBytes a).bytes k) ↔
        ∀ k < n, a.fold.bit k = b.fold.bit k := by
      refine forall₂_congr fun k lt => ?_
      rw [bit_rpcAddressToBytes a (by omega), bit_rpcAddressToBytes b (by rw [← same]; omega),
        eq_comm]
    rw [and_iff_right same, ← bits, ← masked, ← family]
    refine forall_congr' fun i => imp_congr_right fun inside => ?_
    change i.val < width (rpcAddressToBytes a).isV6 at inside
    simp only [subNet, if_pos inside]
  · rw [if_pos (by rw [family, family']; exact fun eq => same eq.symm)]
    simp [same]

end Rpc

open Rpc

/-- **The allow list.** An entry is read just when it means something, and then for what it
means: it lets in the clients of the same family whose first bits are the same, and what is
printed of it is read as the same entry. A dotted mask is let through just when its ones
are contiguous from the top. -/
theorem subnets_match_prefixes {asio : Asio} (inverse : asio.Inverse) :
    (∀ text, (∃ s, rpcParseSubNet asio text = some s) ↔ ∃ a n, Denotes asio text a n) ∧
    (∀ text a n, Denotes asio text a n → ∃ s, rpcParseSubNet asio text = some s ∧
      (∀ b, s.matchBytes (rpcAddressToBytes b) = true ↔
        a.fold.isV6 = b.fold.isV6 ∧ ∀ k < n, a.fold.bit k = b.fold.bit k) ∧
      rpcParseSubNet asio (s.toString asio) = some s) ∧
    ∀ text front mask a m, trimAscii text = front ++ 47 :: mask → 47 ∉ front → 46 ∈ mask →
      asio.makeAddress front = some a → a.fold.isV6 = false →
      asio.makeAddress mask = some (.v4 m) →
      ((∃ s, rpcParseSubNet asio text = some s) ↔
        ∃ n ≤ 32, ∀ k < 32, LeadingBits.bit m k = decide (k < n)) := by
  refine ⟨fun text => ⟨?_, ?_⟩, fun text a n means => ?_, ?_⟩
  · rintro ⟨s, read⟩
    exact denotes_of_parse read
  · rintro ⟨a, n, means⟩
    exact ⟨_, parse_of_denotes means⟩
  · refine ⟨_, parse_of_denotes means, fun b => matchBytes_subNet b means.le, ?_⟩
    obtain ⟨a', means', same⟩ := denotes_toString inverse means.le
    rw [parse_of_denotes means', same]
  · intro text front mask a m cut first point read v4 dotted
    rw [parse_cut cut first, if_neg (List.ne_nil_of_mem point), read, Option.bind_some, v4]
    constructor
    · rintro ⟨s, made⟩
      obtain ⟨n, bits, _⟩ := Option.map_eq_some_iff.mp made
      rcases of_maskBits bits with ⟨_, digits, _⟩ | ⟨_, _, m', parsed, few, contiguous⟩
      · exact absurd (digits 46 point) (by decide)
      · rw [dotted] at parsed
        cases parsed
        exact ⟨n, few, contiguous⟩
    · rintro ⟨n, few, contiguous⟩
      rw [maskBits_dotted point dotted few contiguous]
      exact ⟨_, rfl⟩

/-- `inet_pton`, and an address of IPv6 written out in full. -/
def pton : Asio where
  makeAddress s :=
    match Inet.pton4 s with
    | some octets => some (.v4 fun i => UInt8.ofNat (octets.getD i.val 0))
    | none => (Inet.pton6 s).map fun bytes => .v6 fun i => UInt8.ofNat (bytes.getD i.val 0)
  v6Text raw := Inet.groups (List.ofFn raw)

theorem inverse_pton : pton.Inverse where
  v4 raw := by
    have octet (i : Fin 4) : (raw i).toNat ≤ 255 := Nat.le_of_lt_succ (raw i).toNat_lt
    have read := Inet.pton4_decimal ⟨octet 0, octet 1, octet 2, octet 3⟩
    simp only [pton, RPCSubNet.dotted, read]
    congr 2
    funext i
    fin_cases i <;> simp
  v6 raw := by
    have full : (List.ofFn raw).length = 16 := List.length_ofFn
    simp only [pton, Inet.pton4_groups (by omega : 3 ≤ (List.ofFn raw).length),
      Inet.pton6_groups full, Option.map_some]
    congr 2
    funext i
    rw [List.getD_eq_getElem?_getD, List.getElem?_map, List.getElem?_ofFn, dif_pos i.isLt,
      Option.map_some, Option.getD_some, UInt8.ofNat_toNat]
  v6Text raw b mem := by
    rcases Inet.mem_groups mem with digit | colon
    · exact .inl digit
    · exact .inr (.inl colon)

theorem subnets_match_prefixes_pton :
    (∀ text, (∃ s, rpcParseSubNet pton text = some s) ↔ ∃ a n, Denotes pton text a n) ∧
    (∀ text a n, Denotes pton text a n → ∃ s, rpcParseSubNet pton text = some s ∧
      (∀ b, s.matchBytes (rpcAddressToBytes b) = true ↔
        a.fold.isV6 = b.fold.isV6 ∧ ∀ k < n, a.fold.bit k = b.fold.bit k) ∧
      rpcParseSubNet pton (s.toString pton) = some s) ∧
    ∀ text front mask a m, trimAscii text = front ++ 47 :: mask → 47 ∉ front → 46 ∈ mask →
      pton.makeAddress front = some a → a.fold.isV6 = false → pton.makeAddress mask = some (.v4 m) →
      ((∃ s, rpcParseSubNet pton text = some s) ↔
        ∃ n ≤ 32, ∀ k < 32, LeadingBits.bit m k = decide (k < n)) :=
  subnets_match_prefixes inverse_pton

end QmaskCore
