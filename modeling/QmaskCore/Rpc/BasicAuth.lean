import Mathlib.Data.List.Basic
import QmaskCore.Lib.BitString
import QmaskCore.Lib.StdString

/-!
Basic authentication, from `moneu-cli` to the node.

The client writes user and password in base 64, the node reads them back and
compares. Both keep the bits that are pending at the low end of `val`, `valb` of them
ahead of what the next digit needs. `base64Encode_spec` and `decodeFrom_spec` say that
no bit is lost, and `basic_auth_exact` draws the conclusion for strings and for logins.
-/

namespace QmaskCore

open BitString

/-- `A-Z`, `a-z`, `0-9`, `+` and `/`. -/
def base64Alphabet : List UInt8 :=
  (List.range 26).map (fun i => UInt8.ofNat (65 + i)) ++
    (List.range 26).map (fun i => UInt8.ofNat (97 + i)) ++
    (List.range 10).map (fun i => UInt8.ofNat (48 + i)) ++ [43, 47]

/-! ### The client -/

namespace Cli

/-- `B64_CHARS`. -/
def b64Chars : List UInt8 := base64Alphabet

/-- The digits that are complete, and what `valb` is after them; each takes six of
the pending bits. -/
def pushDigits (val : UInt32) : Nat → Int → List UInt8 × Int
  | 0, valb => ([], valb)
  | pending + 1, valb =>
      if 0 ≤ valb then
        let rest := pushDigits val pending (valb - 6)
        (b64Chars.getD ((val >>> UInt32.ofNat valb.toNat) &&& 0x3f).toNat 0 :: rest.1, rest.2)
      else ([], valb)

def encodeFrom : UInt32 → Int → List UInt8 → List UInt8 × UInt32 × Int
  | val, valb, [] => ([], val, valb)
  | val, valb, c :: s =>
      let val := ((val <<< 8) ||| c.toUInt32) &&& 0x00ffffff
      let pushed := pushDigits val (valb + 8 + 6).toNat (valb + 8)
      let rest := encodeFrom val pushed.2 s
      (pushed.1 ++ rest.1, rest.2)

def base64Encode (s : List UInt8) : List UInt8 :=
  let (out, val, valb) := encodeFrom 0 (-6) s
  let out :=
    if -6 < valb then
      out ++ [b64Chars.getD (((val <<< 8) >>> UInt32.ofNat (valb + 8).toNat) &&& 0x3f).toNat 0]
    else out
  out ++ List.replicate ((4 - out.length % 4) % 4) 61

end Cli

/-! ### The node -/

namespace Rpc

/-- `BASE64_CHARS`. -/
def base64Chars : List UInt8 := base64Alphabet

def decodeFrom : UInt32 → Int → List UInt8 → List UInt8
  | _, _, [] => []
  | val, valb, c :: s =>
      if c = 61 then []
      else
        match base64Chars.idxOf? c with
        | none => decodeFrom val valb s
        | some t =>
            let val := ((val <<< 6) ||| UInt32.ofNat t) &&& 0x00ffffff
            let valb := valb + 6
            if 0 ≤ valb then
              ((val >>> UInt32.ofNat valb.toNat) &&& 0xff).toUInt8 :: decodeFrom val (valb - 8) s
            else decodeFrom val valb s

def base64Decode (s : List UInt8) : List UInt8 := decodeFrom 0 (-8) s

/-- `TimingSafeEqual`. -/
def timingSafeEqual (a b : List UInt8) : Bool :=
  let n := if b.length < a.length then a.length else b.length
  (List.range n).foldl (fun diff i => diff ||| (a.getD i 0 ^^^ b.getD i 0))
    (if a.length ≠ b.length then 1 else 0) = 0

def checkAuth (mRPCUser mRPCPassword authHeader : List UInt8) : Bool :=
  if authHeader = [] then false
  else
    let decoded := base64Decode authHeader
    if decoded = [] then false
    else
      match decoded.idxOf? 58 with
      | none => false
      | some colonPos =>
          if colonPos = 0 ∨ colonPos = decoded.length - 1 then false
          else
            let userOk := timingSafeEqual (decoded.take colonPos) mRPCUser
            let passOk := timingSafeEqual (decoded.drop (colonPos + 1)) mRPCPassword
            userOk && passOk

end Rpc

/-! ### Bits put in and taken out -/

theorem base64Alphabet_idxOf {d : Nat} (small : d < 64) :
    base64Alphabet.idxOf? (base64Alphabet.getD d 0) = some d ∧ base64Alphabet.getD d 0 ≠ 61 := by
  have all : ∀ d : Fin 64, base64Alphabet.idxOf? (base64Alphabet.getD d 0) = some d.val ∧
      base64Alphabet.getD d 0 ≠ 61 := by decide +kernel
  exact all ⟨d, small⟩

/-- The bits of a string. -/
def bitsOf (s : List UInt8) : List Bool := (s.map (·.toNat)).flatMap (bits 8)

/-- A digit of `w` bits behind the pending ones. -/
theorem bits_put {val d : UInt32} {w h : Nat} (small : d.toNat < 2 ^ w) (few : w < 32)
    (room : h + w ≤ 24) :
    bits (h + w) (((val <<< UInt32.ofNat w) ||| d) &&& 0x00ffffff).toNat =
      bits h val.toNat ++ bits w d.toNat := by
  have shift : (UInt32.ofNat w).toNat % 32 = w := by
    rw [UInt32.toNat_ofNat', Nat.mod_eq_of_lt (by omega : w < 2 ^ 32), Nat.mod_eq_of_lt few]
  have whole : (val.toNat <<< w % 2 ^ 32 ||| d.toNat) = (val.toNat <<< w ||| d.toNat) % 2 ^ 32 := by
    rw [Nat.or_mod_two_pow, Nat.mod_eq_of_lt d.toNat_lt]
  have mask : (((val <<< UInt32.ofNat w) ||| d) &&& 0x00ffffff).toNat =
      (val.toNat <<< w ||| d.toNat) % 2 ^ 32 % 2 ^ 24 := by
    rw [UInt32.toNat_and, UInt32.toNat_or, UInt32.toNat_shiftLeft, shift, whole]
    exact Nat.and_two_pow_sub_one_eq_mod _ 24
  rw [mask, bits_mod room, bits_mod (by omega), bits_append small]

theorem toNat_digit {val : UInt32} {r v : Nat} {mask : UInt32} (mask_eq : mask.toNat = 2 ^ v - 1)
    (few : r < 32) : ((val >>> UInt32.ofNat r) &&& mask).toNat = val.toNat / 2 ^ r % 2 ^ v := by
  have shift : (UInt32.ofNat r).toNat % 32 = r := by
    rw [UInt32.toNat_ofNat', Nat.mod_eq_of_lt (by omega : r < 2 ^ 32), Nat.mod_eq_of_lt few]
  rw [UInt32.toNat_and, UInt32.toNat_shiftRight, shift, mask_eq, Nat.shiftRight_eq_div_pow]
  exact Nat.and_two_pow_sub_one_eq_mod _ v

/-- The first `v` of the pending bits. -/
theorem bits_take {val : UInt32} {r v : Nat} {mask : UInt32} (mask_eq : mask.toNat = 2 ^ v - 1)
    (few : r < 32) : bits (v + r) val.toNat =
      bits v ((val >>> UInt32.ofNat r) &&& mask).toNat ++ bits r val.toNat := by
  rw [toNat_digit mask_eq few, bits_mod le_rfl, bits_split]

namespace Cli

/-- The text of some digits. -/
def spell (ds : List Nat) : List UInt8 := ds.map fun d => b64Chars.getD d 0

/-- What is handed out and what stays pending are the bits that were pending. -/
theorem pushDigits_spec {val : UInt32} : ∀ {pending : Nat} {valb : Int}, -6 ≤ valb → valb < 8 →
    (valb + 6).toNat ≤ pending →
    ∃ ds : List Nat, (∀ d ∈ ds, d < 64) ∧ (pushDigits val pending valb).1 = spell ds ∧
      -6 ≤ (pushDigits val pending valb).2 ∧ (pushDigits val pending valb).2 < 0 ∧
      bits (valb + 6).toNat val.toNat = ds.flatMap (bits 6) ++
        bits ((pushDigits val pending valb).2 + 6).toNat val.toNat := by
  intro pending
  induction pending with
  | zero =>
      intro valb low high enough
      rw [pushDigits]
      exact ⟨[], by simp, rfl, low, by omega, rfl⟩
  | succ pending ih =>
      intro valb low high enough
      rw [pushDigits]
      dsimp only
      split
      · rename_i ready
        obtain ⟨ds, small, out, low', high', rest⟩ := @ih (valb - 6) (by omega) (by omega)
          (by omega)
        have first := @bits_take val valb.toNat 6 0x3f rfl (by omega)
        have digit : ((val >>> UInt32.ofNat valb.toNat) &&& 0x3f).toNat < 64 := by
          rw [toNat_digit (v := 6) rfl (by omega)]
          exact Nat.mod_lt _ (by decide)
        refine ⟨((val >>> UInt32.ofNat valb.toNat) &&& 0x3f).toNat :: ds, ?_, ?_, low', high', ?_⟩
        · exact List.forall_mem_cons.mpr ⟨digit, small⟩
        · rw [out]
          rfl
        · rw [show (valb + 6).toNat = 6 + valb.toNat by omega, first, List.flatMap_cons,
            List.append_assoc, ← rest]
          rw [show (valb - 6 + 6).toNat = valb.toNat by omega]
      · rename_i short
        exact ⟨[], by simp, rfl, low, by omega, rfl⟩

theorem encodeFrom_spec : ∀ {s : List UInt8} {val : UInt32} {valb : Int}, -6 ≤ valb → valb < 0 →
    ∃ ds : List Nat, (∀ d ∈ ds, d < 64) ∧ (encodeFrom val valb s).1 = spell ds ∧
      -6 ≤ (encodeFrom val valb s).2.2 ∧ (encodeFrom val valb s).2.2 < 0 ∧
      bits (valb + 6).toNat val.toNat ++ bitsOf s = ds.flatMap (bits 6) ++
        bits ((encodeFrom val valb s).2.2 + 6).toNat (encodeFrom val valb s).2.1.toNat := by
  intro s
  induction s with
  | nil =>
      intro val valb low high
      exact ⟨[], by simp, rfl, low, high, by simp [bitsOf, encodeFrom]⟩
  | cons c s ih =>
      intro val valb low high
      have byte : c.toUInt32.toNat < 2 ^ 8 := c.toNat_lt
      have put := @bits_put val _ 8 (valb + 6).toNat byte (by decide) (by omega)
      rw [encodeFrom]
      dsimp only
      change _ = _ ++ bits 8 c.toNat at put
      rw [show UInt32.ofNat 8 = 8 from rfl] at put
      generalize ((val <<< 8) ||| c.toUInt32) &&& 0x00ffffff = next at put ⊢
      obtain ⟨ds, small, out, low', high', taken⟩ := @pushDigits_spec next
        (valb + 8 + 6).toNat (valb + 8) (by omega) (by omega) le_rfl
      obtain ⟨es, small', out', low'', high'', rest⟩ := @ih next _ low' high'
      refine ⟨ds ++ es, ?_, ?_, low'', high'', ?_⟩
      · exact List.forall_mem_append.mpr ⟨small, small'⟩
      · rw [out, out', spell, spell, spell, List.map_append]
      · rw [List.flatMap_append, List.append_assoc, ← rest, ← List.append_assoc, ← taken,
          show (valb + 8 + 6).toNat = (valb + 6).toNat + 8 by omega, put, List.append_assoc]
        rfl

/-- The digit that is filled up with zeros. -/
theorem bits_last (val : UInt32) {p : Nat} (some : 0 < p) (few : p < 6) :
    bits 6 (((val <<< 8) >>> UInt32.ofNat (p + 2)) &&& 0x3f).toNat =
      bits p val.toNat ++ List.replicate (6 - p) false := by
  have filled := bits_append (Nat.two_pow_pos (6 - p)) p val.toNat
  rw [bits_zero, show p + (6 - p) = 6 by omega, Nat.or_zero] at filled
  rw [← filled, toNat_digit (v := 6) rfl (by omega)]
  refine bits_congr fun i lt => ?_
  rw [Nat.testBit_mod_two_pow, Nat.testBit_div_two_pow, UInt32.toNat_shiftLeft,
    Nat.testBit_shiftLeft]
  change (_ && (val.toNat <<< 8 % 2 ^ 32).testBit _) = _
  rw [Nat.testBit_mod_two_pow, Nat.testBit_shiftLeft, decide_eq_true lt,
    decide_eq_true (by omega : i + (p + 2) < 32), Bool.true_and, Bool.true_and]
  by_cases inside : 6 - p ≤ i
  · rw [decide_eq_true (by omega : i + (p + 2) ≥ 8), decide_eq_true inside,
      show i + (p + 2) - 8 = i - (6 - p) by omega]
  · rw [decide_eq_false (by omega : ¬ i + (p + 2) ≥ 8), decide_eq_false inside, Bool.false_and,
      Bool.false_and]

/-- What is sent spells the bits of the string, zeros to the next digit and padding. -/
theorem base64Encode_spec (s : List UInt8) : ∃ (ds : List Nat) (zeros : Nat),
    (∀ d ∈ ds, d < 64) ∧ (∃ padding, base64Encode s = spell ds ++ List.replicate padding 61) ∧
      ds.flatMap (bits 6) = bitsOf s ++ List.replicate zeros false ∧ zeros < 6 := by
  obtain ⟨ds, small, out, low, high, same⟩ :=
    @encodeFrom_spec s 0 (-6) le_rfl (by decide)
  rw [show ((-6 : Int) + 6).toNat = 0 from rfl, bits, List.nil_append] at same
  rw [base64Encode]
  dsimp only
  rw [out]
  generalize (encodeFrom 0 (-6) s).2.1 = val at same ⊢
  generalize (encodeFrom 0 (-6) s).2.2 = valb at low high same ⊢
  split
  · rename_i pending
    have last := bits_last val (p := (valb + 6).toNat) (by omega) (by omega)
    rw [show (valb + 6).toNat + 2 = (valb + 8).toNat by omega] at last
    have digit : (((val <<< 8) >>> UInt32.ofNat (valb + 8).toNat) &&& 0x3f).toNat < 64 := by
      rw [toNat_digit (v := 6) rfl (by omega)]
      exact Nat.mod_lt _ (by decide)
    refine ⟨ds ++ [(((val <<< 8) >>> UInt32.ofNat (valb + 8).toNat) &&& 0x3f).toNat],
      6 - (valb + 6).toNat, ?_, ?_, ?_, by omega⟩
    · exact List.forall_mem_append.mpr ⟨small, List.forall_mem_singleton.mpr digit⟩
    · rw [spell, spell, List.map_append]
      exact ⟨_, rfl⟩
    · rw [List.flatMap_append, List.flatMap_singleton, last, ← List.append_assoc, ← same]
  · rename_i done
    refine ⟨ds, 0, small, ⟨_, rfl⟩, ?_, by decide⟩
    rw [show (valb + 6).toNat = 0 by omega, bits, List.append_nil] at same
    rw [← same, List.replicate_zero, List.append_nil]

end Cli

namespace Rpc

/-- One digit is read. -/
theorem decodeFrom_spell_cons {d : Nat} (digit : d < 64) (ds : List Nat) (padding : Nat)
    (val : UInt32) (valb : Int) :
    decodeFrom val valb (Cli.spell (d :: ds) ++ List.replicate padding 61) =
      let next := ((val <<< 6) ||| UInt32.ofNat d) &&& 0x00ffffff
      if 0 ≤ valb + 6 then
        ((next >>> UInt32.ofNat (valb + 6).toNat) &&& 0xff).toUInt8 ::
          decodeFrom next (valb + 6 - 8) (Cli.spell ds ++ List.replicate padding 61)
      else decodeFrom next (valb + 6) (Cli.spell ds ++ List.replicate padding 61) := by
  have known := base64Alphabet_idxOf digit
  have found : base64Chars.idxOf? (Cli.b64Chars.getD d 0) = some d := known.1
  have notPadding : Cli.b64Chars.getD d 0 ≠ 61 := known.2
  rw [Cli.spell, List.map_cons, List.cons_append, decodeFrom, if_neg notPadding, found]
  rfl

/-- The bits of the digits come out as bytes, but for less than a byte. -/
theorem decodeFrom_spec (padding : Nat) : ∀ {ds : List Nat} {val : UInt32} {valb : Int},
    (∀ d ∈ ds, d < 64) → -8 ≤ valb → valb < 0 →
    ∃ left : List Bool, left.length < 8 ∧
      bits (valb + 8).toNat val.toNat ++ ds.flatMap (bits 6) =
        bitsOf (decodeFrom val valb (Cli.spell ds ++ List.replicate padding 61)) ++ left := by
  intro ds
  induction ds with
  | nil =>
      intro val valb _ low high
      have stop : decodeFrom val valb (List.replicate padding 61) = [] := by
        cases padding with
        | zero => rfl
        | succ padding => rfl
      refine ⟨bits (valb + 8).toNat val.toNat, ?_, ?_⟩
      · rw [length_bits]
        omega
      · rw [Cli.spell, List.map_nil, List.nil_append, stop]
        simp [bitsOf]
  | cons d ds ih =>
      intro val valb small low high
      have digit := small d List.mem_cons_self
      have rest (val : UInt32) (valb : Int) := @ih val valb
        fun d mem => small d (List.mem_cons_of_mem _ mem)
      have word : (UInt32.ofNat d).toNat = d := UInt32.toNat_ofNat_of_lt' (by
        rw [UInt32.size]
        omega)
      have put := @bits_put val (UInt32.ofNat d) 6 (valb + 8).toNat
        (by rw [word]; exact digit) (by decide) (by omega)
      rw [word, show UInt32.ofNat 6 = 6 from rfl] at put
      rw [decodeFrom_spell_cons digit]
      dsimp only
      generalize ((val <<< 6) ||| UInt32.ofNat d) &&& 0x00ffffff = next at put ⊢
      rw [List.flatMap_cons, ← List.append_assoc, ← put]
      split
      · rename_i ready
        have first := @bits_take next (valb + 6).toNat 8 0xff rfl (by omega)
        have byte : ((next >>> UInt32.ofNat (valb + 6).toNat) &&& 0xff).toUInt8.toNat =
            ((next >>> UInt32.ofNat (valb + 6).toNat) &&& 0xff).toNat := by
          rw [UInt32.toNat_toUInt8, toNat_digit (v := 8) rfl (by omega), Nat.mod_mod]
        obtain ⟨left, short, same⟩ := rest next (valb + 6 - 8) (by omega) (by omega)
        refine ⟨left, short, ?_⟩
        rw [show (valb + 8).toNat + 6 = 8 + (valb + 6).toNat by omega, first, List.append_assoc,
          show (valb + 6).toNat = (valb + 6 - 8 + 8).toNat by omega, same]
        rw [bitsOf, bitsOf, List.map_cons, List.flatMap_cons, List.append_assoc,
          show (valb + 6 - 8 + 8).toNat = (valb + 6).toNat by omega, byte]
      · rename_i short
        obtain ⟨left, few, same⟩ := rest next (valb + 6) (by omega) (by omega)
        refine ⟨left, few, ?_⟩
        rw [show (valb + 8).toNat + 6 = (valb + 6 + 8).toNat by omega, same]

/-- What the client sends is what the node reads. -/
theorem base64Decode_base64Encode (s : List UInt8) : base64Decode (Cli.base64Encode s) = s := by
  obtain ⟨ds, zeros, small, ⟨padding, sent⟩, same, few⟩ := Cli.base64Encode_spec s
  obtain ⟨left, short, read⟩ := @decodeFrom_spec padding ds 0 (-8) small le_rfl (by decide)
  rw [show ((-8 : Int) + 8).toNat = 0 from rfl, bits, List.nil_append, same, ← sent] at read
  have byte (s : List UInt8) : ∀ d ∈ s.map (·.toNat), d < 2 ^ 8 := by
    intro d mem
    obtain ⟨c, -, rfl⟩ := List.mem_map.mp mem
    exact c.toNat_lt
  have found := flatMap_bits_inj read (by rw [List.length_replicate]; omega) short (byte _) (byte _)
  exact (List.map_injective_iff.mpr (fun a b => UInt8.toNat_inj.mp) found).symm

/-! ### The comparison -/

theorem timingSafeEqual_iff {a b : List UInt8} : timingSafeEqual a b = true ↔ a = b := by
  have loop : ∀ (l : List Nat) (start : UInt8),
      l.foldl (fun diff i => diff ||| (a.getD i 0 ^^^ b.getD i 0)) start = 0 ↔
        start = 0 ∧ ∀ i ∈ l, a.getD i 0 = b.getD i 0 := by
    intro l
    induction l with
    | nil => simp
    | cons i l ih =>
        intro start
        rw [List.foldl_cons, ih, UInt8.or_eq_zero_iff, UInt8.xor_eq_zero_iff, List.forall_mem_cons,
          and_assoc]
  rw [timingSafeEqual, decide_eq_true_iff, loop]
  constructor
  · rintro ⟨start, all⟩
    split at start
    · cases start
    rename_i length
    rw [not_not] at length
    rw [if_neg (by omega : ¬ b.length < a.length)] at all
    refine List.ext_getElem length fun i lt lt' => ?_
    have same := all i (List.mem_range.mpr lt')
    rwa [List.getD_eq_getElem _ _ lt, List.getD_eq_getElem _ _ lt'] at same
  · rintro rfl
    simp

/-- A login is let in just where both halves are those configured. -/
theorem checkAuth_iff {user password mRPCUser mRPCPassword : List UInt8} (named : user ≠ [])
    (plain : 58 ∉ user) (secret : password ≠ []) :
    checkAuth mRPCUser mRPCPassword (Cli.base64Encode (user ++ 58 :: password)) = true ↔
      user = mRPCUser ∧ password = mRPCPassword := by
  have some : user ++ 58 :: password ≠ [] :=
    List.append_ne_nil_of_right_ne_nil _ (List.cons_ne_nil _ _)
  have sent : Cli.base64Encode (user ++ 58 :: password) ≠ [] := by
    intro none
    have read := base64Decode_base64Encode (user ++ 58 :: password)
    rw [none] at read
    exact some read.symm
  have before := List.length_pos_iff.mpr named
  have behind := List.length_pos_iff.mpr secret
  have inside : ¬ (user.length = 0 ∨ user.length = (user ++ 58 :: password).length - 1) := by
    rw [List.length_append, List.length_cons]
    omega
  rw [checkAuth, if_neg sent, base64Decode_base64Encode]
  dsimp only
  rw [if_neg some, StdString.idxOf?_append_cons plain]
  dsimp only
  rw [if_neg inside, List.take_left, ← List.drop_drop, List.drop_left, List.drop_one,
    List.tail_cons, Bool.and_eq_true, timingSafeEqual_iff, timingSafeEqual_iff]

end Rpc

/-- **Basic authentication.** Every string comes back from base 64, so a user without
a colon is let in with exactly the user and the password that are configured. -/
theorem basic_auth_exact :
    (∀ s, Rpc.base64Decode (Cli.base64Encode s) = s) ∧
      ∀ mRPCUser mRPCPassword user password : List UInt8,
        user ≠ [] → 58 ∉ user → password ≠ [] →
        (Rpc.checkAuth mRPCUser mRPCPassword (Cli.base64Encode (user ++ 58 :: password)) = true ↔
          user = mRPCUser ∧ password = mRPCPassword) :=
  ⟨Rpc.base64Decode_base64Encode, fun _ _ _ _ named plain secret =>
    Rpc.checkAuth_iff named plain secret⟩

theorem basic_auth_exact_colon_in_password :
    Rpc.checkAuth [97] [58, 98] (Cli.base64Encode ([97] ++ 58 :: [58, 98])) = true ↔
      ([97] : List UInt8) = [97] ∧ ([58, 98] : List UInt8) = [58, 98] :=
  basic_auth_exact.2 [97] [58, 98] [97] [58, 98] (by decide) (by decide) (by decide)

end QmaskCore
