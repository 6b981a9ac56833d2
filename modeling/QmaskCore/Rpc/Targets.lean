import QmaskCore.Crypto.ArithUint256
import QmaskCore.Lib.Hex

/-!
The target a block template shows to a miner.

`targetFromBits` places the bytes of the mantissa by hand, where the validator
shifts a number (`setCompact`). `bytesFromBits_eq` says where the bytes are, and
`target_from_bits_iff` for which compact values the two agree.
-/

namespace QmaskCore

open ArithUint256 BigEndian

namespace Rpc

/-- The bytes of the target, the highest first. -/
def bytesFromBits (bits : UInt32) : List UInt8 :=
  let exponent := (bits >>> 24).toNat
  let mantissa := bits &&& 0x007fffff
  let target : List UInt8 := List.replicate 32 0
  if exponent ≤ 3 then
    let shifted := mantissa >>> UInt32.ofNat (8 * (3 - exponent))
    let target := target.set 31 (shifted &&& 0xff).toUInt8
    let target := if 2 ≤ exponent then target.set 30 ((shifted >>> 8) &&& 0xff).toUInt8 else target
    if 3 ≤ exponent then target.set 29 ((shifted >>> 16) &&& 0xff).toUInt8 else target
  else if exponent ≤ 32 then
    let last := 32 - exponent
    if last + 2 < 32 then
      ((target.set last ((mantissa >>> 16) &&& 0xff).toUInt8).set (last + 1)
        ((mantissa >>> 8) &&& 0xff).toUInt8).set (last + 2) (mantissa &&& 0xff).toUInt8
    else target
  else target

/-- `TargetFromBits`. -/
def targetFromBits (bits : UInt32) : List UInt8 := Hex.ofBytes (bytesFromBits bits)

/-! ### The number the bytes spell -/

/-- A byte of a word. -/
theorem toNat_byte (w : UInt32) {n : Nat} (inside : n < 4) :
    ((w >>> UInt32.ofNat (8 * n)) &&& 0xff).toUInt8.toNat = w.toNat / 256 ^ n % 256 := by
  rw [UInt32.toNat_toUInt8, UInt32.toNat_and, toNat_shiftRight_bytes w inside]
  change (w.toNat / 256 ^ n &&& 2 ^ 8 - 1) % 2 ^ 8 = _
  rw [Nat.and_two_pow_sub_one_eq_mod, Nat.mod_mod]

theorem byte_eq_zero {w : UInt32} {n : Nat} (inside : n < 4) (small : w.toNat < 256 ^ n) :
    ((w >>> UInt32.ofNat (8 * n)) &&& 0xff).toUInt8 = 0 := by
  rw [← UInt8.toNat_inj, toNat_byte w inside, Nat.div_eq_of_lt small]
  rfl

theorem ofLE_replicate_append (k : Nat) (l : List UInt8) :
    LittleEndian.ofLE (List.replicate k 0 ++ l) = 256 ^ k * LittleEndian.ofLE l := by
  induction k with
  | zero => simp
  | succ k ih =>
      rw [List.replicate_succ, List.cons_append, LittleEndian.ofLE, ih, Nat.pow_succ]
      simp
      ring

/-- Zeros in front of a byte string add nothing, those behind it are places. -/
theorem ofBE_zeros (before behind : Nat) (l : List UInt8) :
    ofBE (List.replicate before 0 ++ l ++ List.replicate behind 0) = 256 ^ behind * ofBE l := by
  have none : LittleEndian.ofLE (List.replicate before 0) = 0 := by
    have zeros := ofLE_replicate_append before []
    rwa [List.append_nil, LittleEndian.ofLE, Nat.mul_zero] at zeros
  rw [ofBE, List.reverse_append, List.reverse_append, List.reverse_replicate,
    List.reverse_replicate, ofLE_replicate_append, LittleEndian.ofLE_append, none, Nat.mul_zero,
    Nat.add_zero, ofBE]

/-- Three bytes put among zeros. -/
theorem set_three (last k : Nat) (a b c : UInt8) :
    (((List.replicate (last + 3 + k) (0 : UInt8)).set last a).set (last + 1) b).set (last + 2) c =
      List.replicate last 0 ++ [a, b, c] ++ List.replicate k 0 := by
  have split : List.replicate (last + 3 + k) (0 : UInt8) =
      List.replicate last 0 ++ ([0, 0, 0] ++ List.replicate k 0) := by
    rw [← List.append_assoc, List.replicate_add, List.replicate_add]
    rfl
  have behind (n : Nat) : (List.replicate last (0 : UInt8)).length ≤ last + n := by simp
  rw [split, List.set_append_right last _ (behind 0), List.set_append_right _ _ (behind 1),
    List.set_append_right _ _ (behind 2), List.append_assoc, List.length_replicate, Nat.sub_self,
    Nat.add_sub_cancel_left, Nat.add_sub_cancel_left]
  rfl

theorem ofBE_three (a b c : UInt8) :
    ofBE [a, b, c] = 65536 * a.toNat + 256 * b.toNat + c.toNat := by
  simp only [ofBE, List.reverse_cons, List.reverse_nil, List.nil_append, List.cons_append,
    LittleEndian.ofLE]
  omega

/-- The bytes of a word of three. -/
theorem ofBE_bytes {w : UInt32} (small : w.toNat < 2 ^ 24) :
    ofBE [((w >>> 16) &&& 0xff).toUInt8, ((w >>> 8) &&& 0xff).toUInt8, (w &&& 0xff).toUInt8] =
      w.toNat := by
  have high := toNat_byte w (n := 2) (by decide)
  have middle := toNat_byte w (n := 1) (by decide)
  have low := toNat_byte w (n := 0) (by decide)
  have whole : w >>> UInt32.ofNat (8 * 0) = w := by
    rw [← UInt32.toNat_inj, toNat_shiftRight_bytes w (by decide), Nat.pow_zero, Nat.div_one]
  rw [whole] at low
  rw [ofBE_three]
  change _ = w.toNat / 256 ^ 2 % 256 at high
  change _ = w.toNat / 256 ^ 1 % 256 at middle
  rw [show (16 : UInt32) = UInt32.ofNat (8 * 2) from rfl, high,
    show (8 : UInt32) = UInt32.ofNat (8 * 1) from rfl, middle, low]
  omega

theorem length_bytesFromBits (bits : UInt32) : (bytesFromBits bits).length = 32 := by
  unfold bytesFromBits
  dsimp only
  split
  · split <;> split <;> simp
  · split
    · split <;> simp
    · simp

/-- The bytes of a short number: those that are not placed are zero anyway. -/
theorem ofBE_low {w : UInt32} {exponent : Nat} (small : exponent ≤ 3)
    (few : w.toNat < 256 ^ exponent) :
    let target := (List.replicate 32 (0 : UInt8)).set 31 (w &&& 0xff).toUInt8
    let target := if 2 ≤ exponent then target.set 30 ((w >>> 8) &&& 0xff).toUInt8 else target
    ofBE (if 3 ≤ exponent then target.set 29 ((w >>> 16) &&& 0xff).toUInt8 else target) =
      w.toNat := by
  dsimp only
  have fits : 256 ^ exponent ≤ 256 ^ 3 := Nat.pow_le_pow_right (by decide) small
  have spelled := ofBE_zeros 29 0 [((w >>> 16) &&& 0xff).toUInt8, ((w >>> 8) &&& 0xff).toUInt8,
    (w &&& 0xff).toUInt8]
  rw [ofBE_bytes (by omega), Nat.pow_zero, Nat.one_mul] at spelled
  rw [← spelled]
  congr 1
  by_cases two : 2 ≤ exponent
  · rw [if_pos two]
    split
    · rfl
    · have third := byte_eq_zero (n := 2) (by decide)
        (few.trans_le (Nat.pow_le_pow_right (by decide) (by omega : exponent ≤ 2)))
      rw [show (16 : UInt32) = UInt32.ofNat (8 * 2) from rfl, third]
      rfl
  · have third := byte_eq_zero (n := 2) (by decide)
      (few.trans_le (Nat.pow_le_pow_right (by decide) (by omega : exponent ≤ 2)))
    have second := byte_eq_zero (n := 1) (by decide)
      (few.trans_le (Nat.pow_le_pow_right (by decide) (by omega : exponent ≤ 1)))
    rw [if_neg two, if_neg (by omega : ¬ 3 ≤ exponent),
      show (16 : UInt32) = UInt32.ofNat (8 * 2) from rfl, third,
      show (8 : UInt32) = UInt32.ofNat (8 * 1) from rfl, second]
    rfl

/-- The bytes spell the number that size and mantissa denote, if it has no more than
32 of them. -/
theorem ofBE_bytesFromBits (bits : UInt32) : ofBE (bytesFromBits bits) =
    if bits.toNat / 2 ^ 24 ≤ 32 then Compact.decode (bits.toNat / 2 ^ 24) (bits.toNat % 2 ^ 23)
    else 0 := by
  have mantissa := toNat_mantissa bits
  have below : (bits &&& 0x007fffff).toNat < 2 ^ 23 := by
    rw [mantissa]
    exact Nat.mod_lt _ (Nat.two_pow_pos 23)
  rw [bytesFromBits, toNat_size, ← mantissa]
  generalize bits.toNat / 2 ^ 24 = exponent
  generalize bits &&& 0x007fffff = m at below
  dsimp only
  by_cases small : exponent ≤ 3
  · rw [if_pos small, if_pos (by omega : exponent ≤ 32), Compact.decode,
      show exponent - 3 = 0 by omega, Nat.pow_zero, Nat.mul_one,
      ← toNat_shiftRight_bytes m (n := 3 - exponent) (by omega)]
    have few : (m >>> UInt32.ofNat (8 * (3 - exponent))).toNat < 256 ^ exponent := by
      rw [toNat_shiftRight_bytes m (by omega), Nat.div_lt_iff_lt_mul (Compact.bytes_pos _),
        ← Nat.pow_add, show exponent + (3 - exponent) = 3 by omega]
      omega
    exact ofBE_low small few
  · rw [if_neg small]
    split
    · rename_i fits
      have three := set_three (32 - exponent) (exponent - 3) ((m >>> 16) &&& 0xff).toUInt8
        ((m >>> 8) &&& 0xff).toUInt8 (m &&& 0xff).toUInt8
      rw [show 32 - exponent + 3 + (exponent - 3) = 32 by omega] at three
      rw [if_pos (by omega : 32 - exponent + 2 < 32), three, ofBE_zeros, ofBE_bytes (by omega),
        Compact.decode, show 3 - exponent = 0 by omega, Nat.pow_zero, Nat.div_one, Nat.mul_comm]
    · exact ofBE_zeros 0 32 []

/-- The digits are those of the number the bytes spell. -/
theorem targetFromBits_eq (bits : UInt32) :
    targetFromBits bits = Hex.text 64 (ofBE (bytesFromBits bits)) := by
  rw [targetFromBits, Hex.ofBytes_eq_text, length_bytesFromBits]

/-! ### The number the validator compares with -/

/-- The array the validator makes of a target, as text. -/
theorem ofBytes_arithToBytes32 (a : ArithUint256) :
    Hex.ofBytes (arithToBytes32 a).toBytes = Hex.text 64 a.value := by
  have whole : ofBE (arithToBytes32 a).toBytes = a.value := by
    rw [ofBE, Bytes32.toBytes, List.reverse_reverse, ← toNat_arithToBytes32 a]
    exact LittleEndian.ofLE_leBytes_of_lt (arithToBytes32 a).isLt
  rw [Hex.ofBytes_eq_text, Bytes32.length_toBytes, whole]

/-- What does not overflow has 256 bits. -/
theorem decode_lt {bits : UInt32} (fits : (setCompact bits).2.2 = false) :
    Compact.decode (bits.toNat / 2 ^ 24) (bits.toNat % 2 ^ 23) < 2 ^ 256 := by
  have below : bits.toNat % 2 ^ 23 < 2 ^ 23 := Nat.mod_lt _ (Nat.two_pow_pos 23)
  have word := toNat_mantissa bits
  have bounded {m k n : Nat} (few : m < 2 ^ k) (room : k + 8 * n ≤ 256) : m * 256 ^ n < 2 ^ 256 :=
    calc m * 256 ^ n < 2 ^ k * 256 ^ n := Nat.mul_lt_mul_of_pos_right few (Compact.bytes_pos n)
      _ = 2 ^ (k + 8 * n) := by rw [Compact.pow_bytes, Nat.pow_add]
      _ ≤ 2 ^ 256 := Nat.pow_le_pow_right (by decide) room
  simp only [setCompact, toNat_size] at fits
  generalize bits.toNat / 2 ^ 24 = size at fits
  rw [← word] at below ⊢
  generalize bits &&& 0x007fffff = m at fits below
  rw [Compact.decode]
  by_cases small : size ≤ 3
  · rw [show size - 3 = 0 by omega]
    exact bounded ((Nat.div_le_self _ _).trans_lt below) (by decide)
  · rw [if_neg small, Bool.and_eq_false_iff] at fits
    rw [show 3 - size = 0 by omega, Nat.pow_zero, Nat.div_one]
    rcases fits with zero | fits
    · have none : m = 0 := not_not.mp (of_decide_eq_false zero)
      simp [none]
    · simp only [Bool.or_eq_false_iff, Bool.and_eq_false_iff, decide_eq_false_iff_not,
        UInt32.lt_iff_toNat_lt, UInt32.reduceToNat] at fits
      obtain ⟨⟨most, wider⟩, wide⟩ := fits
      rcases (by omega : size ≤ 32 ∨ size = 33 ∨ size = 34) with usual | rfl | rfl
      · exact bounded below (by omega)
      · exact bounded (k := 16) (n := 30) (by omega) (by decide)
      · exact bounded (k := 8) (n := 31) (by omega) (by decide)

/-- **The target of a template.** For a compact value that is neither negative nor
too large, a miner is shown the number the validator compares with just where the
size is at most 32 bytes or there is nothing to place. -/
theorem target_from_bits_iff {bits : UInt32} (sound : (setCompact bits).2 = (false, false)) :
    targetFromBits bits = Hex.text 64 (setCompact bits).1.value ↔
      bits >>> 24 ≤ 32 ∨ bits &&& 0x007fffff = 0 := by
  have fits := decode_lt (congrArg Prod.snd sound)
  rw [targetFromBits_eq, Hex.text_inj, value_setCompact, ofBE_bytesFromBits, Nat.mod_eq_of_lt fits,
    UInt32.le_iff_toNat_le, toNat_size, ← UInt32.toNat_inj, toNat_mantissa]
  change _ ↔ _ ≤ 32 ∨ _ = 0
  generalize bits.toNat / 2 ^ 24 = size at fits ⊢
  generalize bits.toNat % 2 ^ 23 = m at fits ⊢
  by_cases inside : size ≤ 32
  · rw [if_pos inside]
    exact iff_of_true rfl (.inl inside)
  · have wide : (16 : Nat) ^ 64 = 2 ^ 256 := by norm_num
    rw [if_neg inside, wide, Nat.mod_eq_of_lt fits, Nat.zero_mod, Compact.decode,
      show 3 - size = 0 by omega, Nat.pow_zero, Nat.div_one]
    have place := Compact.bytes_pos (size - 3)
    constructor
    · intro zero
      exact .inr ((Nat.mul_eq_zero.mp zero.symm).resolve_right place.ne')
    · rintro (small | zero)
      · exact absurd small inside
      · rw [zero, Nat.zero_mul]

theorem target_from_bits_iff_easiest :
    targetFromBits 0x1d00ffff = Hex.text 64 (setCompact 0x1d00ffff).1.value ↔
      (0x1d00ffff : UInt32) >>> 24 ≤ 32 ∨ (0x1d00ffff : UInt32) &&& 0x007fffff = 0 :=
  target_from_bits_iff (by decide)

/-- A target of 33 bytes is shown as zero. -/
theorem widest_target_shown_as_zero :
    (setCompact 0x21008000).2 = (false, false) ∧ (setCompact 0x21008000).1.value = 2 ^ 255 ∧
      targetFromBits 0x21008000 = List.replicate 64 48 ∧
      ¬ ∀ bits, (setCompact bits).2 = (false, false) →
        targetFromBits bits = Hex.text 64 (setCompact bits).1.value := by
  have sound : (setCompact 0x21008000).2 = (false, false) := by decide
  have value : (setCompact 0x21008000).1.value = 2 ^ 255 := by decide +kernel
  have shown : targetFromBits 0x21008000 = List.replicate 64 48 := by decide +kernel
  refine ⟨sound, value, shown, fun all => ?_⟩
  have same := all 0x21008000 sound
  rw [value, shown] at same
  revert same
  decide +kernel

end Rpc

end QmaskCore
