import Mathlib.Data.List.Induction
import QmaskCore.Lib.BigEndian

/-!
Numbers and bytes as hexadecimal text, the highest digit first.

`text` is the number of digits asked for, of a number that may be longer, and
`text_inj` says what it keeps of it. `ofBytes` writes a byte string, which is the
text of the number it spells (`ofBytes_eq_text`).
-/

namespace Hex

open BigEndian LittleEndian

/-- `"0123456789abcdef"`. -/
def digits : List UInt8 := [48, 49, 50, 51, 52, 53, 54, 55, 56, 57, 97, 98, 99, 100, 101, 102]

/-- The lowest digit of a number. -/
def digit (n : Nat) : UInt8 := digits.getD (n % 16) 0

/-- The lowest `len` digits of a number. -/
def text : Nat → Nat → List UInt8
  | 0, _ => []
  | len + 1, n => text len (n / 16) ++ [digit n]

/-- The two digits of a byte. -/
def pair (b : UInt8) : List UInt8 :=
  [digits.getD ((b >>> 4) &&& 0x0f).toNat 0, digits.getD (b &&& 0x0f).toNat 0]

def ofBytes (l : List UInt8) : List UInt8 := l.flatMap pair

theorem digit_inj {n m : Nat} (same : digit n = digit m) : n % 16 = m % 16 := by
  have apart : ∀ i : Fin 16, ∀ j : Fin 16, digits.getD i 0 = digits.getD j 0 → i = j := by decide
  have below (k : Nat) : k % 16 < 16 := Nat.mod_lt k (by decide)
  exact Fin.mk.inj_iff.mp (apart ⟨n % 16, below n⟩ ⟨m % 16, below m⟩ same)

/-- A text says what the number is, up to the digits that are not written. -/
theorem text_inj : ∀ {len n m : Nat}, text len n = text len m ↔ n % 16 ^ len = m % 16 ^ len := by
  intro len
  induction len with
  | zero => simp [text, Nat.mod_one]
  | succ len ih =>
      intro n m
      rw [text, text, List.append_singleton_inj, ih, Nat.pow_succ, Nat.mul_comm, Nat.mod_mul,
        Nat.mod_mul]
      constructor
      · rintro ⟨high, low⟩
        rw [high, digit_inj low]
      · intro same
        have low : n % 16 = m % 16 := by omega
        refine ⟨by omega, ?_⟩
        rw [digit, digit, low]

theorem pair_eq (b : UInt8) : pair b = [digit (b.toNat / 16), digit b.toNat] := by
  have mask : ∀ x : UInt8, (x &&& 0x0f).toNat = x.toNat % 16 := by
    intro x
    rw [UInt8.toNat_and]
    exact Nat.and_two_pow_sub_one_eq_mod x.toNat 4
  have high : (b >>> 4).toNat = b.toNat / 16 := by
    rw [UInt8.toNat_shiftRight]
    exact Nat.shiftRight_eq_div_pow b.toNat 4
  rw [pair, digit, digit, mask, mask, high]

theorem ofBE_concat (l : List UInt8) (b : UInt8) : ofBE (l ++ [b]) = 256 * ofBE l + b.toNat := by
  rw [ofBE, List.reverse_append, List.reverse_singleton, List.singleton_append, ofLE, ofBE,
    Nat.add_comm]

/-- The digits of the bytes are those of the number. -/
theorem ofBytes_eq_text (l : List UInt8) : ofBytes l = text (2 * l.length) (ofBE l) := by
  induction l using List.reverseRecOn with
  | nil => rfl
  | append_singleton l b ih =>
      have small := b.toNat_lt
      have high : (256 * ofBE l + b.toNat) / 16 / 16 = ofBE l := by omega
      have middle : digit ((256 * ofBE l + b.toNat) / 16) = digit (b.toNat / 16) := by
        rw [digit, digit]
        congr 1
        omega
      have low : digit (256 * ofBE l + b.toNat) = digit b.toNat := by
        rw [digit, digit]
        congr 1
        omega
      have length : 2 * (l ++ [b]).length = 2 * l.length + 1 + 1 := by
        rw [List.length_append, List.length_singleton]
        omega
      rw [ofBytes, List.flatMap_append, ← ofBytes, ih, List.flatMap_singleton, pair_eq, length,
        ofBE_concat, text, text, high, middle, low, List.append_assoc]
      rfl

end Hex
