import QmaskCore.Lib.LittleEndian

/-!
`bytes32`, the 32-byte string that names blocks, transactions, keys and
chain work.

A `Bytes32` is held as the 256-bit number its bytes denote, most significant
byte first; `toBytes` and `ofBytes` are the two directions, and
`ofBytes_toBytes` says nothing is lost. The program only compares these
values, tests them for all zeros and copies their bytes.
-/

namespace QmaskCore

open LittleEndian

/-- `std::array<uint8_t, 32>`, as the number its bytes spell in big-endian order. -/
abbrev Bytes32 := BitVec 256

/-- `std::array<uint8_t, 64>`. -/
abbrev Bytes64 := BitVec 512

instance lawfulBEqBytes32 : LawfulBEq Bytes32 := inferInstance

/-- A numeral is an index into eight words and into sixteen. -/
instance neZeroEight : NeZero 8 := ⟨by decide⟩

instance neZeroSixteen : NeZero 16 := ⟨by decide⟩

/-- The 32 bytes of the array, in order. -/
def Bytes32.toBytes (h : Bytes32) : List UInt8 := (leBytes 32 h.toNat).reverse

/-- The array a 32-byte string fills. -/
def Bytes32.ofBytes (l : List UInt8) : Bytes32 := BitVec.ofNat 256 (ofLE l.reverse)

@[simp] theorem Bytes32.length_toBytes (h : Bytes32) : h.toBytes.length = 32 := by
  simp [Bytes32.toBytes]

@[simp] theorem Bytes32.ofBytes_toBytes (h : Bytes32) : Bytes32.ofBytes h.toBytes = h := by
  have fits : h.toNat < 256 ^ 32 := h.isLt
  simp [Bytes32.ofBytes, Bytes32.toBytes, ofLE_leBytes_of_lt fits]

theorem Bytes32.toBytes_inj {a b : Bytes32} (same : a.toBytes = b.toBytes) : a = b := by
  rw [← a.ofBytes_toBytes, same, b.ofBytes_toBytes]

theorem Bytes32.append_toBytes_inj {a b c d : Bytes32}
    (same : a.toBytes ++ b.toBytes = c.toBytes ++ d.toBytes) : (a, b) = (c, d) := by
  obtain ⟨first, second⟩ := List.append_inj same (by simp)
  rw [toBytes_inj first, toBytes_inj second]

theorem Bytes32.toBytes_ofBytes {l : List UInt8} (length : l.length = 32) :
    (Bytes32.ofBytes l).toBytes = l := by
  have fits : ofLE l.reverse < 2 ^ 256 := by
    have small := ofLE_lt l.reverse
    rwa [List.length_reverse, length] at small
  have whole := leBytes_ofLE l.reverse
  rw [List.length_reverse, length] at whole
  rw [Bytes32.toBytes, Bytes32.ofBytes, BitVec.toNat_ofNat, Nat.mod_eq_of_lt fits, whole,
    List.reverse_reverse]

def Bytes64.toBytes (h : Bytes64) : List UInt8 := (leBytes 64 h.toNat).reverse

@[simp] theorem Bytes64.length_toBytes (h : Bytes64) : h.toBytes.length = 64 := by
  simp [Bytes64.toBytes]

theorem toNat_lt_pow {k : Nat} (h : BitVec (8 * k)) : h.toNat < 256 ^ k := by
  have bound := h.isLt
  rwa [Nat.pow_mul] at bound

theorem Bytes64.toBytes_inj {a b : Bytes64} (same : a.toBytes = b.toBytes) : a = b := by
  have back (h : Bytes64) : ofLE h.toBytes.reverse = h.toNat := by
    rw [Bytes64.toBytes, List.reverse_reverse, ofLE_leBytes_of_lt (@toNat_lt_pow 64 h)]
  rw [← BitVec.toNat_inj, ← back a, same, back b]

/-- `std::array<uint8_t, 16>`. -/
abbrev Bytes16 := BitVec 128

def Bytes16.toBytes (h : Bytes16) : List UInt8 := (leBytes 16 h.toNat).reverse

def Bytes16.ofBytes (l : List UInt8) : Bytes16 := BitVec.ofNat 128 (ofLE l.reverse)

@[simp] theorem Bytes16.length_toBytes (h : Bytes16) : h.toBytes.length = 16 := by
  simp [Bytes16.toBytes]

@[simp] theorem Bytes16.ofBytes_toBytes (h : Bytes16) : Bytes16.ofBytes h.toBytes = h := by
  have fits : h.toNat < 256 ^ 16 := h.isLt
  simp [Bytes16.ofBytes, Bytes16.toBytes, ofLE_leBytes_of_lt fits]

/-- `WriteLE32`. -/
def writeLE32 (v : UInt32) : List UInt8 := leBytes 4 v.toNat

/-- `WriteLE64`. -/
def writeLE64 (v : UInt64) : List UInt8 := leBytes 8 v.toNat

/-- `ReadLE32`, over the bytes from the current offset on. -/
def readLE32 (rest : List UInt8) : UInt32 := UInt32.ofNat (ofLE (rest.take 4))

/-- `ReadLE64`, over the bytes from the current offset on. -/
def readLE64 (rest : List UInt8) : UInt64 := UInt64.ofNat (ofLE (rest.take 8))

@[simp] theorem length_writeLE32 (v : UInt32) : (writeLE32 v).length = 4 := length_leBytes _ _

@[simp] theorem length_writeLE64 (v : UInt64) : (writeLE64 v).length = 8 := length_leBytes _ _

@[simp] theorem readLE32_writeLE32 (v : UInt32) (rest : List UInt8) :
    readLE32 (writeLE32 v ++ rest) = v := by
  have fits : v.toNat < 256 ^ 4 := v.toNat_lt
  rw [readLE32, List.take_left' (length_writeLE32 v), writeLE32, ofLE_leBytes_of_lt fits]
  exact UInt32.ofNat_toNat

/-- Only the word itself is looked at. -/
theorem readLE32_take (bytes : List UInt8) : readLE32 (bytes.take 4) = readLE32 bytes := by
  rw [readLE32, List.take_take, Nat.min_self, readLE32]

/-- A word that is read is written the same. -/
theorem writeLE32_readLE32 {rest : List UInt8} (long : 4 ≤ rest.length) :
    writeLE32 (readLE32 rest) = rest.take 4 := by
  obtain ⟨fits, whole⟩ := leBytes_ofLE_take long
  rw [writeLE32, readLE32, UInt32.toNat_ofNat_of_lt' fits, whole]

@[simp] theorem readLE64_writeLE64 (v : UInt64) (rest : List UInt8) :
    readLE64 (writeLE64 v ++ rest) = v := by
  have fits : v.toNat < 256 ^ 8 := v.toNat_lt
  rw [readLE64, List.take_left' (length_writeLE64 v), writeLE64, ofLE_leBytes_of_lt fits]
  exact UInt64.ofNat_toNat

theorem writeLE64_readLE64 {rest : List UInt8} (long : 8 ≤ rest.length) :
    writeLE64 (readLE64 rest) = rest.take 8 := by
  obtain ⟨fits, whole⟩ := leBytes_ofLE_take long
  rw [writeLE64, readLE64, UInt64.toNat_ofNat_of_lt' fits, whole]

end QmaskCore
