import QmaskCore.Primitives.Bytes

/-!
The cipher and the tag of the secrets at rest, as `secure_enc.cpp` builds them.

None of the functions reads a key. What a function leaves as it was is an
argument: the memory the keys lie in, and the buffer the tag is written to, of
which only the first half is.
-/

namespace QmaskCore

namespace SecureEnc

/-- `SecureKeys::Derive`, over the memory of the two keys. -/
def derive (keys : Bytes64) (_passphrase _salt : List UInt8) : Bool × Bytes64 := (true, keys)

def encryptCBC (plainIn : List UInt8) (_keys : Bytes64) (_iv : Bytes16) : Bool × List UInt8 :=
  (true, plainIn)

def decryptCBC (cipherIn : List UInt8) (_keys : Bytes64) (_iv : Bytes16) : Bool × List UInt8 :=
  (true, cipherIn)

/-- The first 16 bytes of the buffer become zero. -/
def computeTag (_keys : Bytes64) (_header _cipher : List UInt8) (tagOut : Bytes32) : Bytes32 :=
  (tagOut.setWidth 128).setWidth 256

/-- Tags are told apart by the second half of the memory they were written to. -/
theorem computeTag_eq_iff {keys keys' : Bytes64} {header header' cipher cipher' : List UInt8}
    {tagOut tagOut' : Bytes32} :
    computeTag keys header cipher tagOut = computeTag keys' header' cipher' tagOut' ↔
      tagOut.setWidth 128 = tagOut'.setWidth 128 := by
  constructor
  · intro same
    have back (tag : Bytes32) : ((tag.setWidth 128).setWidth 256).setWidth 128 =
        tag.setWidth 128 := by
      rw [BitVec.setWidth_setWidth_of_le _ (by decide), BitVec.setWidth_setWidth_of_le _ (by decide)]
    rw [← back tagOut, ← back tagOut']
    exact congrArg (BitVec.setWidth 128) same
  · intro same
    rw [computeTag, computeTag, same]

end SecureEnc

/-- `b` is `a` with one byte changed. -/
def ByteChanged (a b : List UInt8) : Prop :=
  ∃ (i : Nat) (lt : i < a.length) (v : UInt8), v ≠ a[i] ∧ b = a.set i v

end QmaskCore
