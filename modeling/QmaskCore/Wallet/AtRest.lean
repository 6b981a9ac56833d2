import QmaskCore.Crypto.SecureEnc
import QmaskCore.Wallet.WalletManager

/-!
Secrets at rest.

`NoiseStore` keeps the noise file encrypted and `WalletManager` its entropy, both
with the functions of `SecureEnc`. `constantTimeEqual` is declared there and built
nowhere, so it is a parameter. `FileSealed` and `EntropySealed` are what the two
are for. Whether a file opens depends on the memory the reader's tag finds and on
nothing else (`decryptFromFile_encryptToFile`, `decryptEntropy_encryptEntropy`), so
no secret is ever kept sealed (`never_sealed`).
-/

namespace QmaskCore

namespace NoiseStore

def magic : List UInt8 := [0x4D, 0x4E, 0x5A, 0x32]

def version : UInt8 := 0x02

def authHeaderSize : Nat := 4 + 1 + 16 + 16

def buildAuthHeader (salt iv : Bytes16) : List UInt8 :=
  magic ++ [version] ++ salt.toBytes ++ iv.toBytes

@[simp] theorem length_buildAuthHeader (salt iv : Bytes16) :
    (buildAuthHeader salt iv).length = authHeaderSize := by
  simp [buildAuthHeader, magic, authHeaderSize]

/-- What is written to the file. `memory` is what the keys and the tag find in
the memory they are given. -/
def encryptToFile (memory : Bytes64 × Bytes32) (raw passphrase : List UInt8) (salt iv : Bytes16) :
    Option (List UInt8) :=
  if raw = [] then none
  else
    match SecureEnc.derive memory.1 passphrase salt.toBytes with
    | (false, _) => none
    | (true, keys) =>
        match SecureEnc.encryptCBC raw keys iv with
        | (false, _) => none
        | (true, cipher) =>
            let header := buildAuthHeader salt iv
            let tag := SecureEnc.computeTag keys header cipher memory.2
            some (header ++ tag.toBytes ++ cipher)

/-- The raw bytes read from a file, `none` where it is refused. -/
def decryptFromFile (constantTimeEqual : Bytes32 → Bytes32 → Bool) (memory : Bytes64 × Bytes32)
    (file passphrase : List UInt8) : Option (List UInt8) :=
  let header := file.take authHeaderSize
  let tag := Bytes32.ofBytes ((file.drop authHeaderSize).take 32)
  let cipher := file.drop (authHeaderSize + 32)
  if file.length < authHeaderSize + 32 then none
  else if header.take 4 ≠ magic ∨ header[4]? ≠ some version then none
  else if cipher = [] then none
  else
    match SecureEnc.derive memory.1 passphrase ((header.drop 5).take 16) with
    | (false, _) => none
    | (true, keys) =>
        let expectTag := SecureEnc.computeTag keys header cipher memory.2
        if constantTimeEqual expectTag tag = false then none
        else
          match SecureEnc.decryptCBC cipher keys (Bytes16.ofBytes (header.drop 21)) with
          | (false, _) => none
          | (true, plain) => some plain

/-- Where the salt begins; all that follows it may be changed. -/
def saltOffset : Nat := 4 + 1

/-- The passphrase `p` opens the file to the raw bytes, `q` does not, and neither
does `p` once a byte of the salt, the IV, the tag or the ciphertext is changed. -/
structure FileSealed (constantTimeEqual : Bytes32 → Bytes32 → Bool) (memory : Bytes64 × Bytes32)
    (file raw p q : List UInt8) : Prop where
  opens : decryptFromFile constantTimeEqual memory file p = some raw
  refuses : decryptFromFile constantTimeEqual memory file q = none
  guards : ∀ rest, ByteChanged (file.drop saltOffset) rest →
    decryptFromFile constantTimeEqual memory (file.take saltOffset ++ rest) p = none

/-- A file opens, under any passphrase, when the tags of the writer and of the
reader found the same bytes in the second half of their memory. -/
theorem decryptFromFile_encryptToFile {constantTimeEqual : Bytes32 → Bytes32 → Bool}
    (equal : ∀ a b, constantTimeEqual a b = decide (a = b)) {written memory : Bytes64 × Bytes32}
    {file raw p : List UInt8} {salt iv : Bytes16}
    (made : encryptToFile written raw p salt iv = some file) (q : List UInt8) :
    decryptFromFile constantTimeEqual memory file q =
      if memory.2.setWidth 128 = written.2.setWidth 128 then some raw else none := by
  rw [encryptToFile] at made
  split at made
  · cases made
  rename_i nonempty
  obtain rfl := Option.some.inj made
  have header : (buildAuthHeader salt iv).length = authHeaderSize := length_buildAuthHeader salt iv
  have front : (buildAuthHeader salt iv).take 4 = magic := by
    simp only [buildAuthHeader, List.append_assoc]
    exact List.take_left' rfl
  have next : (buildAuthHeader salt iv)[4]? = some version := rfl
  generalize buildAuthHeader salt iv = auth at header front next ⊢
  generalize stored : SecureEnc.computeTag written.1 auth raw written.2 = tag
  change decryptFromFile constantTimeEqual memory (auth ++ tag.toBytes ++ raw) q = _
  have size : ¬ (auth ++ tag.toBytes ++ raw).length < authHeaderSize + 32 := by
    simp [header]
  have authTag : (auth ++ tag.toBytes).length = authHeaderSize + 32 := by simp [header]
  have behind : (auth ++ tag.toBytes ++ raw).drop (authHeaderSize + 32) = raw :=
    List.drop_left' authTag
  have middle : ((auth ++ tag.toBytes ++ raw).drop authHeaderSize).take 32 = tag.toBytes := by
    rw [List.append_assoc, List.drop_left' header, List.take_left' tag.length_toBytes]
  have head : (auth ++ tag.toBytes ++ raw).take authHeaderSize = auth := by
    rw [List.append_assoc, List.take_left' header]
  simp only [decryptFromFile, size, behind, middle, head, front, next, nonempty, if_false, ne_eq,
    not_true_eq_false, or_self, SecureEnc.derive, SecureEnc.decryptCBC, Bytes32.ofBytes_toBytes, equal]
  by_cases same : memory.2.setWidth 128 = written.2.setWidth 128
  · rw [if_pos same, ← stored, decide_eq_true (SecureEnc.computeTag_eq_iff.mpr same)]
    rfl
  · have differ : SecureEnc.computeTag memory.1 auth raw memory.2 ≠ tag := by
      rw [← stored]
      exact fun tags => same (SecureEnc.computeTag_eq_iff.mp tags)
    rw [if_neg same, decide_eq_false differ]
    rfl

end NoiseStore

namespace WalletManager

/-- The wallet with the functions of `SecureEnc`, over the memory they find. -/
def withSecureEnc (K : WalletParams) (memory : Bytes64 × Bytes32) : WalletParams :=
  { K with
    derive passphrase salt :=
      match SecureEnc.derive memory.1 passphrase salt.toBytes with
      | (true, keys) => some keys
      | (false, _) => none
    encryptCBC keys iv plain :=
      match SecureEnc.encryptCBC plain keys iv with
      | (true, cipher) => some cipher
      | (false, _) => none
    decryptCBC keys iv cipher :=
      match SecureEnc.decryptCBC cipher keys iv with
      | (true, plain) => some plain
      | (false, _) => none
    computeTag keys header cipher := SecureEnc.computeTag keys header cipher memory.2 }

/-- The passphrase `p` opens the secret to the entropy, `q` does not, and neither
does `p` once a byte of the salt, the IV, the tag or the ciphertext is changed. -/
structure EntropySealed (K : WalletParams) (memory : Bytes64 × Bytes32) (w : WalletManager)
    (entropy p q : List UInt8) : Prop where
  opens : decryptEntropy (withSecureEnc K memory) p w = some entropy
  refuses : decryptEntropy (withSecureEnc K memory) q w = none
  salt : ∀ salt, ByteChanged w.mSalt.toBytes salt.toBytes →
    decryptEntropy (withSecureEnc K memory) p { w with mSalt := salt } = none
  iv : ∀ iv, ByteChanged w.mIV.toBytes iv.toBytes →
    decryptEntropy (withSecureEnc K memory) p { w with mIV := iv } = none
  tag : ∀ tag, ByteChanged w.mTag.toBytes tag.toBytes →
    decryptEntropy (withSecureEnc K memory) p { w with mTag := tag } = none
  cipher : ∀ cipher, ByteChanged w.mEncryptedEntropy cipher →
    decryptEntropy (withSecureEnc K memory) p { w with mEncryptedEntropy := cipher } = none

/-- The tag is written over the one the wallet had. Any passphrase opens the
secret when the reader's tag finds the second half of that one in its memory. -/
theorem decryptEntropy_encryptEntropy (K : WalletParams) {keys : Bytes64}
    {memory : Bytes64 × Bytes32} {entropy p : List UInt8} {salt : Bytes32} {iv : Bytes16}
    (nonempty : entropy ≠ []) (w : WalletManager) (q : List UInt8) :
    decryptEntropy (withSecureEnc K memory) q
        (encryptEntropy (withSecureEnc K (keys, w.mTag)) p entropy salt iv w).2 =
      if memory.2.setWidth 128 = w.mTag.setWidth 128 then some entropy else none := by
  change (if entropy = [] then none
    else if SecureEnc.computeTag memory.1 (WalletManager.buildAuthHeader salt iv) entropy memory.2 ≠
        SecureEnc.computeTag keys (WalletManager.buildAuthHeader salt iv) entropy w.mTag then none
    else some entropy) = _
  rw [if_neg nonempty]
  by_cases same : memory.2.setWidth 128 = w.mTag.setWidth 128
  · rw [if_pos same, if_neg (not_not.mpr (SecureEnc.computeTag_eq_iff.mpr same))]
  · rw [if_neg same, if_pos fun tags => same (SecureEnc.computeTag_eq_iff.mp tags)]

end WalletManager

open NoiseStore WalletManager in
/-- **Nothing is sealed.** Whatever was written under whichever passphrase, and
whatever the reader finds in its memory, the file and the wallet's secret are not
as they should be: another passphrase opens what the right one does. -/
theorem never_sealed (constantTimeEqual : Bytes32 → Bytes32 → Bool) (K : WalletParams)
    (memory : Bytes64 × Bytes32) (file raw p q entropy : List UInt8) (w : WalletManager) :
    ¬ FileSealed constantTimeEqual memory file raw p q ∧ ¬ EntropySealed K memory w entropy p q := by
  constructor
  · rintro ⟨opens, refuses, -⟩
    have same : decryptFromFile constantTimeEqual memory file p =
        decryptFromFile constantTimeEqual memory file q := rfl
    rw [opens, refuses] at same
    cases same
  · rintro ⟨opens, refuses, -⟩
    have same : decryptEntropy (withSecureEnc K memory) p w =
        decryptEntropy (withSecureEnc K memory) q w := rfl
    rw [opens, refuses] at same
    cases same

open NoiseStore in
/-- A file of one byte written under one passphrase opens under another. -/
theorem other_passphrase_opens :
    ¬ ∀ raw p q file : List UInt8, raw ≠ [] → p ≠ q →
      encryptToFile (0, 0) raw p 0 0 = some file →
      FileSealed (fun a b => decide (a = b)) (0, 0) file raw p q := by
  intro sealed
  have written : encryptToFile (0, 0) [1] [1] 0 0 =
      some (buildAuthHeader 0 0 ++ Bytes32.toBytes 0 ++ [1]) := rfl
  have refused := (sealed [1] [1] [2] _ (by decide) (by decide) written).refuses
  rw [decryptFromFile_encryptToFile (fun _ _ => rfl) written [2], if_pos rfl] at refused
  cases refused

end QmaskCore
