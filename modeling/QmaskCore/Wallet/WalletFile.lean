import QmaskCore.Lib.Checks
import QmaskCore.Lib.Ifstream
import QmaskCore.Storage.UtxoSet
import QmaskCore.Wallet.NoisePool

/-!
The state of `WalletManager` and the file it is kept in.

`saveToFile` writes the file, `loadFromFile` reads any file back, stage by
stage: what a stage has read stays in the manager when a later one throws.
`loadFromFile_fileBytes` says what a file that was written reads back as: it is
restored exactly when the limits that only the reader checks are kept
(`Readable`).
-/

namespace QmaskCore

open Checks

/-- `NOISE_LEAF_COUNT_VALUE`. -/
def noiseLeafCountValue : Nat := 1048576

structure WalletAddress where
  pubkeyHash : Bytes32
  keyIndex : UInt32
  label : List UInt8
  isChange : Bool
deriving DecidableEq

/-- The data of a `WalletManager`, and of its file on disk. A noise file is
loaded when there is one: `mNoiseLoaded` is `mNoiseFile.isSome`. The seed is
empty or has its 64 bytes. -/
structure WalletManager where
  /-- What the file at the path holds. -/
  mWalletFile : Option (List UInt8)
  mLocked : Bool
  mInitialized : Bool
  mEncryptedEntropy : List UInt8
  mSalt : Bytes32
  mIV : Bytes16
  mTag : Bytes32
  mMasterPubkey : Bytes32
  mUnlockedSeed : Option Bytes64
  mAddresses : List WalletAddress
  mNextKeyIndex : UInt32
  mNextChangeIndex : UInt32
  mNoiseKps : Bytes32
  mNoiseFile : Option NoiseFile
  mNoiseNextLeaf : UInt32
  mNoiseUsed : List UInt8
  mHeldOutpoints : AList fun _ : OutPoint => Bytes32
deriving DecidableEq

/-- The text of a `WalletError`. -/
abbrev WalletError := String

namespace WalletManager

def walletVersion : UInt32 := 5
def walletVersionOld : UInt32 := 4
def maxEncryptedEntropySize : UInt32 := 48
def encBlockSize : UInt32 := 16
def maxAddresses : UInt32 := 1000000

/-- Bytes of a map with a bit for every leaf. -/
def mapBytes : Nat := (noiseLeafCountValue + 7) / 8

/-- The constructor. -/
def new (mWalletFile : Option (List UInt8)) : WalletManager where
  mWalletFile
  mLocked := true
  mInitialized := false
  mEncryptedEntropy := []
  mSalt := 0
  mIV := 0
  mTag := 0
  mMasterPubkey := 0
  mUnlockedSeed := none
  mAddresses := []
  mNextKeyIndex := 0
  mNextChangeIndex := 0
  mNoiseKps := 0
  mNoiseFile := none
  mNoiseNextLeaf := 0
  mNoiseUsed := []
  mHeldOutpoints := ∅

def isNoiseLeafUsed (index : UInt32) (w : WalletManager) : Bool :=
  Bitmap.testBit w.mNoiseUsed index.toNat

def markNoiseLeafUsed (index : UInt32) (w : WalletManager) : WalletManager :=
  let mNoiseUsed := if w.mNoiseUsed.length < mapBytes then resize w.mNoiseUsed mapBytes
    else w.mNoiseUsed
  { w with mNoiseUsed := Bitmap.setBit mNoiseUsed index.toNat }

/-! ### Writing -/

def writeAddress (addr : WalletAddress) : List UInt8 :=
  addr.pubkeyHash.toBytes ++ (writeLE32 addr.keyIndex ++ ([if addr.isChange then 1 else 0] ++
    (writeLE32 (UInt32.ofNat addr.label.length) ++ addr.label)))

def writeSecrets (w : WalletManager) : List UInt8 :=
  w.mMasterPubkey.toBytes ++ (w.mSalt.toBytes ++ (w.mIV.toBytes ++ (w.mTag.toBytes ++
    (writeLE32 (UInt32.ofNat w.mEncryptedEntropy.length) ++ w.mEncryptedEntropy))))

def writeAddresses (w : WalletManager) : List UInt8 :=
  writeLE32 (UInt32.ofNat w.mAddresses.length) ++ w.mAddresses.flatMap writeAddress

def writeCounters (w : WalletManager) : List UInt8 :=
  writeLE32 w.mNextKeyIndex ++ (writeLE32 w.mNextChangeIndex ++ writeLE32 w.mNoiseNextLeaf)

/-- The zero bytes at the end of the map are left out. -/
def writeUsed (w : WalletManager) : List UInt8 :=
  writeLE32 (UInt32.ofNat (Bitmap.trim w.mNoiseUsed).length) ++ Bitmap.trim w.mNoiseUsed

/-- What `SaveToFile` writes. -/
def fileBytes (w : WalletManager) : List UInt8 :=
  writeLE32 walletVersion ++ (w.writeSecrets ++ (w.writeAddresses ++ (w.writeCounters ++
    (w.writeUsed ++ writeLE32 0))))

/-- `writes` says whether the temporary file is written and renamed. -/
def saveToFile (writes : Bool) (w : WalletManager) : Bool × WalletManager :=
  if writes then (true, { w with mWalletFile := some w.fileBytes }) else (false, w)

/-! ### Reading -/

end WalletManager

namespace Ifstream

def read32 (old : UInt32) (file : Ifstream) : UInt32 × Ifstream :=
  let out := file.read (writeLE32 old)
  (readLE32 out.1, out.2)

def readBytes32 (old : Bytes32) (file : Ifstream) : Bytes32 × Ifstream :=
  let out := file.read old.toBytes
  (Bytes32.ofBytes out.1, out.2)

def readBytes16 (old : Bytes16) (file : Ifstream) : Bytes16 × Ifstream :=
  let out := file.read old.toBytes
  (Bytes16.ofBytes out.1, out.2)

theorem read32_write (old v : UInt32) (rest : List UInt8) :
    read32 old (ofFile (writeLE32 v ++ rest)) = (v, ofFile rest) := by
  rw [read32, read_append rest (by simp)]
  have read := readLE32_writeLE32 v []
  rw [List.append_nil] at read
  rw [read]

theorem readBytes32_write (old v : Bytes32) (rest : List UInt8) :
    readBytes32 old (ofFile (v.toBytes ++ rest)) = (v, ofFile rest) := by
  rw [readBytes32, read_append rest (by simp), Bytes32.ofBytes_toBytes]

theorem readBytes16_write (old v : Bytes16) (rest : List UInt8) :
    readBytes16 old (ofFile (v.toBytes ++ rest)) = (v, ofFile rest) := by
  rw [readBytes16, read_append rest (by simp), Bytes16.ofBytes_toBytes]

end Ifstream

namespace WalletManager

def readVersion (file : Ifstream) : Except WalletError (UInt32 × Ifstream) :=
  let version := file.read32 0
  if version.1 ≠ walletVersion ∧ version.1 ≠ walletVersionOld then
    .error ("Unsupported wallet version: " ++ toString version.1)
  else .ok version

def readSecrets (file : Ifstream) (w : WalletManager) :
    Except WalletError Ifstream × WalletManager :=
  let masterPubkey := file.readBytes32 w.mMasterPubkey
  let salt := masterPubkey.2.readBytes32 w.mSalt
  let iv := salt.2.readBytes16 w.mIV
  let tag := iv.2.readBytes32 w.mTag
  let entropySize := tag.2.read32 0
  let w := { w with
    mMasterPubkey := masterPubkey.1
    mSalt := salt.1
    mIV := iv.1
    mTag := tag.1 }
  if entropySize.1 = 0 ∨ maxEncryptedEntropySize < entropySize.1 ∨
      entropySize.1 % encBlockSize ≠ 0 then
    (.error "Invalid wallet file - bad encrypted entropy size", w)
  else
    let entropy := entropySize.2.read (resize w.mEncryptedEntropy entropySize.1.toNat)
    (.ok entropy.2, { w with mEncryptedEntropy := entropy.1 })

def readAddress (file : Ifstream) : Except WalletError (WalletAddress × Ifstream) :=
  let pubkeyHash := file.readBytes32 0
  let keyIndex := pubkeyHash.2.read32 0
  let isChange := keyIndex.2.read [0]
  let labelLen := isChange.2.read32 0
  if 256 < labelLen.1 then .error "Invalid wallet file - label too long"
  else
    let label := labelLen.2.read (List.replicate labelLen.1.toNat 0)
    .ok (⟨pubkeyHash.1, keyIndex.1, label.1, isChange.1 = [1]⟩, label.2)

def readAddressesFrom : Nat → Ifstream → WalletManager →
    Except WalletError Ifstream × WalletManager
  | 0, file, w => (.ok file, w)
  | count + 1, file, w =>
      match readAddress file with
      | .error e => (.error e, w)
      | .ok (addr, file) =>
          readAddressesFrom count file { w with mAddresses := w.mAddresses ++ [addr] }

def readAddresses (file : Ifstream) (w : WalletManager) :
    Except WalletError Ifstream × WalletManager :=
  let addrCount := file.read32 0
  if maxAddresses < addrCount.1 then (.error "Invalid wallet file - too many addresses", w)
  else readAddressesFrom addrCount.1.toNat addrCount.2 { w with mAddresses := [] }

def readCounters (P : Params) (file : Ifstream) (w : WalletManager) :
    Except WalletError Ifstream × WalletManager :=
  let nextKeyIndex := file.read32 w.mNextKeyIndex
  let nextChangeIndex := nextKeyIndex.2.read32 w.mNextChangeIndex
  let noiseNextLeaf := nextChangeIndex.2.read32 w.mNoiseNextLeaf
  let w := { w with
    mNextKeyIndex := nextKeyIndex.1
    mNextChangeIndex := nextChangeIndex.1
    mNoiseNextLeaf := noiseNextLeaf.1 }
  if P.noiseLeafCount < noiseNextLeaf.1 then
    (.error "Invalid wallet file - noise leaf pointer out of range", w)
  else (.ok noiseNextLeaf.2, w)

/-- A file of the old version has no map: its leaf pointer says what is used. -/
def readUsed (version : UInt32) (file : Ifstream) (w : WalletManager) :
    Except WalletError Ifstream × WalletManager :=
  let blank := List.replicate mapBytes (0 : UInt8)
  if walletVersion ≤ version then
    let usedLen := file.read32 0
    if mapBytes < usedLen.1.toNat then
      (.error "Invalid wallet file - leaf map larger than the pool", { w with mNoiseUsed := blank })
    else
      let map := usedLen.2.read (blank.take usedLen.1.toNat)
      (.ok map.2, { w with mNoiseUsed := map.1 ++ blank.drop usedLen.1.toNat })
  else
    (.ok file, { w with
      mNoiseUsed := (List.range w.mNoiseNextLeaf.toNat).foldl Bitmap.setBit blank })

def skipBlobs : Nat → Ifstream → Ifstream
  | 0, file => file
  | count + 1, file =>
      let blobLen := file.read32 0
      if !blobLen.2.good then blobLen.2 else skipBlobs count (blobLen.2.skip blobLen.1.toNat)

def skipRecords : Nat → Ifstream → Except WalletError Unit
  | 0, _ => .ok ()
  | count + 1, file =>
      let key := file.read (List.replicate 32 0)
      let proofCount := key.2.read32 0
      if !proofCount.2.good then .ok ()
      else if noiseLeafCountValue < proofCount.1.toNat then
        .error "Invalid wallet file - stored proof count implausible"
      else skipRecords count (skipBlobs proofCount.1.toNat proofCount.2)

/-- The proofs older versions stored are passed over. -/
def skipPrepared (file : Ifstream) : Except WalletError Unit :=
  let preparedCount := file.read32 0
  if preparedCount.2.good ∧ 0 < preparedCount.1 then
    if maxAddresses < preparedCount.1 then
      .error "Invalid wallet file - stored record count implausible"
    else skipRecords preparedCount.1.toNat preparedCount.2
  else .ok ()

/-- A stream fails at the end of the file only, so its last test of the stream
never throws. -/
def loadFromFile (P : Params) (w : WalletManager) : Except WalletError Bool × WalletManager :=
  match w.mWalletFile with
  | none => (.ok false, w)
  | some contents =>
      andThen (readVersion (.ofFile contents), w) fun (version, file) w =>
      andThen (readSecrets file w) fun file w =>
      andThen (readAddresses file w) fun file w =>
      andThen (readCounters P file w) fun file w =>
      andThen (readUsed version file w) fun file w =>
      andThen (skipPrepared file, w) fun () w => (.ok true, w)

/-! ### Reading back what was written -/

/-- The sizes of what is written fit their 32 bits. -/
structure Writable (w : WalletManager) : Prop where
  entropy : w.mEncryptedEntropy.length < 2 ^ 32
  addresses : w.mAddresses.length < 2 ^ 32
  labels : ∀ addr ∈ w.mAddresses, addr.label.length < 2 ^ 32
  used : (Bitmap.trim w.mNoiseUsed).length < 2 ^ 32

/-- What the size of the encrypted entropy must be. -/
def EntropyFits (size : Nat) : Prop := size ≠ 0 ∧ size ≤ 48 ∧ size % 16 = 0

instance (size : Nat) : Decidable (EntropyFits size) := inferInstanceAs (Decidable (_ ∧ _ ∧ _))

/-- The limits the reader checks, the one on labels apart. -/
structure Bounded (P : Params) (w : WalletManager) : Prop where
  entropy : EntropyFits w.mEncryptedEntropy.length
  addresses : w.mAddresses.length ≤ maxAddresses.toNat
  nextLeaf : w.mNoiseNextLeaf ≤ P.noiseLeafCount
  used : (Bitmap.trim w.mNoiseUsed).length ≤ mapBytes

def ShortLabels (w : WalletManager) : Prop := ∀ addr ∈ w.mAddresses, addr.label.length ≤ 256

/-- The manager `w` with what a file keeps of `saved`. -/
def restore (saved w : WalletManager) : WalletManager :=
  { w with
    mMasterPubkey := saved.mMasterPubkey
    mSalt := saved.mSalt
    mIV := saved.mIV
    mTag := saved.mTag
    mEncryptedEntropy := saved.mEncryptedEntropy
    mAddresses := saved.mAddresses
    mNextKeyIndex := saved.mNextKeyIndex
    mNextChangeIndex := saved.mNextChangeIndex
    mNoiseNextLeaf := saved.mNoiseNextLeaf
    mNoiseUsed := resize (Bitmap.trim saved.mNoiseUsed) mapBytes }

theorem toNat_ofNat {n : Nat} (fits : n < 2 ^ 32) : (UInt32.ofNat n).toNat = n :=
  UInt32.toNat_ofNat_of_lt' fits

section

variable {P : Params} {saved w : WalletManager} {rest : List UInt8}

theorem entropySize_iff {n : Nat} (fits : n < 2 ^ 32) :
    (UInt32.ofNat n = 0 ∨ maxEncryptedEntropySize < UInt32.ofNat n ∨
      UInt32.ofNat n % encBlockSize ≠ 0) ↔ ¬ EntropyFits n := by
  have size := toNat_ofNat fits
  have limit : maxEncryptedEntropySize.toNat = 48 := rfl
  have block : encBlockSize.toNat = 16 := rfl
  rw [UInt32.lt_iff_toNat_lt, ← UInt32.toNat_inj, ne_eq, ← UInt32.toNat_inj, UInt32.toNat_mod, size,
    limit, block, UInt32.toNat_zero, EntropyFits]
  omega

theorem readVersion_write (rest : List UInt8) :
    readVersion (.ofFile (writeLE32 walletVersion ++ rest)) = .ok (walletVersion, .ofFile rest) := by
  rw [readVersion, Ifstream.read32_write]
  rfl

theorem readSecrets_write (fits : saved.mEncryptedEntropy.length < 2 ^ 32) (rest : List UInt8)
    (w : WalletManager) : readSecrets (.ofFile (saved.writeSecrets ++ rest)) w =
      if EntropyFits saved.mEncryptedEntropy.length then
        (.ok (.ofFile rest), { w with
          mMasterPubkey := saved.mMasterPubkey
          mSalt := saved.mSalt
          mIV := saved.mIV
          mTag := saved.mTag
          mEncryptedEntropy := saved.mEncryptedEntropy })
      else
        (.error "Invalid wallet file - bad encrypted entropy size", { w with
          mMasterPubkey := saved.mMasterPubkey
          mSalt := saved.mSalt
          mIV := saved.mIV
          mTag := saved.mTag }) := by
  have size := toNat_ofNat fits
  simp only [readSecrets, writeSecrets, List.append_assoc, Ifstream.readBytes32_write,
    Ifstream.readBytes16_write, Ifstream.read32_write, entropySize_iff fits, size]
  rw [Ifstream.read_append rest (length_resize _ _)]
  by_cases good : EntropyFits saved.mEncryptedEntropy.length
  · rw [if_neg (not_not.mpr good), if_pos good]
  · rw [if_pos good, if_neg good]

theorem readAddress_write {addr : WalletAddress} (fits : addr.label.length < 2 ^ 32)
    (rest : List UInt8) : readAddress (.ofFile (writeAddress addr ++ rest)) =
      if addr.label.length ≤ 256 then .ok (addr, .ofFile rest)
      else .error "Invalid wallet file - label too long" := by
  have size := toNat_ofNat fits
  have flag : Ifstream.read [0] (.ofFile ([if addr.isChange then 1 else 0] ++
      (writeLE32 (UInt32.ofNat addr.label.length) ++ (addr.label ++ rest)))) =
      ([if addr.isChange then 1 else 0],
        .ofFile (writeLE32 (UInt32.ofNat addr.label.length) ++ (addr.label ++ rest))) :=
    Ifstream.read_append _ rfl
  have limit : 256 < UInt32.ofNat addr.label.length ↔ ¬ addr.label.length ≤ 256 := by
    rw [UInt32.lt_iff_toNat_lt, size, not_le]
    rfl
  have change : decide ([if addr.isChange = true then 1 else (0 : UInt8)] = [1]) =
      addr.isChange := by
    cases addr.isChange
    · rfl
    · rfl
  simp only [readAddress, writeAddress, List.append_assoc, Ifstream.readBytes32_write,
    Ifstream.read32_write, flag, limit, size, change]
  rw [Ifstream.read_append rest (List.length_replicate)]
  by_cases good : addr.label.length ≤ 256
  · rw [if_neg (not_not.mpr good), if_pos good]
  · rw [if_pos good, if_neg good]

/-- The addresses read back as they were written, or a label is too long. -/
theorem readAddressesFrom_write (rest : List UInt8) : ∀ {addrs : List WalletAddress}
    {w : WalletManager}, (∀ addr ∈ addrs, addr.label.length < 2 ^ 32) →
    ((∀ addr ∈ addrs, addr.label.length ≤ 256) →
      readAddressesFrom addrs.length (.ofFile (addrs.flatMap writeAddress ++ rest)) w =
        (.ok (.ofFile rest), { w with mAddresses := w.mAddresses ++ addrs })) ∧
    (¬ (∀ addr ∈ addrs, addr.label.length ≤ 256) →
      (readAddressesFrom addrs.length (.ofFile (addrs.flatMap writeAddress ++ rest)) w).1 =
        .error "Invalid wallet file - label too long") := by
  intro addrs
  induction addrs with
  | nil =>
      intro w _
      constructor
      · intro _
        rw [List.append_nil]
        rfl
      · exact fun long => absurd (fun addr mem => nomatch mem) long
  | cons addr addrs ih =>
      intro w fits
      have first := readAddress_write (fits addr List.mem_cons_self)
        (addrs.flatMap writeAddress ++ rest)
      have later := @ih { w with mAddresses := w.mAddresses ++ [addr] }
        fun a mem => fits a (List.mem_cons_of_mem _ mem)
      rw [List.flatMap_cons, List.append_assoc, List.length_cons, readAddressesFrom, first]
      by_cases short : addr.label.length ≤ 256
      · rw [if_pos short]
        dsimp only
        constructor
        · intro all
          rw [later.1 fun a mem => all a (List.mem_cons_of_mem _ mem), List.append_assoc,
            List.singleton_append]
        · intro long
          refine later.2 fun all => long fun a mem => ?_
          rcases List.mem_cons.mp mem with rfl | mem
          · exact short
          · exact all a mem
      · rw [if_neg short]
        constructor
        · exact fun all => absurd (all addr List.mem_cons_self) short
        · exact fun _ => rfl

theorem readAddresses_write (writable : saved.Writable) (rest : List UInt8) (w : WalletManager) :
    (saved.mAddresses.length ≤ maxAddresses.toNat ∧ saved.ShortLabels →
      readAddresses (.ofFile (saved.writeAddresses ++ rest)) w =
        (.ok (.ofFile rest), { w with mAddresses := saved.mAddresses })) ∧
    (¬ (saved.mAddresses.length ≤ maxAddresses.toNat ∧ saved.ShortLabels) →
      ∃ e, (readAddresses (.ofFile (saved.writeAddresses ++ rest)) w).1 = .error e) := by
  have size := toNat_ofNat writable.addresses
  have each := @readAddressesFrom_write rest saved.mAddresses { w with mAddresses := [] }
    writable.labels
  simp only [readAddresses, writeAddresses, List.append_assoc, Ifstream.read32_write, size,
    UInt32.lt_iff_toNat_lt]
  by_cases few : saved.mAddresses.length ≤ maxAddresses.toNat
  · rw [if_neg (not_lt.mpr few)]
    constructor
    · exact fun fits => each.1 fits.2
    · exact fun bad => ⟨_, each.2 fun short => bad ⟨few, short⟩⟩
  · rw [if_pos (not_le.mp few)]
    constructor
    · exact fun fits => absurd fits.1 few
    · exact fun _ => ⟨_, rfl⟩

theorem readCounters_write (rest : List UInt8) (w : WalletManager) :
    (saved.mNoiseNextLeaf ≤ P.noiseLeafCount →
      readCounters P (.ofFile (saved.writeCounters ++ rest)) w = (.ok (.ofFile rest), { w with
        mNextKeyIndex := saved.mNextKeyIndex
        mNextChangeIndex := saved.mNextChangeIndex
        mNoiseNextLeaf := saved.mNoiseNextLeaf })) ∧
    (¬ saved.mNoiseNextLeaf ≤ P.noiseLeafCount →
      ∃ e, (readCounters P (.ofFile (saved.writeCounters ++ rest)) w).1 = .error e) := by
  simp only [readCounters, writeCounters, List.append_assoc, Ifstream.read32_write]
  constructor
  · intro inside
    rw [if_neg (UInt32.not_lt.mpr inside)]
  · intro outside
    rw [if_pos (UInt32.not_le.mp outside)]
    exact ⟨_, rfl⟩

theorem readUsed_write (writable : saved.Writable) (rest : List UInt8) (w : WalletManager) :
    ((Bitmap.trim saved.mNoiseUsed).length ≤ mapBytes →
      readUsed walletVersion (.ofFile (saved.writeUsed ++ rest)) w = (.ok (.ofFile rest), { w with
        mNoiseUsed := resize (Bitmap.trim saved.mNoiseUsed) mapBytes })) ∧
    (¬ (Bitmap.trim saved.mNoiseUsed).length ≤ mapBytes →
      ∃ e, (readUsed walletVersion (.ofFile (saved.writeUsed ++ rest)) w).1 = .error e) := by
  have size := toNat_ofNat writable.used
  have new : walletVersion ≤ walletVersion := UInt32.le_refl _
  simp only [readUsed, writeUsed, List.append_assoc, Ifstream.read32_write, size, if_pos new]
  constructor
  · intro inside
    rw [if_neg (not_lt.mpr inside), Ifstream.read_append rest (by
      rw [List.length_take, List.length_replicate, Nat.min_eq_left inside]), resize,
      List.take_of_length_le inside, List.drop_replicate]
  · intro outside
    rw [if_pos (not_le.mp outside)]
    exact ⟨_, rfl⟩

theorem skipPrepared_write : skipPrepared (.ofFile (writeLE32 0)) = .ok () := by decide

/-- **The wallet file.** What `SaveToFile` wrote is restored when it keeps the
limits the reader checks, and otherwise refused. -/
theorem loadFromFile_fileBytes (writable : saved.Writable)
    (file : w.mWalletFile = some saved.fileBytes) :
    (saved.Bounded P ∧ saved.ShortLabels → loadFromFile P w = (.ok true, saved.restore w)) ∧
    (¬ (saved.Bounded P ∧ saved.ShortLabels) → ∃ e, (loadFromFile P w).1 = .error e) := by
  -- Each stage reads its part and passes the rest on, or throws.
  simp only [loadFromFile, file, fileBytes, readVersion_write, andThen_ok]
  rw [readSecrets_write writable.entropy]
  by_cases entropy : EntropyFits saved.mEncryptedEntropy.length
  swap
  · rw [if_neg entropy]
    exact ⟨fun fits => absurd fits.1.entropy entropy, fun _ => ⟨_, rfl⟩⟩
  rw [if_pos entropy, andThen_ok]
  by_cases addresses : saved.mAddresses.length ≤ maxAddresses.toNat ∧ saved.ShortLabels
  swap
  · obtain ⟨e, fails⟩ := (readAddresses_write writable _ _).2 addresses
    exact ⟨fun fits => absurd ⟨fits.1.addresses, fits.2⟩ addresses,
      fun _ => ⟨e, andThen_of_error fails _⟩⟩
  rw [(readAddresses_write writable _ _).1 addresses, andThen_ok]
  by_cases nextLeaf : saved.mNoiseNextLeaf ≤ P.noiseLeafCount
  swap
  · obtain ⟨e, fails⟩ := (readCounters_write _ _).2 nextLeaf
    exact ⟨fun fits => absurd fits.1.nextLeaf nextLeaf, fun _ => ⟨e, andThen_of_error fails _⟩⟩
  rw [(readCounters_write _ _).1 nextLeaf, andThen_ok]
  by_cases used : (Bitmap.trim saved.mNoiseUsed).length ≤ mapBytes
  swap
  · obtain ⟨e, fails⟩ := (readUsed_write writable _ _).2 used
    exact ⟨fun fits => absurd fits.1.used used, fun _ => ⟨e, andThen_of_error fails _⟩⟩
  rw [(readUsed_write writable _ _).1 used, andThen_ok, skipPrepared_write, andThen_ok]
  constructor
  · exact fun _ => rfl
  · exact fun bad => absurd ⟨⟨entropy, addresses.1, nextLeaf, used⟩, addresses.2⟩ bad

/-! ### Reading any file -/

/-- Both managers differ in what a file keeps only. -/
structure SameSession (w w' : WalletManager) : Prop where
  walletFile : w'.mWalletFile = w.mWalletFile
  locked : w'.mLocked = w.mLocked
  initialized : w'.mInitialized = w.mInitialized
  unlockedSeed : w'.mUnlockedSeed = w.mUnlockedSeed
  noiseKps : w'.mNoiseKps = w.mNoiseKps
  noiseFile : w'.mNoiseFile = w.mNoiseFile

theorem sameSession_readSecrets {w₀ : WalletManager} (file : Ifstream) (same : SameSession w₀ w) :
    SameSession w₀ (readSecrets file w).2 := by
  unfold readSecrets
  dsimp only
  split
  · exact { same with }
  · exact { same with }

theorem sameSession_readAddressesFrom {w₀ : WalletManager} : ∀ {count : Nat} {file : Ifstream}
    {w : WalletManager}, SameSession w₀ w →
    SameSession w₀ (readAddressesFrom count file w).2 := by
  intro count
  induction count with
  | zero => exact fun same => same
  | succ count ih =>
      intro file w same
      rw [readAddressesFrom]
      split
      · exact same
      · exact ih { same with }

theorem sameSession_readAddresses {w₀ : WalletManager} (file : Ifstream)
    (same : SameSession w₀ w) : SameSession w₀ (readAddresses file w).2 := by
  unfold readAddresses
  dsimp only
  split
  · exact same
  · exact sameSession_readAddressesFrom { same with }

theorem sameSession_readCounters {w₀ : WalletManager} (file : Ifstream)
    (same : SameSession w₀ w) : SameSession w₀ (readCounters P file w).2 := by
  unfold readCounters
  dsimp only
  split
  · exact { same with }
  · exact { same with }

theorem sameSession_readUsed {w₀ : WalletManager} (version : UInt32) (file : Ifstream)
    (same : SameSession w₀ w) : SameSession w₀ (readUsed version file w).2 := by
  unfold readUsed
  dsimp only
  split
  · split
    · exact { same with }
    · exact { same with }
  · exact { same with }

/-- Reading a file leaves the rest of the manager alone, also when it fails. -/
theorem sameSession_loadFromFile : SameSession w (loadFromFile P w).2 := by
  have same : SameSession w w := ⟨rfl, rfl, rfl, rfl, rfl, rfl⟩
  unfold loadFromFile
  split
  · exact same
  · refine andThen_keeps same fun (version, file) w same => ?_
    refine andThen_keeps (sameSession_readSecrets file same) fun file w same => ?_
    refine andThen_keeps (sameSession_readAddresses file same) fun file w same => ?_
    refine andThen_keeps (sameSession_readCounters file same) fun file w same => ?_
    refine andThen_keeps (sameSession_readUsed version file same) fun file w same => ?_
    exact andThen_keeps same fun _ _ same => same

theorem entropyFits_readSecrets {file file' : Ifstream} {w' : WalletManager}
    (read : readSecrets file w = (.ok file', w')) : EntropyFits w'.mEncryptedEntropy.length := by
  unfold readSecrets at read
  dsimp only at read
  split at read
  · cases read
  · rename_i good
    cases read
    rw [Ifstream.length_read, length_resize]
    have limit : maxEncryptedEntropySize.toNat = 48 := rfl
    have block : encBlockSize.toNat = 16 := rfl
    generalize (Ifstream.read32 0 _).1 = size at good ⊢
    rw [UInt32.lt_iff_toNat_lt, ← UInt32.toNat_inj, ne_eq, ← UInt32.toNat_inj, UInt32.toNat_mod,
      limit, block, UInt32.toNat_zero] at good
    unfold EntropyFits
    omega

theorem label_readAddress {file file' : Ifstream} {addr : WalletAddress}
    (read : readAddress file = .ok (addr, file')) : addr.label.length ≤ 256 := by
  unfold readAddress at read
  dsimp only at read
  split at read
  · cases read
  · rename_i short
    cases read
    rw [Ifstream.length_read, List.length_replicate]
    exact UInt32.le_iff_toNat_le.mp (UInt32.not_lt.mp short)

/-- What the loop over the addresses adds; the entropy stays. -/
theorem spec_readAddressesFrom : ∀ {count : Nat} {file file' : Ifstream} {w w' : WalletManager},
    readAddressesFrom count file w = (.ok file', w') →
    ∃ addrs, addrs.length = count ∧ (∀ addr ∈ addrs, addr.label.length ≤ 256) ∧
      w' = { w with mAddresses := w.mAddresses ++ addrs } := by
  intro count
  induction count with
  | zero =>
      intro file file' w w' read
      cases read
      exact ⟨[], rfl, fun addr mem => (nomatch mem), by rw [List.append_nil]⟩
  | succ count ih =>
      intro file file' w w' read
      rw [readAddressesFrom] at read
      split at read
      · cases read
      · rename_i addr file'' first
        obtain ⟨addrs, count, short, rfl⟩ := ih read
        refine ⟨addr :: addrs, congrArg (· + 1) count, ?_, ?_⟩
        · intro a mem
          rcases List.mem_cons.mp mem with rfl | mem
          · exact label_readAddress first
          · exact short a mem
        · rw [List.append_assoc, List.singleton_append]

theorem spec_readAddresses {file file' : Ifstream} {w' : WalletManager}
    (read : readAddresses file w = (.ok file', w')) :
    w'.mAddresses.length ≤ maxAddresses.toNat ∧ w'.ShortLabels ∧
      w'.mEncryptedEntropy = w.mEncryptedEntropy := by
  unfold readAddresses at read
  dsimp only at read
  split at read
  · cases read
  · rename_i few
    obtain ⟨addrs, count, short, rfl⟩ := spec_readAddressesFrom read
    refine ⟨?_, short, rfl⟩
    rw [List.nil_append, count]
    exact UInt32.le_iff_toNat_le.mp (UInt32.not_lt.mp few)

theorem spec_readCounters {file file' : Ifstream} {w' : WalletManager}
    (read : readCounters P file w = (.ok file', w')) :
    w'.mNoiseNextLeaf ≤ P.noiseLeafCount ∧ w'.mEncryptedEntropy = w.mEncryptedEntropy ∧
      w'.mAddresses = w.mAddresses := by
  unfold readCounters at read
  dsimp only at read
  split at read
  · cases read
  · rename_i inside
    cases read
    exact ⟨UInt32.not_lt.mp inside, rfl, rfl⟩

theorem length_foldl_setBit (indices : List Nat) : ∀ map : List UInt8,
    (indices.foldl Bitmap.setBit map).length = map.length := by
  induction indices with
  | nil => exact fun _ => rfl
  | cons index indices ih =>
      intro map
      rw [List.foldl_cons, ih, Bitmap.length_setBit]

theorem spec_readUsed {version : UInt32} {file file' : Ifstream} {w' : WalletManager}
    (read : readUsed version file w = (.ok file', w')) :
    w'.mNoiseUsed.length = mapBytes ∧ w'.mEncryptedEntropy = w.mEncryptedEntropy ∧
      w'.mAddresses = w.mAddresses ∧ w'.mNoiseNextLeaf = w.mNoiseNextLeaf := by
  unfold readUsed at read
  dsimp only at read
  split at read
  · split at read
    · cases read
    · rename_i inside
      cases read
      refine ⟨?_, rfl, rfl, rfl⟩
      rw [List.length_append, Ifstream.length_read, List.length_take, List.length_drop,
        List.length_replicate]
      omega
  · cases read
    refine ⟨?_, rfl, rfl, rfl⟩
    rw [length_foldl_setBit, List.length_replicate]

/-- What is read from any file keeps the limits. -/
theorem bounded_loadFromFile {w' : WalletManager} (read : loadFromFile P w = (.ok true, w')) :
    w'.Bounded P ∧ w'.ShortLabels ∧ w'.mNoiseUsed.length = mapBytes := by
  unfold loadFromFile at read
  split at read
  · cases read
  · obtain ⟨⟨version, file₀⟩, w₀, -, read⟩ := andThen_eq_ok read
    obtain ⟨file₁, w₁, secrets, read⟩ := andThen_eq_ok read
    obtain ⟨file₂, w₂, addresses, read⟩ := andThen_eq_ok read
    obtain ⟨file₃, w₃, counters, read⟩ := andThen_eq_ok read
    obtain ⟨file₄, w₄, used, read⟩ := andThen_eq_ok read
    obtain ⟨⟨⟩, w₅, prepared, read⟩ := andThen_eq_ok read
    obtain rfl : w₄ = w₅ := congrArg Prod.snd prepared
    cases read
    have entropy := entropyFits_readSecrets secrets
    obtain ⟨few, short, entropy₂⟩ := spec_readAddresses addresses
    obtain ⟨nextLeaf, entropy₃, addresses₃⟩ := spec_readCounters counters
    obtain ⟨long, entropy₄, addresses₄, nextLeaf₄⟩ := spec_readUsed used
    refine ⟨⟨?_, ?_, ?_, ?_⟩, ?_, long⟩
    · rw [entropy₄, entropy₃, entropy₂]
      exact entropy
    · rw [addresses₄, addresses₃]
      exact few
    · rw [nextLeaf₄]
      exact nextLeaf
    · exact (Bitmap.length_trim_le _).trans long.le
    · intro addr mem
      rw [addresses₄, addresses₃] at mem
      exact short addr mem

end

end WalletManager

end QmaskCore
