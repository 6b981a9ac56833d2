import QmaskCore.Wallet.WalletFile

/-!
The operations of `WalletManager` on its secret, its addresses and its leaves.

Key derivation, the cipher and the codecs are fields of `WalletParams`. An
operation answers with what it returns or throws, and with the manager it
leaves behind: what was done before a throw stays. Random bytes and whether a
write to disk succeeds are arguments.
-/

namespace QmaskCore

/-- What the wallet takes from the crypto libraries, `transaction.h` and `base58.h`. -/
structure WalletParams where
  -- `crypto`
  derive : List UInt8 → Bytes32 → Option Bytes64
  encryptCBC : Bytes64 → Bytes16 → List UInt8 → Option (List UInt8)
  decryptCBC : Bytes64 → Bytes16 → List UInt8 → Option (List UInt8)
  computeTag : Bytes64 → List UInt8 → List UInt8 → Bytes32
  -- the recovery phrase and the keys under it
  mnemonicFromData : List UInt8 → Option (List UInt8)
  mnemonicCheck : List UInt8 → Bool
  mnemonicToBits : List UInt8 → Nat × List UInt8
  mnemonicToSeed : List UInt8 → Bytes64
  masterPublicKey : Bytes64 → Bytes32
  deriveKeyAtIndex : Bytes64 → UInt32 → Bool → Bytes32
  getPublicKey : Bytes32 → Bytes32
  -- transactions
  sign : Transaction → Nat → Bytes32 → Bytes64
  /-- The hash of a transaction once its inputs are these. -/
  rehash : Transaction → List TxInput → Bytes32
  buildHash : List TxInput → List TxOutput → Bytes32
  isCoinbase : List TxInput → Bool
  b58tobin : List UInt8 → Option (List UInt8)

/-- `NoiseBoundHash`. -/
def noiseBoundHash (P : Params) (pubkey kps : Bytes32) : Bytes32 :=
  P.sha256 (pubkey.toBytes ++ kps.toBytes)

/-- `NOISE_FILE_BYTES`. -/
def noiseFileBytes : Nat := noiseLeafCountValue * 32

namespace WalletManager

def maxEntropySize : Nat := 32

def buildAuthHeader (salt : Bytes32) (iv : Bytes16) : List UInt8 := salt.toBytes ++ iv.toBytes

section

variable (P : Params) (K : WalletParams)

/-! ### The secret -/

def encryptEntropy (passphrase entropy : List UInt8) (salt : Bytes32) (iv : Bytes16)
    (w : WalletManager) : Except WalletError Unit × WalletManager :=
  let w := { w with mSalt := salt, mIV := iv }
  match K.derive passphrase salt with
  | none => (.error "Could not derive wallet encryption key", w)
  | some keys =>
      match K.encryptCBC keys iv entropy with
      | none => (.error "Wallet entropy encryption failed", w)
      | some cipher =>
          (.ok (), { w with
            mTag := K.computeTag keys (buildAuthHeader salt iv) cipher
            mEncryptedEntropy := cipher })

def decryptEntropy (passphrase : List UInt8) (w : WalletManager) : Option (List UInt8) :=
  if w.mEncryptedEntropy = [] then none
  else
    match K.derive passphrase w.mSalt with
    | none => none
    | some keys =>
        if K.computeTag keys (buildAuthHeader w.mSalt w.mIV) w.mEncryptedEntropy ≠ w.mTag then none
        else K.decryptCBC keys w.mIV w.mEncryptedEntropy

def entropyToSeed (entropy : List UInt8) : Option Bytes64 :=
  (K.mnemonicFromData entropy).map K.mnemonicToSeed

/-- How `Create` and `ImportMnemonic` end: the secret is encrypted and saved. -/
def storeEntropy (passphrase entropy : List UInt8) (seed : Bytes64) (salt : Bytes32) (iv : Bytes16)
    (writes : Bool) (w : WalletManager) : Except WalletError Unit × WalletManager :=
  let w := { w with mMasterPubkey := K.masterPublicKey seed }
  match encryptEntropy K passphrase entropy salt iv w with
  | (.error e, w) => (.error e, w)
  | (.ok (), w) =>
      let saved := { w with mLocked := false, mInitialized := true }.saveToFile writes
      if saved.1 then (.ok (), saved.2) else (.error "Failed to save wallet to disk", saved.2)

/-- `entropy` is what `random_buffer` fills; the mnemonic is what is handed out. -/
def create (passphrase : List UInt8) (entropy salt : Bytes32) (iv : Bytes16) (noiseExists writes : Bool)
    (w : WalletManager) : Except WalletError (List UInt8) × WalletManager :=
  if w.mInitialized then (.error "Wallet already exists!", w)
  else if noiseExists then
    (.error ("A noise file already exists in this data directory and it belongs to a previous " ++
      "wallet. A new wallet must have its own noise file, or its addresses would share the old " ++
      "wallet's single-use leaves and both wallets would stop being able to spend at the same " ++
      "moment. Start the new wallet in a separate data directory with -datadir, or remove the " ++
      "old wallet and its noise file if the old wallet is finished with."), w)
  else
    match K.mnemonicFromData entropy.toBytes with
    | none => (.error "Failed to generate mnemonic", w)
    | some mnemonic =>
        match entropyToSeed K entropy.toBytes with
        | none => (.error "Failed to derive seed from entropy", w)
        | some seed =>
            match storeEntropy K passphrase entropy.toBytes seed salt iv writes w with
            | (.error e, w) => (.error e, w)
            | (.ok (), w) => (.ok mnemonic, w)

/-- The seed a passphrase opens, when the master key matches it. -/
def openSeed (passphrase : List UInt8) (w : WalletManager) : Option Bytes64 :=
  match decryptEntropy K passphrase w with
  | none => none
  | some entropy =>
      match entropyToSeed K entropy with
      | none => none
      | some seed => if K.masterPublicKey seed ≠ w.mMasterPubkey then none else some seed

def load (passphrase : List UInt8) (w : WalletManager) : Except WalletError Bool × WalletManager :=
  match loadFromFile P w with
  | (.error e, w) => (.error e, w)
  | (.ok false, w) => (.ok false, w)
  | (.ok true, w) =>
      match openSeed K passphrase w with
      | none => (.ok false, w)
      | some _ => (.ok true, { w with mLocked := false, mInitialized := true })

/-- The entropy a recovery phrase encodes, `none` where `ImportMnemonic` refuses the phrase. -/
def mnemonicEntropy (mnemonic : List UInt8) : Except WalletError (List UInt8) :=
  if !K.mnemonicCheck mnemonic then .error "Invalid mnemonic phrase"
  else
    let bits := K.mnemonicToBits mnemonic
    if bits.1 = 0 then .error "Invalid mnemonic phrase"
    else
      let entropyLen := bits.1 / 11 * 4 / 3
      if entropyLen = 0 ∨ maxEntropySize < entropyLen then .error "Unsupported mnemonic length"
      else .ok (bits.2.take entropyLen)

def importMnemonic (mnemonic passphrase : List UInt8) (salt : Bytes32) (iv : Bytes16) (writes : Bool)
    (w : WalletManager) : Except WalletError Bool × WalletManager :=
  match mnemonicEntropy K mnemonic with
  | .error e => (.error e, w)
  | .ok entropy =>
      match entropyToSeed K entropy with
      | none => (.error "Failed to derive seed from mnemonic", w)
      | some seed =>
          match storeEntropy K passphrase entropy seed salt iv writes w with
          | (.error e, w) => (.error e, w)
          | (.ok (), w) => (.ok true, w)

def lock (w : WalletManager) : WalletManager := { w with mUnlockedSeed := none, mLocked := true }

def unlock (passphrase : List UInt8) (w : WalletManager) : Except WalletError Bool × WalletManager :=
  if !w.mInitialized then (.error "Wallet not initialized", w)
  else
    match openSeed K passphrase w with
    | none => (.ok false, w)
    | some seed => (.ok true, { w with mUnlockedSeed := some seed, mLocked := false })

/-! ### Addresses -/

/-- The seed while the wallet is unlocked: `!mLocked && mUnlockedSeed.size() == 64`. -/
def usableSeed (w : WalletManager) : Option Bytes64 := if w.mLocked then none else w.mUnlockedSeed

/-- The hash an address of a seed pays to. -/
def addressHash (seed : Bytes64) (kps : Bytes32) (keyIndex : UInt32) (isChange : Bool) : Bytes32 :=
  noiseBoundHash P (K.getPublicKey (K.deriveKeyAtIndex seed keyIndex isChange)) kps

/-- An address under the next free index of its chain. -/
def issueAddress (what : String) (label : List UInt8) (isChange writes : Bool) (w : WalletManager) :
    Except WalletError WalletAddress × WalletManager :=
  if maxAddresses.toNat ≤ w.mAddresses.length then
    (.error "Maximum number of addresses reached", w)
  else
    match w.usableSeed with
    | none => (.error ("Wallet must be unlocked to create " ++ what), w)
    | some seed =>
        if w.mNoiseFile.isNone then
          (.error ("Noise file must be loaded before creating " ++ what), w)
        else
          let keyIndex := if isChange then w.mNextChangeIndex else w.mNextKeyIndex
          let addr : WalletAddress :=
            ⟨addressHash P K seed w.mNoiseKps keyIndex isChange, keyIndex, label, isChange⟩
          let w := { w with
            mNextKeyIndex := if isChange then w.mNextKeyIndex else w.mNextKeyIndex + 1
            mNextChangeIndex := if isChange then w.mNextChangeIndex + 1 else w.mNextChangeIndex
            mAddresses := w.mAddresses ++ [addr] }
          (.ok addr, (w.saveToFile writes).2)

def getNewAddress (label : List UInt8) (writes : Bool) (w : WalletManager) :
    Except WalletError WalletAddress × WalletManager :=
  issueAddress P K "an address" label false writes w

/-- `"change"`. -/
def changeLabel : List UInt8 := [99, 104, 97, 110, 103, 101]

def getChangeAddress (writes : Bool) (w : WalletManager) :
    Except WalletError WalletAddress × WalletManager :=
  issueAddress P K "a change address" changeLabel true writes w

end

/-! ### The noise file -/

/-- `decrypted` is what `NoiseStore::DecryptFromFile` gives, `none` also when
there is no noise file. -/
def loadNoiseFile (P : Params) (decrypted : Option (List UInt8)) (w : WalletManager) :
    Bool × WalletManager :=
  match decrypted with
  | none => (false, w)
  | some raw =>
      if raw.length ≠ noiseFileBytes then (false, w)
      else
        match NoiseFile.generate P raw P.noiseLeafCount with
        | none => (false, w)
        | some nf =>
            (true, { w with
              mNoiseKps := nf.mRoot
              mNoiseFile := some ((nf.setNextLeaf w.mNoiseNextLeaf).setUsedMap w.mNoiseUsed) })

/-- A leaf is marked used in the map of the wallet and in that of the noise file. -/
def useLeaf (w : WalletManager) (index : UInt32) : WalletManager :=
  { w.markNoiseLeafUsed index with mNoiseFile := w.mNoiseFile.map (·.markLeafUsed index) }

/-- `highest` is what `GetHighestSpentNoiseLeaf` finds for the wallet's KPS,
`isSpent` what `IsNoiseLeafSpent` answers for it. -/
def syncNoiseLeafPointer (highest : Option UInt32) (isSpent : UInt32 → Bool) (writes : Bool)
    (w : WalletManager) : UInt32 × WalletManager :=
  match w.mNoiseFile with
  | none => (0, w)
  | some noiseFile =>
      match highest with
      | none => (0, w)
      | some highest =>
          let before := noiseFile.mNextLeaf
          let noiseFile := noiseFile.setNextLeaf (highest + 1)
          let after := noiseFile.mNextLeaf
          let w := { w with mNoiseFile := some noiseFile }
          if before < after then
            let spent := ((List.range after.toNat).map UInt32.ofNat).filter isSpent
            let w := spent.foldl useLeaf { w with mNoiseNextLeaf := after }
            (after - before, (w.saveToFile writes).2)
          else (after - before, w)

end WalletManager

end QmaskCore
