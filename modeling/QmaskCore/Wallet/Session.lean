import QmaskCore.Wallet.Payments

/-!
What the operations on a wallet in use can do to its manager.

`WalletOp` is such an operation. Each function has one lemma that says what it
leaves behind (`issueAddress_cases`, `createTransaction_cases`,
`signTransaction_cases`, `syncNoiseLeafPointer_cases`); the invariants of a
wallet are read off these.
-/

namespace QmaskCore

namespace WalletManager

section

variable {P : Params} {K : WalletParams} {w : WalletManager}

/-- What `saveToFile` changes. -/
theorem saveToFile_eq (writes : Bool) (w : WalletManager) :
    (w.saveToFile writes).2 = w ∨
      (w.saveToFile writes).2 = { w with mWalletFile := some w.fileBytes } := by
  cases writes
  · exact .inl rfl
  · exact .inr rfl

/-- A write that succeeds. -/
theorem saveToFile_of_true {writes : Bool} (saved : (w.saveToFile writes).1 = true) :
    (w.saveToFile writes).2 = { w with mWalletFile := some w.fileBytes } := by
  cases writes
  · cases saved
  · rfl

/-! ### The secret -/

/-- The manager with an encrypted secret, unlocked. -/
def withSecret (K : WalletParams) (keys seed : Bytes64) (salt : Bytes32) (iv : Bytes16)
    (cipher : List UInt8) (w : WalletManager) : WalletManager :=
  { w with
    mMasterPubkey := K.masterPublicKey seed
    mSalt := salt
    mIV := iv
    mTag := K.computeTag keys (buildAuthHeader salt iv) cipher
    mEncryptedEntropy := cipher
    mLocked := false
    mInitialized := true }

theorem storeEntropy_cases (passphrase entropy : List UInt8) (seed : Bytes64) (salt : Bytes32)
    (iv : Bytes16) (writes : Bool) (w : WalletManager) :
    (K.derive passphrase salt = none ∨
        (∃ keys, K.derive passphrase salt = some keys ∧ K.encryptCBC keys iv entropy = none)) ∧
      (storeEntropy K passphrase entropy seed salt iv writes w).2 =
        { w with mMasterPubkey := K.masterPublicKey seed, mSalt := salt, mIV := iv } ∨
    ∃ keys cipher, K.derive passphrase salt = some keys ∧
      K.encryptCBC keys iv entropy = some cipher ∧
      (storeEntropy K passphrase entropy seed salt iv writes w).2 =
        ((w.withSecret K keys seed salt iv cipher).saveToFile writes).2 := by
  unfold storeEntropy encryptEntropy
  dsimp only
  cases derived : K.derive passphrase salt with
  | none => exact .inl ⟨.inl rfl, rfl⟩
  | some keys =>
      cases encrypted : K.encryptCBC keys iv entropy with
      | none =>
          refine .inl ⟨.inr ⟨keys, rfl, encrypted⟩, ?_⟩
          simp only [encrypted]
      | some cipher =>
          refine .inr ⟨keys, cipher, rfl, encrypted, ?_⟩
          simp only [encrypted]
          split
          · rfl
          · rfl

/-- A wallet is created once, before there is a noise file. -/
theorem create_cases (passphrase : List UInt8) (entropy salt : Bytes32) (iv : Bytes16)
    (noiseExists writes : Bool) (w : WalletManager) :
    (create K passphrase entropy salt iv noiseExists writes w).2 = w ∨
    w.mInitialized = false ∧ noiseExists = false ∧
      ∃ seed, entropyToSeed K entropy.toBytes = some seed ∧
        (create K passphrase entropy salt iv noiseExists writes w).2 =
          (storeEntropy K passphrase entropy.toBytes seed salt iv writes w).2 := by
  unfold create
  split
  · exact .inl rfl
  rename_i fresh
  split
  · exact .inl rfl
  rename_i alone
  split
  · exact .inl rfl
  split
  · exact .inl rfl
  rename_i seed opened
  refine .inr ⟨Bool.eq_false_iff.mpr fresh, Bool.eq_false_iff.mpr alone, seed, opened, ?_⟩
  split
  · rename_i stored
    rw [stored]
  · rename_i stored
    rw [stored]

/-- A phrase that is accepted is stored. -/
theorem importMnemonic_eq {mnemonic entropy : List UInt8} {seed : Bytes64}
    (decoded : mnemonicEntropy K mnemonic = .ok entropy)
    (opened : entropyToSeed K entropy = some seed) (passphrase : List UInt8) (salt : Bytes32)
    (iv : Bytes16) (writes : Bool) (w : WalletManager) :
    (importMnemonic K mnemonic passphrase salt iv writes w).2 =
      (storeEntropy K passphrase entropy seed salt iv writes w).2 := by
  rw [importMnemonic, decoded]
  dsimp only
  rw [opened]
  dsimp only
  split
  · rename_i stored
    rw [stored]
  · rename_i stored
    rw [stored]

theorem importMnemonic_cases (mnemonic passphrase : List UInt8) (salt : Bytes32) (iv : Bytes16)
    (writes : Bool) (w : WalletManager) :
    (importMnemonic K mnemonic passphrase salt iv writes w).2 = w ∨
    ∃ entropy seed, mnemonicEntropy K mnemonic = .ok entropy ∧
      entropyToSeed K entropy = some seed ∧
      (importMnemonic K mnemonic passphrase salt iv writes w).2 =
        (storeEntropy K passphrase entropy seed salt iv writes w).2 := by
  cases decoded : mnemonicEntropy K mnemonic with
  | error e =>
      left
      rw [importMnemonic, decoded]
  | ok entropy =>
      cases opened : entropyToSeed K entropy with
      | none =>
          left
          rw [importMnemonic, decoded]
          dsimp only
          rw [opened]
      | some seed =>
          exact .inr ⟨entropy, seed, rfl, opened,
            importMnemonic_eq decoded opened passphrase salt iv writes w⟩

/-- Loading reads the file; it is in use when the passphrase opens what was read. -/
theorem load_cases (passphrase : List UInt8) (w : WalletManager) :
    (load P K passphrase w).2 = (loadFromFile P w).2 ∨
    (loadFromFile P w).1 = .ok true ∧
      (load P K passphrase w).2 =
        { (loadFromFile P w).2 with mLocked := false, mInitialized := true } := by
  unfold load
  split
  · rename_i read
    rw [read]
    exact .inl rfl
  · rename_i read
    rw [read]
    exact .inl rfl
  · rename_i read
    rw [read]
    split
    · exact .inl rfl
    · exact .inr ⟨rfl, rfl⟩

/-- What a passphrase opens is the seed of the entropy it decrypts. -/
theorem openSeed_eq_some {passphrase : List UInt8} {seed : Bytes64}
    (opened : openSeed K passphrase w = some seed) :
    ∃ entropy, decryptEntropy K passphrase w = some entropy ∧
      entropyToSeed K entropy = some seed := by
  unfold openSeed at opened
  split at opened
  · cases opened
  rename_i entropy decrypted
  split at opened
  · cases opened
  rename_i seed' derived
  split at opened
  · cases opened
  · cases opened
    exact ⟨entropy, decrypted, derived⟩

theorem unlock_cases (passphrase : List UInt8) (w : WalletManager) :
    (unlock K passphrase w).2 = w ∨
    w.mInitialized = true ∧ ∃ seed, openSeed K passphrase w = some seed ∧
      (unlock K passphrase w).2 = { w with mUnlockedSeed := some seed, mLocked := false } := by
  unfold unlock
  split
  · exact .inl rfl
  rename_i initialized
  rw [Bool.not_eq_true', Bool.not_eq_false] at initialized
  split
  · exact .inl rfl
  · rename_i seed opened
    exact .inr ⟨initialized, seed, opened, rfl⟩

/-- A noise file is loaded with the pointer and the map of the wallet. -/
theorem loadNoiseFile_cases (decrypted : Option (List UInt8)) (w : WalletManager) :
    (loadNoiseFile P decrypted w).2 = w ∨
    ∃ raw nf, decrypted = some raw ∧ NoiseFile.generate P raw P.noiseLeafCount = some nf ∧
      (loadNoiseFile P decrypted w).2 = { w with
        mNoiseKps := nf.mRoot
        mNoiseFile := some ((nf.setNextLeaf w.mNoiseNextLeaf).setUsedMap w.mNoiseUsed) } := by
  unfold loadNoiseFile
  split
  · exact .inl rfl
  rename_i raw
  split
  · exact .inl rfl
  split
  · exact .inl rfl
  · rename_i nf generated
    exact .inr ⟨raw, nf, rfl, generated, rfl⟩

/-- A raw file of the right size is always taken. -/
theorem loadNoiseFile_of_length {raw : List UInt8} (long : raw.length = noiseFileBytes)
    (leaves : P.noiseLeafCount ≠ 0) (few : P.noiseLeafCount.toNat ≤ noiseLeafCountValue) :
    ∃ nf : NoiseFile, NoiseFile.generate P raw P.noiseLeafCount = some nf ∧
      (loadNoiseFile P (some raw) w).2 = { w with
        mNoiseKps := nf.mRoot
        mNoiseFile := some ((nf.setNextLeaf w.mNoiseNextLeaf).setUsedMap w.mNoiseUsed) } := by
  have enough : ¬ raw.length < P.noiseLeafCount.toNat * NoiseFile.noiseOtpLeafSize := by
    rw [long, noiseFileBytes, NoiseFile.noiseOtpLeafSize]
    omega
  obtain ⟨nf, generated⟩ : ∃ nf, NoiseFile.generate P raw P.noiseLeafCount = some nf := by
    rw [NoiseFile.generate, if_neg leaves, if_neg enough]
    exact ⟨_, rfl⟩
  refine ⟨nf, generated, ?_⟩
  rw [loadNoiseFile, if_neg (not_not.mpr long), generated]

/-! ### Addresses and payments -/

/-- The manager with one more address, under the next index of its chain. -/
def withAddress (P : Params) (K : WalletParams) (seed : Bytes64) (label : List UInt8)
    (isChange : Bool) (w : WalletManager) : WalletManager :=
  let keyIndex := if isChange then w.mNextChangeIndex else w.mNextKeyIndex
  { w with
    mNextKeyIndex := if isChange then w.mNextKeyIndex else w.mNextKeyIndex + 1
    mNextChangeIndex := if isChange then w.mNextChangeIndex + 1 else w.mNextChangeIndex
    mAddresses := w.mAddresses ++
      [⟨addressHash P K seed w.mNoiseKps keyIndex isChange, keyIndex, label, isChange⟩] }

/-- An address is issued by an unlocked wallet with its noise file loaded and
room for one more, or nothing changes. -/
theorem issueAddress_cases (what : String) (label : List UInt8) (isChange writes : Bool)
    (w : WalletManager) :
    (∃ e, issueAddress P K what label isChange writes w = (.error e, w)) ∨
    ∃ seed, w.usableSeed = some seed ∧ w.mNoiseFile.isSome ∧
      w.mAddresses.length < maxAddresses.toNat ∧
      (issueAddress P K what label isChange writes w).2 =
        ((w.withAddress P K seed label isChange).saveToFile writes).2 := by
  unfold issueAddress
  split
  · exact .inl ⟨_, rfl⟩
  · rename_i room
    split
    · exact .inl ⟨_, rfl⟩
    · rename_i seed usable
      split
      · exact .inl ⟨_, rfl⟩
      · rename_i loaded
        refine .inr ⟨seed, usable, ?_, not_le.mp room, rfl⟩
        exact Option.isSome_iff_ne_none.mpr fun none => loaded (Option.isNone_iff_eq_none.mpr none)

/-- With room, an unlocked wallet and a noise file an address is issued. -/
theorem mAddresses_getNewAddress (label : List UInt8) (writes : Bool) {seed : Bytes64}
    (usable : w.usableSeed = some seed) (noise : w.mNoiseFile.isSome)
    (room : w.mAddresses.length < maxAddresses.toNat) :
    (getNewAddress P K label writes w).2.mAddresses = w.mAddresses ++
      [⟨addressHash P K seed w.mNoiseKps w.mNextKeyIndex false, w.mNextKeyIndex, label, false⟩] := by
  rw [getNewAddress, issueAddress, if_neg (not_le.mpr room), usable]
  dsimp only
  rw [if_neg (by rw [Option.isNone_iff_eq_none]; exact Option.isSome_iff_ne_none.mp noise)]
  cases writes
  · rfl
  · rfl

/-- The first address of an unlocked wallet, once its noise file is loaded. -/
theorem mAddresses_first (label : List UInt8) (writes : Bool) {seed : Bytes64} {raw : List UInt8}
    (long : raw.length = noiseFileBytes) (leaves : P.noiseLeafCount ≠ 0)
    (few : P.noiseLeafCount.toNat ≤ noiseLeafCountValue) (usable : w.usableSeed = some seed)
    (empty : w.mAddresses = []) :
    ∃ nf, NoiseFile.generate P raw P.noiseLeafCount = some nf ∧
      (getNewAddress P K label writes (loadNoiseFile P (some raw) w).2).2.mAddresses =
        [⟨addressHash P K seed nf.mRoot w.mNextKeyIndex false, w.mNextKeyIndex, label, false⟩] := by
  obtain ⟨nf, generated, loaded⟩ := loadNoiseFile_of_length (w := w) long leaves few
  refine ⟨nf, generated, ?_⟩
  rw [loaded]
  refine (@mAddresses_getNewAddress P K _ label writes seed ?_ ?_ ?_).trans ?_
  · exact usable
  · rfl
  · dsimp only
    rw [empty]
    decide
  · dsimp only
    rw [empty, List.nil_append]

/-- A payment may take a change address; then outputs are held. -/
theorem createTransaction_cases (coin : Int64) (toAddress : List UInt8) (amount fee : Int64)
    (utxoSet : UTXOSet) (chainHeight : UInt32) (poolTxs : Option (List Transaction))
    (message : Option (List UInt8)) (writes : Bool) (w : WalletManager) :
    ∃ w₁ held, (w₁ = w ∨ w₁ = (getChangeAddress P K writes w).2) ∧
      (createTransaction P K coin toAddress amount fee utxoSet chainHeight poolTxs message writes w).2
        = { w₁ with mHeldOutpoints := held } := by
  have unchanged : ∃ w₁ held, (w₁ = w ∨ w₁ = (getChangeAddress P K writes w).2) ∧
      w = { w₁ with mHeldOutpoints := held } := ⟨w, w.mHeldOutpoints, .inl rfl, rfl⟩
  unfold createTransaction
  split
  · exact unchanged
  split
  · exact unchanged
  split
  · exact unchanged
  split
  · exact unchanged
  split
  · exact unchanged
  split
  · exact unchanged
  dsimp only
  split
  · exact unchanged
  split
  · exact unchanged
  split
  · exact unchanged
  have change {left : Int64} {out : Except WalletError (List TxOutput) × WalletManager}
      (issued : changeOutput P K left writes w = out) :
      out.2 = w ∨ out.2 = (getChangeAddress P K writes w).2 := by
    rw [← issued, changeOutput]
    split
    · right
      split
      · rename_i issued
        rw [issued]
      · rename_i issued
        rw [issued]
    · exact .inl rfl
  split
  · rename_i w₁ issued
    exact ⟨w₁, w₁.mHeldOutpoints, change issued, rfl⟩
  · rename_i w₁ issued
    split
    · exact ⟨w₁, w₁.mHeldOutpoints, change issued, rfl⟩
    · exact ⟨w₁, _, change issued, rfl⟩

/-- Signing rekeys what is held; where proofs are made their leaves are used
and the wallet saved. -/
theorem signTransaction_cases (writes : Bool) (tx : Transaction) (w : WalletManager) :
    ∃ held, ∃ consumed : List UInt32, let w₁ := { w with mHeldOutpoints := held }
      (signTransaction P K writes tx w).2.2 = w₁ ∨
      (signTransaction P K writes tx w).2.2 = ((consumed.foldl useLeaf w₁).saveToFile writes).2 := by
  unfold signTransaction
  split
  · exact ⟨w.mHeldOutpoints, [], .inl rfl⟩
  split
  · exact ⟨w.mHeldOutpoints, [], .inl rfl⟩
  split
  · exact ⟨w.mHeldOutpoints, [], .inl rfl⟩
  rename_i signed _
  refine ⟨(w.rekey tx.hash signed.hash).mHeldOutpoints, ?_⟩
  dsimp only
  split
  · exact ⟨[], .inl rfl⟩
  split
  · exact ⟨[], .inl rfl⟩
  split
  · exact ⟨[], .inl rfl⟩
  rename_i blobs consumed _
  refine ⟨consumed, .inr ?_⟩
  split
  · rfl
  · rfl

/-! ### Leaves -/

/-- The map of the wallet once a leaf is marked. -/
def markMap (map : List UInt8) (index : UInt32) : List UInt8 :=
  Bitmap.setBit (if map.length < mapBytes then resize map mapBytes else map) index.toNat

/-- What using leaves changes. -/
theorem foldl_useLeaf : ∀ (indices : List UInt32) (w : WalletManager),
    indices.foldl useLeaf w = { w with
      mNoiseUsed := indices.foldl markMap w.mNoiseUsed
      mNoiseFile := w.mNoiseFile.map fun nf =>
        indices.foldl (fun nf index => nf.markLeafUsed index) nf } := by
  intro indices
  induction indices with
  | nil =>
      intro w
      simp
  | cons index indices ih =>
      intro w
      rw [List.foldl_cons, ih]
      simp only [useLeaf, markNoiseLeafUsed, markMap, List.foldl_cons, Option.map_map]
      rfl

theorem length_markMap_le {map : List UInt8} (small : map.length ≤ mapBytes) (index : UInt32) :
    (markMap map index).length = mapBytes := by
  unfold markMap
  rw [Bitmap.length_setBit]
  split
  · exact length_resize _ _
  · omega

theorem length_foldl_markMap_le : ∀ (indices : List UInt32) {map : List UInt8},
    map.length ≤ mapBytes → (indices.foldl markMap map).length ≤ mapBytes := by
  intro indices
  induction indices with
  | nil => exact fun small => small
  | cons index indices ih => exact fun small => ih (length_markMap_le small index).le

/-- The pointer moves with that of the noise file; leaves are used and the wallet saved. -/
theorem syncNoiseLeafPointer_cases (highest : Option UInt32) (isSpent : UInt32 → Bool)
    (writes : Bool) (w : WalletManager) :
    (syncNoiseLeafPointer highest isSpent writes w).2 = w ∨
    ∃ nf next, ∃ spent : List UInt32, w.mNoiseFile = some nf ∧
      let w₁ := { w with mNoiseFile := some (nf.setNextLeaf next) }
      (syncNoiseLeafPointer highest isSpent writes w).2 = w₁ ∨
      (syncNoiseLeafPointer highest isSpent writes w).2 =
        ((spent.foldl useLeaf { w₁ with mNoiseNextLeaf := (nf.setNextLeaf next).mNextLeaf }
          ).saveToFile writes).2 := by
  unfold syncNoiseLeafPointer
  split
  · exact .inl rfl
  · rename_i nf loaded
    split
    · exact .inl rfl
    · rename_i high
      dsimp only
      split
      · exact .inr ⟨nf, high + 1, _, loaded, .inr rfl⟩
      · exact .inr ⟨nf, high + 1, [], loaded, .inl rfl⟩

end

end WalletManager

/-! ### Operations -/

inductive WalletOp where
  | lock
  | unlock (passphrase : List UInt8)
  | loadNoiseFile (decrypted : Option (List UInt8))
  | getNewAddress (label : List UInt8) (writes : Bool)
  | createTransaction (coin : Int64) (toAddress : List UInt8) (amount fee : Int64)
      (utxoSet : UTXOSet) (chainHeight : UInt32) (poolTxs : Option (List Transaction))
      (message : Option (List UInt8)) (writes : Bool)
  | signTransaction (writes : Bool) (tx : Transaction)
  | syncNoiseLeafPointer (highest : Option UInt32) (isSpent : UInt32 → Bool) (writes : Bool)

/-- The manager an operation leaves behind, whether it returns or throws. -/
def WalletOp.apply (P : Params) (K : WalletParams) (w : WalletManager) : WalletOp → WalletManager
  | .lock => w.lock
  | .unlock passphrase => (w.unlock K passphrase).2
  | .loadNoiseFile decrypted => (w.loadNoiseFile P decrypted).2
  | .getNewAddress label writes => (w.getNewAddress P K label writes).2
  | .createTransaction coin toAddress amount fee utxoSet chainHeight poolTxs message writes =>
      (w.createTransaction P K coin toAddress amount fee utxoSet chainHeight poolTxs message writes).2
  | .signTransaction writes tx => (w.signTransaction P K writes tx).2.2
  | .syncNoiseLeafPointer highest isSpent writes =>
      (w.syncNoiseLeafPointer highest isSpent writes).2

/-! ### A small wallet -/

namespace SmallNetwork

/-- PKCS#7 padding. -/
def pad (plain : List UInt8) : List UInt8 :=
  let missing := 16 - plain.length % 16
  plain ++ List.replicate missing (UInt8.ofNat missing)

def unpad (cipher : List UInt8) : List UInt8 :=
  cipher.take (cipher.length - (cipher.getLastD 0).toNat)

end SmallNetwork

open SmallNetwork in
/-- A cipher that only pads, and phrases that are the entropy they encode. -/
def smallWallet : WalletParams where
  derive _ _ := some 0
  encryptCBC _ _ plain := some (pad plain)
  decryptCBC _ _ cipher := some (unpad cipher)
  computeTag _ _ _ := 0
  mnemonicFromData entropy := some entropy
  mnemonicCheck _ := true
  mnemonicToBits mnemonic := (264, mnemonic)
  mnemonicToSeed mnemonic := BitVec.ofNat 512 (LittleEndian.ofLE mnemonic)
  masterPublicKey seed := seed.setWidth 256
  deriveKeyAtIndex seed index _ := seed.setWidth 256 + BitVec.ofNat 256 index.toNat
  getPublicKey key := key
  sign _ _ _ := 0
  rehash tx _ := tx.hash
  buildHash _ _ := 0
  isCoinbase _ := false
  b58tobin address := some address

end QmaskCore
