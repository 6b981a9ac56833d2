import QmaskCore.Wallet.Session

/-!
Does a wallet that was saved load again?

`Kept` holds of a wallet that was created or loaded and is kept by every
operation: all limits the reader checks, the one on labels apart. So the file
of a wallet in use is restored exactly when its labels are short
(`reload_iff`).
-/

namespace QmaskCore

open WalletManager

/-- A 32-byte entropy is encrypted to whole blocks, at most one more than it takes. -/
def WalletParams.CipherFits (K : WalletParams) : Prop :=
  ∀ keys iv (entropy : Bytes32) cipher, K.encryptCBC keys iv entropy.toBytes = some cipher →
    EntropyFits cipher.length

namespace WalletManager

/-- The limits on what is saved, and on the noise file its pointer comes from. -/
structure Kept (P : Params) (w : WalletManager) : Prop where
  entropy : EntropyFits w.mEncryptedEntropy.length
  addresses : w.mAddresses.length ≤ maxAddresses.toNat
  nextLeaf : w.mNoiseNextLeaf ≤ P.noiseLeafCount
  used : w.mNoiseUsed.length ≤ mapBytes
  noiseFile : ∀ nf, w.mNoiseFile = some nf →
    nf.mLeaves.length = P.noiseLeafCount.toNat ∧ nf.mNextLeaf ≤ P.noiseLeafCount

/-- Just created, or loaded from any file. -/
def Started (P : Params) (K : WalletParams) (w : WalletManager) : Prop :=
  w.mInitialized = true ∧ ∃ file,
    (∃ passphrase entropy salt iv noiseExists writes,
      w = (create K passphrase entropy salt iv noiseExists writes (new file)).2) ∨
    (∃ passphrase, w = (load P K passphrase (new file)).2)

/-- What a file keeps of a wallet is in the manager that loaded it. -/
structure Restored (saved loaded : WalletManager) : Prop where
  masterPubkey : loaded.mMasterPubkey = saved.mMasterPubkey
  salt : loaded.mSalt = saved.mSalt
  iv : loaded.mIV = saved.mIV
  tag : loaded.mTag = saved.mTag
  encryptedEntropy : loaded.mEncryptedEntropy = saved.mEncryptedEntropy
  addresses : loaded.mAddresses = saved.mAddresses
  nextKeyIndex : loaded.mNextKeyIndex = saved.mNextKeyIndex
  nextChangeIndex : loaded.mNextChangeIndex = saved.mNextChangeIndex
  nextLeaf : loaded.mNoiseNextLeaf = saved.mNoiseNextLeaf
  used : ∀ index, loaded.isNoiseLeafUsed index = saved.isNoiseLeafUsed index

section

variable {P : Params} {K : WalletParams} {w : WalletManager}

theorem Kept.bounded (kept : Kept P w) : w.Bounded P where
  entropy := kept.entropy
  addresses := kept.addresses
  nextLeaf := kept.nextLeaf
  used := (Bitmap.length_trim_le _).trans kept.used

theorem Kept.writable (kept : Kept P w) (short : w.ShortLabels) : w.Writable where
  entropy := by
    have fits := kept.entropy.2.1
    omega
  addresses := kept.addresses.trans_lt (by decide)
  labels addr mem := (short addr mem).trans_lt (by decide)
  used := ((Bitmap.length_trim_le _).trans kept.used).trans_lt (by decide)

/-- The map restored answers as the map saved. -/
theorem isNoiseLeafUsed_restore {saved : WalletManager} (session : WalletManager)
    (used : saved.mNoiseUsed.length ≤ mapBytes) (index : UInt32) :
    (saved.restore session).isNoiseLeafUsed index = saved.isNoiseLeafUsed index := by
  have small := (Bitmap.length_trim_le saved.mNoiseUsed).trans used
  simp only [isNoiseLeafUsed, restore]
  rw [Bitmap.testBit_resize small, Bitmap.testBit_trim]

/-! ### The invariant -/

theorem Kept.saveToFile (kept : Kept P w) (writes : Bool) : Kept P (w.saveToFile writes).2 := by
  rcases saveToFile_eq writes w with same | same
  · rw [same]
    exact kept
  · rw [same]
    exact { kept with }

theorem kept_create {file : Option (List UInt8)} (fits : K.CipherFits)
    {passphrase : List UInt8} {entropy salt : Bytes32} {iv : Bytes16} {noiseExists writes : Bool}
    (started : (create K passphrase entropy salt iv noiseExists writes (new file)).2.mInitialized =
      true) :
    Kept P (create K passphrase entropy salt iv noiseExists writes (new file)).2 := by
  rcases create_cases (K := K) passphrase entropy salt iv noiseExists writes (new file) with
    same | ⟨-, -, seed, -, same⟩
  · rw [same] at started
    cases started
  rw [same] at started ⊢
  rcases storeEntropy_cases (K := K) passphrase entropy.toBytes seed salt iv writes (new file) with
    ⟨-, same⟩ | ⟨keys, cipher, -, encrypted, same⟩
  · rw [same] at started
    cases started
  · rw [same]
    refine Kept.saveToFile ?_ writes
    exact ⟨fits keys iv entropy cipher encrypted, Nat.zero_le _, UInt32.le_iff_toNat_le.mpr
      (Nat.zero_le _), Nat.zero_le _, fun nf loaded => nomatch loaded⟩

theorem kept_load {file : Option (List UInt8)} {passphrase : List UInt8}
    (started : (load P K passphrase (new file)).2.mInitialized = true) :
    Kept P (load P K passphrase (new file)).2 := by
  have session := sameSession_loadFromFile (P := P) (w := new file)
  rcases load_cases (P := P) (K := K) passphrase (new file) with same | ⟨ok, same⟩
  · rw [same, session.initialized] at started
    cases started
  · rw [same]
    have read : loadFromFile P (new file) = (.ok true, (loadFromFile P (new file)).2) :=
      Prod.ext ok rfl
    obtain ⟨bounded, -, long⟩ := bounded_loadFromFile read
    refine ⟨bounded.entropy, bounded.addresses, bounded.nextLeaf, long.le, ?_⟩
    intro nf loaded
    have none := session.noiseFile
    rw [show (loadFromFile P (new file)).2.mNoiseFile = some nf from loaded] at none
    cases none

theorem Kept.issueAddress (kept : Kept P w) (what : String) (label : List UInt8)
    (isChange writes : Bool) : Kept P (issueAddress P K what label isChange writes w).2 := by
  rcases issueAddress_cases (P := P) (K := K) what label isChange writes w with
    ⟨e, same⟩ | ⟨seed, -, -, room, issued⟩
  · rw [same]
    exact kept
  · rw [issued]
    refine Kept.saveToFile ?_ writes
    refine { kept with addresses := ?_ }
    rw [withAddress, List.length_append, List.length_singleton]
    exact room

theorem leaves_foldl_markLeafUsed (indices : List UInt32) : ∀ nf : NoiseFile,
    let marked := indices.foldl (fun nf index => nf.markLeafUsed index) nf
    marked.mLeaves = nf.mLeaves ∧ marked.mNextLeaf = nf.mNextLeaf := by
  induction indices with
  | nil => exact fun nf => ⟨rfl, rfl⟩
  | cons index indices ih =>
      intro nf
      have later := ih (nf.markLeafUsed index)
      rw [NoiseFile.mLeaves_markLeafUsed, NoiseFile.mNextLeaf_markLeafUsed] at later
      exact later

theorem Kept.useLeaves (kept : Kept P w) (indices : List UInt32) :
    Kept P (indices.foldl useLeaf w) := by
  rw [foldl_useLeaf]
  refine { kept with used := length_foldl_markMap_le indices kept.used, noiseFile := ?_ }
  intro nf loaded
  obtain ⟨nf₀, was, rfl⟩ := Option.map_eq_some_iff.mp loaded
  obtain ⟨leaves, next⟩ := leaves_foldl_markLeafUsed indices nf₀
  rw [leaves, next]
  exact kept.noiseFile nf₀ was

/-- Every operation keeps the limits. -/
theorem Kept.apply (kept : Kept P w) (op : WalletOp) : Kept P (op.apply P K w) := by
  cases op with
  | lock => exact { kept with }
  | unlock passphrase =>
      rcases unlock_cases (K := K) passphrase w with same | ⟨-, seed, -, same⟩
      · rw [WalletOp.apply, same]
        exact kept
      · rw [WalletOp.apply, same]
        exact { kept with }
  | loadNoiseFile decrypted =>
      rcases loadNoiseFile_cases (P := P) decrypted w with same | ⟨raw, nf, -, generated, same⟩
      · rw [WalletOp.apply, same]
        exact kept
      · rw [WalletOp.apply, same]
        refine { kept with noiseFile := ?_ }
        rintro _ ⟨rfl⟩
        obtain ⟨-, count, first⟩ := NoiseFile.built_generate generated
        have start : nf.mNextLeaf ≤ P.noiseLeafCount := by
          rw [first]
          exact UInt32.le_iff_toNat_le.mpr (Nat.zero_le _)
        constructor
        · exact (congrArg List.length (NoiseFile.mLeaves_setNextLeaf _)).trans count
        · exact NoiseFile.mNextLeaf_setNextLeaf_le count start
  | getNewAddress label writes => exact kept.issueAddress _ label false writes
  | createTransaction coin toAddress amount fee utxoSet chainHeight poolTxs message writes =>
      obtain ⟨w₁, held, from_, same⟩ := createTransaction_cases (P := P) (K := K) coin toAddress
        amount fee utxoSet chainHeight poolTxs message writes w
      have kept₁ : Kept P w₁ := by
        rcases from_ with rfl | rfl
        · exact kept
        · exact kept.issueAddress _ changeLabel true writes
      rw [WalletOp.apply, same]
      exact { kept₁ with }
  | signTransaction writes tx =>
      obtain ⟨held, consumed, same | same⟩ := signTransaction_cases (P := P) (K := K) writes tx w
      · rw [WalletOp.apply, same]
        exact { kept with }
      · rw [WalletOp.apply, same]
        have kept₁ : Kept P { w with mHeldOutpoints := held } := { kept with }
        exact (kept₁.useLeaves consumed).saveToFile writes
  | syncNoiseLeafPointer highest isSpent writes =>
      rcases syncNoiseLeafPointer_cases highest isSpent writes w with
        same | ⟨nf, next, spent, loaded, same⟩
      · rw [WalletOp.apply, same]
        exact kept
      · obtain ⟨count, inside⟩ := kept.noiseFile nf loaded
        have below : (nf.setNextLeaf next).mNextLeaf ≤ P.noiseLeafCount :=
          NoiseFile.mNextLeaf_setNextLeaf_le count inside
        have moved : Kept P { w with mNoiseFile := some (nf.setNextLeaf next) } := by
          refine { kept with noiseFile := ?_ }
          rintro _ ⟨rfl⟩
          exact ⟨(congrArg List.length (NoiseFile.mLeaves_setNextLeaf next)).trans count, below⟩
        have pointed : Kept P { w with
            mNoiseFile := some (nf.setNextLeaf next)
            mNoiseNextLeaf := (nf.setNextLeaf next).mNextLeaf } :=
          { moved with nextLeaf := below }
        rcases same with same | same
        · rw [WalletOp.apply, same]
          exact moved
        · rw [WalletOp.apply, same]
          exact (pointed.useLeaves spent).saveToFile writes

theorem Kept.run (ops : List WalletOp) : ∀ {w : WalletManager}, Kept P w →
    Kept P (ops.foldl (WalletOp.apply P K) w) := by
  induction ops with
  | nil => exact fun kept => kept
  | cons op ops ih => exact fun kept => ih (kept.apply op)

theorem Started.kept (fits : K.CipherFits) (started : Started P K w) : Kept P w := by
  obtain ⟨initialized, file, ⟨passphrase, entropy, salt, iv, noiseExists, writes, rfl⟩ |
    ⟨passphrase, rfl⟩⟩ := started
  · exact kept_create fits initialized
  · exact kept_load initialized

/-- The file of such a wallet is restored exactly when its labels are short. -/
theorem Kept.restored_iff {saved session : WalletManager} (kept : Kept P saved)
    (file : session.mWalletFile = some saved.fileBytes) :
    (loadFromFile P session).1 = .ok true ∧ Restored saved (loadFromFile P session).2 ↔
      saved.ShortLabels := by
  constructor
  · rintro ⟨ok, restored⟩ addr mem
    have read : loadFromFile P session = (.ok true, (loadFromFile P session).2) := Prod.ext ok rfl
    have short := (bounded_loadFromFile read).2.1
    rw [← restored.addresses] at mem
    exact short addr mem
  · intro short
    have read := (loadFromFile_fileBytes (P := P) (kept.writable short) file).1 ⟨kept.bounded, short⟩
    rw [read]
    exact ⟨rfl, rfl, rfl, rfl, rfl, rfl, rfl, rfl, rfl, rfl,
      isNoiseLeafUsed_restore session kept.used⟩

end

end WalletManager

/-- **Reloading.** The file that a created or loaded wallet writes, whatever was
done with it, loads and restores the wallet exactly when no label is longer
than 256 bytes. -/
theorem reload_iff {P : Params} {K : WalletParams} (fits : K.CipherFits) {w₀ : WalletManager}
    (started : Started P K w₀) (ops : List WalletOp) {writes : Bool}
    (saves : ((ops.foldl (WalletOp.apply P K) w₀).saveToFile writes).1 = true)
    (session : WalletManager) :
    let w := ops.foldl (WalletOp.apply P K) w₀
    let file := (w.saveToFile writes).2.mWalletFile
    let loaded := loadFromFile P { session with mWalletFile := file }
    (loaded.1 = .ok true ∧ Restored w loaded.2) ↔
      ∀ addr ∈ w.mAddresses, addr.label.length ≤ 256 := by
  have kept := (started.kept fits).run (K := K) ops
  dsimp only
  rw [saveToFile_of_true saves]
  exact kept.restored_iff rfl

/-! ### A label of 257 bytes -/

theorem cipherFits_smallWallet : smallWallet.CipherFits := by
  intro keys iv entropy cipher encrypted
  obtain rfl := Option.some.inj encrypted
  have long : (SmallNetwork.pad entropy.toBytes).length = 48 := by
    rw [SmallNetwork.pad, List.length_append, List.length_replicate, entropy.length_toBytes]
  rw [long]
  decide

namespace LongLabel

/-- A wallet just created on the small network. -/
def created : WalletManager := (create smallWallet [] 1 2 3 false true (new none)).2

/-- It is unlocked, given a noise file, and asked for an address with a label. -/
def ops (label : List UInt8) : List WalletOp :=
  [.unlock [], .loadNoiseFile (some (List.replicate noiseFileBytes 0)), .getNewAddress label true]

theorem started : Started smallNetwork smallWallet created :=
  ⟨by decide +kernel, none, .inl ⟨[], 1, 2, 3, false, true, rfl⟩⟩

/-- The label is in the wallet. -/
theorem label_mem (label : List UInt8) :
    ∃ addr ∈ ((ops label).foldl (WalletOp.apply smallNetwork smallWallet) created).mAddresses,
      addr.label = label := by
  have unlocked : ∃ seed, (unlock smallWallet [] created).2.usableSeed = some seed := by
    refine Option.isSome_iff_exists.mp ?_
    decide +kernel
  obtain ⟨seed, usable⟩ := unlocked
  have empty : (unlock smallWallet [] created).2.mAddresses = [] := by decide +kernel
  rw [ops, List.foldl_cons, List.foldl_cons, List.foldl_cons, List.foldl_nil, WalletOp.apply,
    WalletOp.apply, WalletOp.apply]
  generalize (unlock smallWallet [] created).2 = w at usable empty
  obtain ⟨nf, -, first⟩ := mAddresses_first (P := smallNetwork) (K := smallWallet) label true
    (List.length_replicate : (List.replicate noiseFileBytes (0 : UInt8)).length = noiseFileBytes)
    (by decide) (by decide) usable empty
  rw [first]
  exact ⟨_, List.mem_singleton.mpr rfl, rfl⟩

end LongLabel

/-- The file of a wallet with a label of 257 bytes does not restore it. -/
theorem long_label_not_restored :
    let w := (LongLabel.ops (List.replicate 257 0)).foldl
      (WalletOp.apply smallNetwork smallWallet) LongLabel.created
    let loaded := loadFromFile smallNetwork
      { new none with mWalletFile := (w.saveToFile true).2.mWalletFile }
    Started smallNetwork smallWallet LongLabel.created ∧ (w.saveToFile true).1 = true ∧
      ¬ (loaded.1 = .ok true ∧ Restored w loaded.2) := by
  have kept := (LongLabel.started.kept cipherFits_smallWallet).run (K := smallWallet)
    (LongLabel.ops (List.replicate 257 0))
  refine ⟨LongLabel.started, rfl, fun restored => ?_⟩
  have short := (kept.restored_iff rfl).mp restored
  obtain ⟨addr, mem, label⟩ := LongLabel.label_mem (List.replicate 257 0)
  have le := short addr mem
  rw [label, List.length_replicate] at le
  omega

theorem reload_iff_short_label :
    let w := (LongLabel.ops [65]).foldl (WalletOp.apply smallNetwork smallWallet) LongLabel.created
    let loaded := loadFromFile smallNetwork
      { new none with mWalletFile := (w.saveToFile true).2.mWalletFile }
    (loaded.1 = .ok true ∧ Restored w loaded.2) ↔ ∀ addr ∈ w.mAddresses, addr.label.length ≤ 256 :=
  reload_iff cipherFits_smallWallet LongLabel.started (LongLabel.ops [65]) rfl (new none)

end QmaskCore
