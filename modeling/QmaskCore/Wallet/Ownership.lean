import QmaskCore.Wallet.Session

/-!
Do the addresses of a wallet belong to the secret stored in it?

`KeyOp` are the operations of a wallet and its directory, over any number of
processes. `Sound` says the addresses in memory and in the file are under the
seed of the entropy encrypted beside them, each under an index of its own, and
the seed unlocked is that seed. Every operation that meets its condition keeps
it (`Sound.apply`), so it holds along every run of them (`addresses_owned`).
-/

namespace QmaskCore

open WalletManager

/-- The cipher always encrypts, to at least a byte and at most a block more than
it is given, and what decrypts under a tag that matches is what was encrypted. -/
structure WalletParams.Encrypts (K : WalletParams) : Prop where
  derives : ∀ passphrase salt, ∃ keys, K.derive passphrase salt = some keys
  encrypts : ∀ keys iv plain, ∃ cipher, K.encryptCBC keys iv plain = some cipher ∧
    cipher ≠ [] ∧ cipher.length ≤ plain.length + 16
  decrypts : ∀ keys iv plain cipher, K.encryptCBC keys iv plain = some cipher →
    K.decryptCBC keys iv cipher = some plain
  authentic : ∀ passphrase passphrase' salt iv keys keys' plain plain' cipher,
    K.derive passphrase salt = some keys → K.derive passphrase' salt = some keys' →
    K.encryptCBC keys iv plain = some cipher →
    K.computeTag keys' (buildAuthHeader salt iv) cipher =
      K.computeTag keys (buildAuthHeader salt iv) cipher →
    K.decryptCBC keys' iv cipher = some plain' → plain' = plain

namespace WalletManager

/-- `seed` is the seed of the entropy encrypted in the wallet, whatever
passphrase opens it. -/
def HasSeed (K : WalletParams) (w : WalletManager) (seed : Bytes64) : Prop :=
  (∃ passphrase entropy, decryptEntropy K passphrase w = some entropy) ∧
    ∀ passphrase entropy, decryptEntropy K passphrase w = some entropy →
      entropyToSeed K entropy = some seed

/-- The next index of a chain of keys. -/
def counter (isChange : Bool) (w : WalletManager) : UInt32 :=
  if isChange then w.mNextChangeIndex else w.mNextKeyIndex

/-- The indices of the addresses of a chain, as they stand in the list. -/
def indices (isChange : Bool) (w : WalletManager) : List Nat :=
  (w.mAddresses.filter (·.isChange = isChange)).map (·.keyIndex.toNat)

/-- Every address pays to the hash derived for it from the seed of the wallet. -/
def Belong (P : Params) (K : WalletParams) (kps : Bytes32) (w : WalletManager) : Prop :=
  w.mAddresses ≠ [] → ∃ seed, HasSeed K w seed ∧ ∀ addr ∈ w.mAddresses,
    addr.pubkeyHash = addressHash P K seed kps addr.keyIndex addr.isChange

/-- The secret and the addresses of a wallet, in memory or in a file. -/
structure Keys (P : Params) (K : WalletParams) (kps : Bytes32) (w : WalletManager) : Prop where
  secret : w.mEncryptedEntropy = [] ∨ ∃ seed, HasSeed K w seed
  belong : Belong P K kps w
  chain : ∀ isChange, w.indices isChange = List.range (w.counter isChange).toNat
  few : w.mAddresses.length ≤ maxAddresses.toNat
  entropy : w.mEncryptedEntropy.length < 2 ^ 32
  labels : ∀ addr ∈ w.mAddresses, addr.label.length < 2 ^ 32
  used : w.mNoiseUsed.length ≤ mapBytes

/-- A wallet in memory, its file beside it. -/
structure Sound (P : Params) (K : WalletParams) (kps : Bytes32) (noiseExists : Bool)
    (w : WalletManager) : Prop where
  keys : Keys P K kps w
  unlocked : ∀ seed, w.mUnlockedSeed = some seed → HasSeed K w seed
  fresh : w.mInitialized = false → w.mUnlockedSeed = none
  noise : w.mNoiseFile.isSome → w.mNoiseKps = kps ∧ noiseExists = true
  issued : w.mAddresses ≠ [] → noiseExists = true
  file : ∀ bytes, w.mWalletFile = some bytes → ∃ saved : WalletManager,
    bytes = saved.fileBytes ∧ Keys P K kps saved ∧ (saved.mAddresses ≠ [] → noiseExists = true)

section

variable {P : Params} {K : WalletParams} {kps : Bytes32} {noiseExists : Bool} {w : WalletManager}

theorem HasSeed.unique {seed seed' : Bytes64} (has : HasSeed K w seed) (has' : HasSeed K w seed') :
    seed = seed' := by
  obtain ⟨⟨passphrase, entropy, opens⟩, all⟩ := has
  exact Option.some.inj ((all _ _ opens).symm.trans (has'.2 _ _ opens))

/-- A secret just encrypted has the seed it was encrypted for. -/
theorem hasSeed_withSecret (enc : K.Encrypts) {passphrase entropy cipher : List UInt8}
    {keys seed : Bytes64} {salt : Bytes32} {iv : Bytes16}
    (derived : K.derive passphrase salt = some keys)
    (encrypted : K.encryptCBC keys iv entropy = some cipher)
    (opened : entropyToSeed K entropy = some seed) :
    HasSeed K (w.withSecret K keys seed salt iv cipher) seed := by
  have nonempty : cipher ≠ [] := by
    obtain ⟨cipher', same, nonempty, -⟩ := enc.encrypts keys iv entropy
    rw [encrypted, Option.some_inj] at same
    rwa [same]
  constructor
  · refine ⟨passphrase, entropy, ?_⟩
    rw [decryptEntropy, withSecret]
    dsimp only
    rw [if_neg nonempty, derived]
    dsimp only
    rw [if_neg (not_not.mpr rfl), enc.decrypts keys iv entropy cipher encrypted]
  · intro passphrase' entropy' decrypted
    rw [decryptEntropy, withSecret] at decrypted
    dsimp only at decrypted
    rw [if_neg nonempty] at decrypted
    split at decrypted
    · cases decrypted
    rename_i keys' derived'
    split at decrypted
    · cases decrypted
    rename_i matching
    rw [enc.authentic passphrase passphrase' salt iv keys keys' entropy entropy' cipher derived
      derived' encrypted (not_not.mp matching) decrypted, opened]

theorem Keys.writable (keys : Keys P K kps w) : w.Writable where
  entropy := keys.entropy
  addresses := keys.few.trans_lt (by decide)
  labels := keys.labels
  used := ((Bitmap.length_trim_le _).trans keys.used).trans_lt (by decide)

/-- No two addresses share their chain and their index. -/
theorem Keys.nodup (keys : Keys P K kps w) :
    (w.mAddresses.map fun addr => (addr.isChange, addr.keyIndex)).Nodup := by
  have chain (isChange : Bool) : w.mAddresses.Pairwise fun a b =>
      a.isChange = isChange → b.isChange = isChange → a.keyIndex ≠ b.keyIndex := by
    have nodup : (w.indices isChange).Nodup := by
      rw [keys.chain isChange]
      exact List.nodup_range
    rw [indices, List.Nodup, List.pairwise_map, List.pairwise_filter] at nodup
    refine nodup.imp fun {a b} apart first second same => ?_
    exact apart (decide_eq_true first) (decide_eq_true second) (congrArg UInt32.toNat same)
  rw [List.Nodup, List.pairwise_map]
  refine ((chain true).and (chain false)).imp fun {a b} apart same => ?_
  obtain ⟨change, index⟩ := Prod.mk.inj same
  cases first : a.isChange with
  | true => exact apart.1 first (change ▸ first) index
  | false => exact apart.2 first (change ▸ first) index

/-! ### One address more -/

theorem indices_withAddress (seed : Bytes64) (label : List UInt8) (isChange chain : Bool) :
    (w.withAddress P K seed label isChange).indices chain =
      w.indices chain ++ if isChange = chain then [(w.counter isChange).toNat] else [] := by
  rw [indices, withAddress, List.filter_append, List.map_append]
  by_cases same : isChange = chain
  · rw [if_pos same, List.filter_cons_of_pos (by exact decide_eq_true same)]
    rfl
  · rw [if_neg same, List.filter_cons_of_neg (by rw [decide_eq_true_iff]; exact same)]
    rfl

/-- A new address takes the next index of its chain. -/
theorem Keys.withAddress (keys : Keys P K kps w) {seed : Bytes64} (has : HasSeed K w seed)
    (sameKps : w.mNoiseKps = kps) (room : w.mAddresses.length < maxAddresses.toNat)
    {label : List UInt8} (short : label.length < 2 ^ 32) (isChange : Bool) :
    Keys P K kps (w.withAddress P K seed label isChange) := by
  refine ⟨keys.secret, ?_, ?_, ?_, keys.entropy, ?_, keys.used⟩
  · intro _
    refine ⟨seed, has, fun addr mem => ?_⟩
    rcases List.mem_append.mp mem with mem | mem
    · obtain ⟨seed', has', all⟩ := keys.belong (List.ne_nil_of_mem mem)
      rw [has.unique has']
      exact all addr mem
    · obtain rfl := List.mem_singleton.mp mem
      rw [← sameKps]
  · intro chain
    rw [indices_withAddress, keys.chain chain]
    -- As many addresses have been issued as the counter says, far from wrapping.
    have count : (w.counter isChange).toNat ≤ w.mAddresses.length := by
      have issued := congrArg List.length (keys.chain isChange)
      rw [List.length_range, indices, List.length_map] at issued
      rw [← issued]
      exact List.length_filter_le _ _
    have limit : maxAddresses.toNat = 1000000 := rfl
    have next : (w.counter isChange + 1).toNat = (w.counter isChange).toNat + 1 := by
      rw [UInt32.toNat_add]
      exact Nat.mod_eq_of_lt (by rw [UInt32.toNat_one]; omega)
    by_cases same : isChange = chain
    · subst same
      rw [if_pos rfl, ← List.range_succ, Nat.succ_eq_add_one, ← next]
      cases isChange
      · rfl
      · rfl
    · rw [if_neg same, List.append_nil]
      cases isChange
      · cases chain
        · exact absurd rfl same
        · rfl
      · cases chain
        · rfl
        · exact absurd rfl same
  · rw [WalletManager.withAddress, List.length_append, List.length_singleton]
    exact room
  · intro addr mem
    rcases List.mem_append.mp mem with mem | mem
    · exact keys.labels addr mem
    · obtain rfl := List.mem_singleton.mp mem
      exact short

/-! ### The invariant -/

theorem sound_new {file : Option (List UInt8)} (written : ∀ bytes, file = some bytes →
    ∃ saved : WalletManager, bytes = saved.fileBytes ∧ Keys P K kps saved ∧
      (saved.mAddresses ≠ [] → noiseExists = true)) :
    Sound P K kps noiseExists (new file) where
  keys := ⟨.inl rfl, fun some => absurd rfl some, fun isChange => by cases isChange <;> rfl,
    Nat.zero_le _, Nat.two_pow_pos 32, fun addr mem => (nomatch mem), Nat.zero_le _⟩
  unlocked seed some := nomatch some
  fresh _ := rfl
  noise some := nomatch some
  issued some := absurd rfl some
  file := written

theorem Sound.saveToFile (sound : Sound P K kps noiseExists w) (writes : Bool) :
    Sound P K kps noiseExists (w.saveToFile writes).2 := by
  rcases saveToFile_eq writes w with same | same
  · rw [same]
    exact sound
  · rw [same]
    refine { sound with keys := { sound.keys with }, unlocked := sound.unlocked, file := ?_ }
    intro bytes written
    exact ⟨w, (Option.some.inj written).symm, sound.keys, sound.issued⟩

/-- A cipher that always encrypts leaves no way for storing to fail but the write. -/
theorem storeEntropy_eq (enc : K.Encrypts) (passphrase entropy : List UInt8) (seed : Bytes64)
    (salt : Bytes32) (iv : Bytes16) (writes : Bool) :
    ∃ keys cipher, K.derive passphrase salt = some keys ∧
      K.encryptCBC keys iv entropy = some cipher ∧
      (storeEntropy K passphrase entropy seed salt iv writes w).2 =
        ((w.withSecret K keys seed salt iv cipher).saveToFile writes).2 := by
  rcases storeEntropy_cases (K := K) passphrase entropy seed salt iv writes w with
    ⟨fails, -⟩ | stored
  · obtain ⟨keys, derived⟩ := enc.derives passphrase salt
    obtain ⟨cipher, encrypted, -⟩ := enc.encrypts keys iv entropy
    rcases fails with none | ⟨keys', derived', none⟩
    · rw [derived] at none
      cases none
    · rw [derived, Option.some_inj] at derived'
      rw [← derived', encrypted] at none
      cases none
  · exact stored

/-- A new secret, where no address and no unlocked seed is of another. -/
theorem Sound.storeEntropy (enc : K.Encrypts) (sound : Sound P K kps noiseExists w)
    {entropy : List UInt8} {seed : Bytes64} (opened : entropyToSeed K entropy = some seed)
    (small : entropy.length ≤ 32)
    (addresses : w.mAddresses = [] ∨ HasSeed K w seed)
    (unlocked : ∀ seed', w.mUnlockedSeed = some seed' → seed' = seed)
    (passphrase : List UInt8) (salt : Bytes32) (iv : Bytes16) (writes : Bool) :
    Sound P K kps noiseExists (storeEntropy K passphrase entropy seed salt iv writes w).2 := by
  obtain ⟨keys, cipher, derived, encrypted, same⟩ :=
    storeEntropy_eq (w := w) enc passphrase entropy seed salt iv writes
  · rw [same]
    have has := hasSeed_withSecret (w := w) enc derived encrypted opened
    have size : cipher.length < 2 ^ 32 := by
      obtain ⟨cipher', same, -, size⟩ := enc.encrypts keys iv entropy
      rw [encrypted, Option.some_inj] at same
      rw [same]
      omega
    refine Sound.saveToFile ?_ writes
    refine { sound with
      keys := { sound.keys with
        secret := .inr ⟨seed, has⟩
        belong := ?_
        chain := sound.keys.chain
        entropy := size }
      unlocked := ?_
      fresh := fun no => nomatch no }
    · intro nonempty
      refine ⟨seed, has, ?_⟩
      rcases addresses with empty | had
      · exact absurd empty nonempty
      · obtain ⟨seed', has', all⟩ := sound.keys.belong nonempty
        rw [had.unique has']
        exact all
    · intro seed' still
      rw [unlocked seed' still]
      exact has

/-- An address under the seed unlocked. -/
theorem Sound.issueAddress (sound : Sound P K kps noiseExists w) (what : String)
    {label : List UInt8} (short : label.length < 2 ^ 32) (isChange writes : Bool) :
    Sound P K kps noiseExists (issueAddress P K what label isChange writes w).2 := by
  rcases issueAddress_cases (P := P) (K := K) what label isChange writes w with
    ⟨e, same⟩ | ⟨seed, usable, loaded, room, issued⟩
  · rw [same]
    exact sound
  · rw [issued]
    refine Sound.saveToFile ?_ writes
    obtain ⟨sameKps, exists_⟩ := sound.noise loaded
    have unlocked : w.mUnlockedSeed = some seed := by
      rw [usableSeed] at usable
      split at usable
      · cases usable
      · exact usable
    exact { sound with
      keys := sound.keys.withAddress (sound.unlocked seed unlocked) sameKps room short isChange
      unlocked := sound.unlocked
      issued := fun _ => exists_ }

end

end WalletManager

/-! ### Runs -/

/-- A wallet and whether there is a noise file in its directory. -/
structure KeyState where
  wallet : WalletManager
  noiseExists : Bool

/-- What happens to a wallet, process after process. The noise file is made once. -/
inductive KeyOp where
  | restart
  | makeNoise
  | create (passphrase : List UInt8) (entropy salt : Bytes32) (iv : Bytes16) (writes : Bool)
  | load (passphrase : List UInt8)
  | importMnemonic (mnemonic passphrase : List UInt8) (salt : Bytes32) (iv : Bytes16)
      (writes : Bool)
  | lock
  | unlock (passphrase : List UInt8)
  | loadNoiseFile (opens : Bool)
  | getNewAddress (label : List UInt8) (writes : Bool)
  | createTransaction (coin : Int64) (toAddress : List UInt8) (amount fee : Int64)
      (utxoSet : UTXOSet) (chainHeight : UInt32) (poolTxs : Option (List Transaction))
      (message : Option (List UInt8)) (writes : Bool)

namespace KeyOp

variable (P : Params) (K : WalletParams) (raw : List UInt8)

/-- The operations of one process. -/
def applyTo (noiseExists : Bool) (w : WalletManager) : KeyOp → WalletManager
  | restart => new w.mWalletFile
  | makeNoise => w
  | create passphrase entropy salt iv writes =>
      (w.create K passphrase entropy salt iv noiseExists writes).2
  | load passphrase => (w.load P K passphrase).2
  | importMnemonic mnemonic passphrase salt iv writes =>
      (w.importMnemonic K mnemonic passphrase salt iv writes).2
  | lock => w.lock
  | unlock passphrase => (w.unlock K passphrase).2
  | loadNoiseFile opens =>
      (w.loadNoiseFile P (if noiseExists && opens then some raw else none)).2
  | getNewAddress label writes => (w.getNewAddress P K label writes).2
  | createTransaction coin toAddress amount fee utxoSet chainHeight poolTxs message writes =>
      (w.createTransaction P K coin toAddress amount fee utxoSet chainHeight poolTxs message writes).2

def apply (s : KeyState) (op : KeyOp) : KeyState :=
  ⟨op.applyTo P K raw s.noiseExists s.wallet, s.noiseExists || op matches makeNoise⟩

/-- The condition of an operation in a state: a mnemonic is imported into a
wallet without addresses, or of the seed it has, and no other seed is unlocked;
the file loaded reads back and no seed but its own is unlocked; a label has
fewer than `2 ^ 32` bytes. -/
def Meets (s : KeyState) : KeyOp → Prop
  | importMnemonic mnemonic _ _ _ _ => ∀ entropy seed,
      mnemonicEntropy K mnemonic = .ok entropy → entropyToSeed K entropy = some seed →
      (s.wallet.mAddresses = [] ∨ HasSeed K s.wallet seed) ∧
        ∀ seed', s.wallet.mUnlockedSeed = some seed' → seed' = seed
  | load _ => ∀ saved : WalletManager, s.wallet.mWalletFile = some saved.fileBytes →
      saved.Writable → (saved.Bounded P ∧ saved.ShortLabels) ∧
        ∀ seed, s.wallet.mUnlockedSeed = some seed → HasSeed K saved seed
  | getNewAddress label _ => label.length < 2 ^ 32
  | _ => True

/-- Every operation of the run meets its condition when its turn comes. -/
def MeetsAll (s : KeyState) : List KeyOp → Prop
  | [] => True
  | op :: ops => op.Meets P K s ∧ MeetsAll (op.apply P K raw s) ops

end KeyOp

/-- The KPS of the noise file. -/
def kpsOf (P : Params) (raw : List UInt8) : Bytes32 :=
  ((NoiseFile.generate P raw P.noiseLeafCount).map (·.mRoot)).getD 0

namespace WalletManager

variable {P : Params} {K : WalletParams} {kps : Bytes32} {raw : List UInt8} {noiseExists : Bool}
  {w : WalletManager}

theorem Sound.mono (sound : Sound P K kps noiseExists w) (made : Bool) :
    Sound P K kps (noiseExists || made) w where
  keys := sound.keys
  unlocked := sound.unlocked
  fresh := sound.fresh
  noise loaded := ⟨(sound.noise loaded).1, by rw [(sound.noise loaded).2, Bool.true_or]⟩
  issued some := by rw [sound.issued some, Bool.true_or]
  file bytes written := by
    obtain ⟨saved, same, keys, issued⟩ := sound.file bytes written
    exact ⟨saved, same, keys, fun some => by rw [issued some, Bool.true_or]⟩

/-- A wallet is created where there is no address yet. -/
theorem Sound.create (enc : K.Encrypts) (sound : Sound P K kps noiseExists w)
    (passphrase : List UInt8) (entropy salt : Bytes32) (iv : Bytes16) (writes : Bool) :
    Sound P K kps noiseExists (create K passphrase entropy salt iv noiseExists writes w).2 := by
  rcases create_cases (K := K) passphrase entropy salt iv noiseExists writes w with
    same | ⟨fresh, alone, seed, opened, same⟩
  · rw [same]
    exact sound
  · rw [same]
    have empty : w.mAddresses = [] := by
      by_contra some
      rw [sound.issued some] at alone
      cases alone
    refine sound.storeEntropy enc opened entropy.length_toBytes.le (.inl empty) ?_ passphrase salt
      iv writes
    intro seed' still
    rw [sound.fresh fresh] at still
    cases still

theorem length_mnemonicEntropy {mnemonic entropy : List UInt8}
    (decoded : mnemonicEntropy K mnemonic = .ok entropy) : entropy.length ≤ 32 := by
  unfold mnemonicEntropy at decoded
  split at decoded
  · cases decoded
  dsimp only at decoded
  split at decoded
  · cases decoded
  split at decoded
  · cases decoded
  · rename_i supported
    cases decoded
    rw [not_or] at supported
    exact (List.length_take_le _ _).trans (not_lt.mp supported.2)

theorem Sound.importMnemonic (enc : K.Encrypts) (sound : Sound P K kps noiseExists w)
    (mnemonic passphrase : List UInt8) (salt : Bytes32) (iv : Bytes16) (writes : Bool)
    (meets : KeyOp.Meets P K ⟨w, noiseExists⟩
      (.importMnemonic mnemonic passphrase salt iv writes)) :
    Sound P K kps noiseExists (importMnemonic K mnemonic passphrase salt iv writes w).2 := by
  rcases importMnemonic_cases (K := K) mnemonic passphrase salt iv writes w with
    same | ⟨entropy, seed, decoded, opened, same⟩
  · rw [same]
    exact sound
  · rw [same]
    obtain ⟨addresses, unlocked⟩ := meets entropy seed decoded opened
    exact sound.storeEntropy enc opened (length_mnemonicEntropy decoded) addresses unlocked passphrase
      salt iv writes

/-- A file that reads back brings its own secret, addresses and counters. -/
theorem Sound.loadFromFile (sound : Sound P K kps noiseExists w) {passphrase : List UInt8}
    (meets : KeyOp.Meets P K ⟨w, noiseExists⟩ (.load passphrase)) :
    Sound P K kps noiseExists (loadFromFile P w).2 := by
  cases written : w.mWalletFile with
  | none =>
      rw [WalletManager.loadFromFile, written]
      exact sound
  | some bytes =>
      obtain ⟨saved, rfl, keys, issued⟩ := sound.file bytes written
      obtain ⟨reads, opens⟩ := meets saved written keys.writable
      rw [(loadFromFile_fileBytes keys.writable written).1 reads]
      exact {
        keys := { keys with used := (length_resize _ _).le }
        unlocked := opens
        fresh := sound.fresh
        noise := sound.noise
        issued := issued
        file := sound.file }

theorem Sound.load (sound : Sound P K kps noiseExists w) {passphrase : List UInt8}
    (meets : KeyOp.Meets P K ⟨w, noiseExists⟩ (.load passphrase)) :
    Sound P K kps noiseExists (load P K passphrase w).2 := by
  have read := sound.loadFromFile meets
  rcases load_cases (P := P) (K := K) passphrase w with same | ⟨-, same⟩
  · rw [same]
    exact read
  · rw [same]
    exact { read with
      keys := { read.keys with }
      unlocked := read.unlocked
      fresh := fun no => nomatch no }

/-- The seed unlocked is that of the entropy decrypted. -/
theorem Sound.unlock (sound : Sound P K kps noiseExists w) (passphrase : List UInt8) :
    Sound P K kps noiseExists (unlock K passphrase w).2 := by
  rcases unlock_cases (K := K) passphrase w with same | ⟨initialized, seed, opened, same⟩
  · rw [same]
    exact sound
  · rw [same]
    obtain ⟨entropy, decrypted, derived⟩ := openSeed_eq_some opened
    have has : HasSeed K w seed := by
      rcases sound.keys.secret with empty | ⟨seed', has⟩
      · rw [decryptEntropy, if_pos empty] at decrypted
        cases decrypted
      · have same := has.2 passphrase entropy decrypted
        rw [derived, Option.some_inj] at same
        rw [same]
        exact has
    refine { sound with
      keys := { sound.keys with }
      unlocked := ?_
      fresh := ?_ }
    · rintro _ ⟨rfl⟩
      exact has
    · intro fresh
      rw [show w.mInitialized = false from fresh] at initialized
      cases initialized

theorem Sound.loadNoiseFile (sound : Sound P K (kpsOf P raw) noiseExists w) (opens : Bool) :
    Sound P K (kpsOf P raw) noiseExists
      (loadNoiseFile P (if noiseExists && opens then some raw else none) w).2 := by
  rcases loadNoiseFile_cases (P := P) (if noiseExists && opens then some raw else none) w with
    same | ⟨raw', nf, decrypted, generated, same⟩
  · rw [same]
    exact sound
  · rw [same]
    split at decrypted
    · rename_i there
      obtain rfl := Option.some.inj decrypted
      refine { sound with
        keys := { sound.keys with }
        unlocked := sound.unlocked
        noise := fun _ => ⟨?_, (Bool.and_eq_true_iff.mp there).1⟩ }
      rw [kpsOf, generated]
      rfl
    · cases decrypted

/-- Every operation that meets its condition keeps the wallet sound. -/
theorem Sound.apply (enc : K.Encrypts) (sound : Sound P K (kpsOf P raw) noiseExists w) {op : KeyOp}
    (meets : op.Meets P K ⟨w, noiseExists⟩) :
    Sound P K (kpsOf P raw) noiseExists (op.applyTo P K raw noiseExists w) := by
  cases op with
  | restart => exact sound_new sound.file
  | makeNoise => exact sound
  | create passphrase entropy salt iv writes =>
      exact sound.create enc passphrase entropy salt iv writes
  | load passphrase => exact sound.load meets
  | importMnemonic mnemonic passphrase salt iv writes =>
      exact sound.importMnemonic enc mnemonic passphrase salt iv writes meets
  | lock =>
      exact { sound with
        keys := { sound.keys with }
        unlocked := fun seed none => nomatch none
        fresh := fun _ => rfl }
  | unlock passphrase => exact sound.unlock passphrase
  | loadNoiseFile opens => exact sound.loadNoiseFile opens
  | getNewAddress label writes => exact sound.issueAddress _ meets false writes
  | createTransaction coin toAddress amount fee utxoSet chainHeight poolTxs message writes =>
      obtain ⟨w₁, held, start, same⟩ := createTransaction_cases (P := P) (K := K) coin toAddress
        amount fee utxoSet chainHeight poolTxs message writes w
      have sound₁ : Sound P K (kpsOf P raw) noiseExists w₁ := by
        rcases start with rfl | rfl
        · exact sound
        · exact sound.issueAddress _ (by decide) true writes
      rw [KeyOp.applyTo, same]
      exact { sound₁ with
        keys := { sound₁.keys with }
        unlocked := sound₁.unlocked }

theorem Sound.run (enc : K.Encrypts) : ∀ {ops : List KeyOp} {s : KeyState},
    Sound P K (kpsOf P raw) s.noiseExists s.wallet → KeyOp.MeetsAll P K raw s ops →
    let s' := ops.foldl (KeyOp.apply P K raw) s
    Sound P K (kpsOf P raw) s'.noiseExists s'.wallet := by
  intro ops
  induction ops with
  | nil => exact fun sound _ => sound
  | cons op ops ih => exact fun sound meets => ih ((sound.apply enc meets.1).mono _) meets.2

end WalletManager

/-- **Ownership.** Along every run of operations that meet their conditions, the
addresses of the wallet are those of the seed of the entropy encrypted in it
and of the KPS of its noise file, and no two share a chain and an index. -/
theorem addresses_owned {P : Params} {K : WalletParams} (enc : K.Encrypts) (raw : List UInt8)
    (noiseExists : Bool) {ops : List KeyOp}
    (meets : KeyOp.MeetsAll P K raw ⟨new none, noiseExists⟩ ops) :
    let w := (ops.foldl (KeyOp.apply P K raw) ⟨new none, noiseExists⟩).wallet
    (w.mAddresses ≠ [] → ∃ seed, HasSeed K w seed ∧ ∀ addr ∈ w.mAddresses,
      addr.pubkeyHash = addressHash P K seed (kpsOf P raw) addr.keyIndex addr.isChange) ∧
    (w.mAddresses.map fun addr => (addr.isChange, addr.keyIndex)).Nodup ∧
    (w.mNoiseFile.isSome → w.mNoiseKps = kpsOf P raw) := by
  have start : Sound P K (kpsOf P raw) noiseExists (new none) :=
    sound_new fun bytes written => nomatch written
  have sound := start.run enc meets
  exact ⟨sound.keys.belong, sound.keys.nodup, fun loaded => (sound.noise loaded).1⟩

/-! ### Another phrase imported -/

theorem encrypts_smallWallet : smallWallet.Encrypts := by
  have opens (plain : List UInt8) : SmallNetwork.unpad (SmallNetwork.pad plain) = plain := by
    have some : 0 < 16 - plain.length % 16 := by omega
    have last : (SmallNetwork.pad plain).getLastD 0 = UInt8.ofNat (16 - plain.length % 16) := by
      rw [SmallNetwork.pad, List.getLastD_eq_getLast?, List.getLast?_append,
        List.getLast?_replicate, if_neg (by omega)]
      rfl
    rw [SmallNetwork.unpad, last, UInt8.toNat_ofNat', Nat.mod_eq_of_lt (by omega),
      SmallNetwork.pad, List.length_append, List.length_replicate, Nat.add_sub_cancel,
      List.take_left']
    rfl
  constructor
  · exact fun _ _ => ⟨0, rfl⟩
  · intro keys iv plain
    refine ⟨SmallNetwork.pad plain, rfl, ?_, ?_⟩
    · intro empty
      have long := congrArg List.length empty
      rw [SmallNetwork.pad, List.length_append, List.length_replicate, List.length_nil] at long
      omega
    · rw [SmallNetwork.pad, List.length_append, List.length_replicate]
      omega
  · intro keys iv plain cipher encrypted
    obtain rfl := Option.some.inj encrypted
    exact congrArg some (opens plain)
  · intro passphrase passphrase' salt iv keys keys' plain plain' cipher _ _ encrypted _ decrypted
    obtain rfl := Option.some.inj encrypted
    rw [← Option.some.inj decrypted]
    exact opens plain

namespace SecondPhrase

/-- A wallet with an address. -/
def ops : List KeyOp :=
  [.create [] 1 2 3 true, .unlock [], .makeNoise, .loadNoiseFile true, .getNewAddress [] true]

end SecondPhrase

open SmallNetwork in
theorem addresses_owned_one_address :
    let P := { smallNetwork with sha256 := spread }
    let raw := List.replicate noiseFileBytes 0
    let w := (SecondPhrase.ops.foldl (KeyOp.apply P smallWallet raw) ⟨new none, false⟩).wallet
    (w.mAddresses ≠ [] → ∃ seed, HasSeed smallWallet w seed ∧ ∀ addr ∈ w.mAddresses,
      addr.pubkeyHash =
        addressHash P smallWallet seed (kpsOf P raw) addr.keyIndex addr.isChange) ∧
    (w.mAddresses.map fun addr => (addr.isChange, addr.keyIndex)).Nodup ∧
    (w.mNoiseFile.isSome → w.mNoiseKps = kpsOf P raw) :=
  addresses_owned encrypts_smallWallet _ false
    ⟨trivial, trivial, trivial, trivial, by exact Nat.two_pow_pos 32, trivial⟩

namespace SecondPhrase

/-- The network whose digest tells the keys apart. -/
abbrev net : Params := { smallNetwork with sha256 := SmallNetwork.spread }

/-- The wallet just created, once unlocked. -/
def unlocked : WalletManager :=
  (unlock smallWallet [] (create smallWallet [] 1 2 3 false true (new none)).2).2

theorem addressHash_eq (seed : Bytes64) (kps : Bytes32) (keyIndex : UInt32) (isChange : Bool) :
    addressHash net smallWallet seed kps keyIndex isChange =
      100 * (seed.setWidth 256 + BitVec.ofNat 256 keyIndex.toNat) + kps := by
  have long (a b : Bytes32) : ¬ (a.toBytes ++ b.toBytes).length ≤ 32 := by simp
  change SmallNetwork.spread (Bytes32.toBytes _ ++ kps.toBytes) = _
  rw [SmallNetwork.spread, if_neg (long _ _), List.take_left' (Bytes32.length_toBytes _),
    List.drop_left' (Bytes32.length_toBytes _), Bytes32.ofBytes_toBytes, Bytes32.ofBytes_toBytes]
  rfl

/-- The phrase `[2]` is imported: the addresses are as they were, the seed is
that of the phrase. -/
theorem imported (w : WalletManager) :
    let w' := (importMnemonic smallWallet [2] [] 4 5 true w).2
    w'.mAddresses = w.mAddresses ∧ HasSeed smallWallet w' (smallWallet.mnemonicToSeed [2]) := by
  have decoded : mnemonicEntropy smallWallet [2] = .ok [2] := by decide
  have opened : entropyToSeed smallWallet [2] = some (smallWallet.mnemonicToSeed [2]) := rfl
  obtain ⟨keys, cipher, derived, encrypted, stored⟩ := storeEntropy_eq (w := w) encrypts_smallWallet
    [] [2] (smallWallet.mnemonicToSeed [2]) 4 5 true
  rw [importMnemonic_eq decoded opened, stored]
  exact ⟨rfl, hasSeed_withSecret (w := w) encrypts_smallWallet derived encrypted opened⟩

/-- The first address, under the seed of the wallet as it was created. -/
theorem first_address {raw : List UInt8} (long : raw.length = noiseFileBytes) :
    ∃ seed, unlocked.usableSeed = some seed ∧
      (ops.foldl (KeyOp.apply net smallWallet raw) ⟨new none, false⟩).wallet.mAddresses =
        [⟨addressHash net smallWallet seed (kpsOf net raw) unlocked.mNextKeyIndex false,
          unlocked.mNextKeyIndex, [], false⟩] := by
  obtain ⟨seed, usable⟩ : ∃ seed, unlocked.usableSeed = some seed := by
    refine Option.isSome_iff_exists.mp ?_
    decide +kernel
  have empty : unlocked.mAddresses = [] := by decide +kernel
  obtain ⟨nf, generated, first⟩ := mAddresses_first (P := net) (K := smallWallet) [] true long
    (by decide) (by decide) usable empty
  refine ⟨seed, usable, ?_⟩
  have run : (ops.foldl (KeyOp.apply net smallWallet raw) ⟨new none, false⟩).wallet =
      (getNewAddress net smallWallet [] true (loadNoiseFile net (some raw) unlocked).2).2 := by
    simp only [ops, List.foldl_cons, List.foldl_nil, KeyOp.apply, KeyOp.applyTo, Bool.or_true,
      Bool.or_false, Bool.and_true, if_true, unlocked]
  rw [run, first, kpsOf, generated]
  rfl

end SecondPhrase

/-- Another phrase is imported into a wallet with an address: the address is not
of the seed the wallet has then. -/
theorem import_strands_address :
    let P := SecondPhrase.net
    let raw := List.replicate noiseFileBytes 0
    let w := ((SecondPhrase.ops ++ [KeyOp.importMnemonic [2] [] 4 5 true]).foldl
      (KeyOp.apply P smallWallet raw) ⟨new none, false⟩).wallet
    ¬ (w.mAddresses ≠ [] → ∃ seed, HasSeed smallWallet w seed ∧ ∀ addr ∈ w.mAddresses,
      addr.pubkeyHash =
        addressHash P smallWallet seed (kpsOf P raw) addr.keyIndex addr.isChange) := by
  dsimp only
  have apart : 100 * ((SecondPhrase.unlocked.usableSeed.getD 0).setWidth 256 +
      BitVec.ofNat 256 SecondPhrase.unlocked.mNextKeyIndex.toNat) ≠
      100 * ((smallWallet.mnemonicToSeed [2]).setWidth 256 +
        BitVec.ofNat 256 SecondPhrase.unlocked.mNextKeyIndex.toNat) := by decide +kernel
  obtain ⟨seed, usable, first⟩ := SecondPhrase.first_address
    (List.length_replicate : (List.replicate noiseFileBytes (0 : UInt8)).length = noiseFileBytes)
  rw [usable, Option.getD_some] at apart
  generalize List.replicate noiseFileBytes (0 : UInt8) = raw at first ⊢
  rw [List.foldl_append, List.foldl_cons, List.foldl_nil]
  generalize SecondPhrase.ops.foldl (KeyOp.apply SecondPhrase.net smallWallet raw)
    ⟨new none, false⟩ = s at first ⊢
  have after : (KeyOp.apply SecondPhrase.net smallWallet raw s
      (.importMnemonic [2] [] 4 5 true)).wallet =
      (importMnemonic smallWallet [2] [] 4 5 true s.wallet).2 := rfl
  rw [after]
  obtain ⟨same, has⟩ := SecondPhrase.imported s.wallet
  generalize (importMnemonic smallWallet [2] [] 4 5 true s.wallet).2 = w at same has ⊢
  generalize smallWallet.mnemonicToSeed [2] = second at apart has
  generalize SecondPhrase.unlocked.mNextKeyIndex = keyIndex at apart first
  rw [same, first]
  intro belong
  obtain ⟨seed', has', all⟩ := belong (List.cons_ne_nil _ _)
  have under := all _ (List.mem_cons_self ..)
  rw [has'.unique has, SecondPhrase.addressHash_eq, SecondPhrase.addressHash_eq,
    BitVec.add_left_inj] at under
  exact apart under

end QmaskCore
