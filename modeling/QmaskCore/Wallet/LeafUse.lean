import Mathlib.Data.List.Pairwise
import QmaskCore.Wallet.Reload

/-!
Is a leaf ever signed with twice?

A run signs any transactions and ends the process at any point; the next one
loads what the last save left on disk. `Tracks` is the invariant: a leaf handed
out before is used in the file, and in the manager as long as it can sign.
`leaves_used_once` draws the conclusion for every run.
-/

namespace QmaskCore

open WalletManager

/-- The indices of the leaves the proofs of a transaction reveal. -/
def Transaction.leafIndices (tx : Transaction) : List UInt32 :=
  tx.inputs.flatMap fun input => (NoiseProof.scan input.noiseProof).1.map (·.leafIndex)

/-- The file is one that `SaveToFile` wrote with the leaf marked, and whoever
loads it finds the leaf used. -/
def RecordedUsed (P : Params) (file : Option (List UInt8)) (index : UInt32) : Prop :=
  (∃ saved : WalletManager, file = some saved.fileBytes ∧ saved.isNoiseLeafUsed index = true) ∧
  ∀ w : WalletManager, w.mWalletFile = file → (loadFromFile P w).1 = .ok true →
    (loadFromFile P w).2.isNoiseLeafUsed index = true

namespace WalletManager

/-- The sizes of what is saved fit their 32 bits, the map has no bits beyond the
pool, and a noise file that is loaded was generated with the pool's leaves. -/
structure Ready (P : Params) (w : WalletManager) : Prop where
  writable : w.Writable
  used : w.mNoiseUsed.length ≤ mapBytes
  noiseFile : ∀ nf, w.mNoiseFile = some nf →
    nf.Built P ∧ nf.mLeaves.length = P.noiseLeafCount.toNat

section

variable {P : Params} {K : WalletParams} {w : WalletManager}

/-! ### Marking leaves -/

theorem testBit_markMap {map : List UInt8} (small : map.length ≤ mapBytes) (index : UInt32)
    (j : Nat) : Bitmap.testBit (markMap map index) j = true ↔
      Bitmap.testBit map j = true ∨ index.toNat = j ∧ index.toNat / 8 < mapBytes := by
  have whole : (if map.length < mapBytes then resize map mapBytes else map) =
      resize map mapBytes := by
    split
    · rfl
    · rw [resize_of_length (by omega)]
  rw [markMap, whole, Bitmap.testBit_setBit, Bitmap.testBit_resize small, length_resize,
    Bool.or_eq_true, Bool.and_eq_true, decide_eq_true_eq, decide_eq_true_eq]

/-- What is marked is used, unless it has no place in the map; what was used is still. -/
theorem isNoiseLeafUsed_useLeaves (index : UInt32) : ∀ (indices : List UInt32) {w : WalletManager},
    w.mNoiseUsed.length ≤ mapBytes → ((indices.foldl useLeaf w).isNoiseLeafUsed index = true ↔
      w.isNoiseLeafUsed index = true ∨ index ∈ indices ∧ index.toNat / 8 < mapBytes) := by
  intro indices
  induction indices with
  | nil =>
      intro w _
      simp only [List.foldl_nil, List.not_mem_nil, false_and, or_false]
  | cons first indices ih =>
      intro w small
      have here : (w.useLeaf first).isNoiseLeafUsed index = true ↔
          w.isNoiseLeafUsed index = true ∨ first.toNat = index.toNat ∧ first.toNat / 8 < mapBytes :=
        testBit_markMap small first index.toNat
      rw [List.foldl_cons, ih (length_markMap_le small first).le, here, UInt32.toNat_inj, List.mem_cons]
      constructor
      · rintro ((used | ⟨rfl, near⟩) | ⟨mem, near⟩)
        · exact .inl used
        · exact .inr ⟨.inl rfl, near⟩
        · exact .inr ⟨.inr mem, near⟩
      · rintro (used | ⟨rfl | mem, near⟩)
        · exact .inl (.inl used)
        · exact .inl (.inr ⟨rfl, near⟩)
        · exact .inr ⟨mem, near⟩

theorem Ready.held (ready : w.Ready P) (held : AList fun _ : OutPoint => Bytes32) :
    { w with mHeldOutpoints := held }.Ready P :=
  ⟨{ ready.writable with }, ready.used, ready.noiseFile⟩

theorem Ready.session (ready : w.Ready P) (locked initialized : Bool) (seed : Option Bytes64) :
    { w with mLocked := locked, mInitialized := initialized, mUnlockedSeed := seed }.Ready P :=
  ⟨{ ready.writable with }, ready.used, ready.noiseFile⟩

theorem Built.foldl_markLeafUsed (indices : List UInt32) : ∀ {nf : NoiseFile}, nf.Built P →
    (indices.foldl (fun nf index => nf.markLeafUsed index) nf).Built P := by
  induction indices with
  | nil => exact fun built => built
  | cons index indices ih => exact fun built => ih (built.markLeafUsed index)

theorem Ready.useLeaves (ready : w.Ready P) (indices : List UInt32) :
    (indices.foldl useLeaf w).Ready P := by
  rw [foldl_useLeaf]
  have small := length_foldl_markMap_le indices ready.used
  constructor
  · exact {
      entropy := ready.writable.entropy
      addresses := ready.writable.addresses
      labels := ready.writable.labels
      used := ((Bitmap.length_trim_le _).trans small).trans_lt (by decide) }
  · exact small
  · intro nf loaded
    obtain ⟨nf', before, rfl⟩ := Option.map_eq_some_iff.mp loaded
    obtain ⟨built, count⟩ := ready.noiseFile nf' before
    refine ⟨Built.foldl_markLeafUsed indices built, ?_⟩
    rw [(leaves_foldl_markLeafUsed indices nf').1]
    exact count

theorem Ready.saveToFile (ready : w.Ready P) (writes : Bool) : (w.saveToFile writes).2.Ready P := by
  rcases saveToFile_eq writes w with same | same
  · rw [same]
    exact ready
  · rw [same]
    exact ⟨{ ready.writable with }, ready.used, ready.noiseFile⟩

/-- The pointer of the noise file moves. -/
theorem Ready.setNextLeaf (ready : w.Ready P) {nf : NoiseFile} (loaded : w.mNoiseFile = some nf)
    (next : UInt32) : { w with mNoiseFile := some (nf.setNextLeaf next) }.Ready P := by
  refine ⟨{ ready.writable with }, ready.used, ?_⟩
  rintro _ ⟨rfl⟩
  obtain ⟨built, count⟩ := ready.noiseFile nf loaded
  exact ⟨built.setNextLeaf next,
    (congrArg List.length (NoiseFile.mLeaves_setNextLeaf next)).trans count⟩

theorem Ready.loadNoiseFile (ready : w.Ready P) (decrypted : Option (List UInt8)) :
    (loadNoiseFile P decrypted w).2.Ready P := by
  rcases loadNoiseFile_cases (P := P) decrypted w with same | ⟨raw, nf, -, generated, same⟩
  · rw [same]
    exact ready
  · rw [same]
    refine ⟨{ ready.writable with }, ready.used, ?_⟩
    rintro _ ⟨rfl⟩
    obtain ⟨built, count, -⟩ := NoiseFile.built_generate generated
    have pointed := built.setNextLeaf w.mNoiseNextLeaf
    exact ⟨⟨pointed.few, pointed.levels⟩,
      (congrArg List.length (NoiseFile.mLeaves_setNextLeaf _)).trans count⟩

theorem Ready.issueAddress (ready : w.Ready P) (what : String) {label : List UInt8}
    (fits : label.length < 2 ^ 32) (isChange writes : Bool) :
    (issueAddress P K what label isChange writes w).2.Ready P := by
  rcases issueAddress_cases (P := P) (K := K) what label isChange writes w with
    ⟨e, same⟩ | ⟨seed, -, -, room, issued⟩
  · rw [same]
    exact ready
  · rw [issued]
    refine Ready.saveToFile ?_ writes
    refine ⟨{ ready.writable with addresses := ?_, labels := ?_ }, ready.used, ready.noiseFile⟩
    · rw [withAddress, List.length_append, List.length_singleton]
      exact Nat.lt_of_le_of_lt room (by decide)
    · intro addr mem
      rcases List.mem_append.mp mem with before | last
      · exact ready.writable.labels addr before
      · rw [List.mem_singleton.mp last]
        exact fits

/-! ### The proofs of a call -/

/-- Leaves that may be handed out: of the pool and not marked used. -/
def Unused (w : WalletManager) (nf : NoiseFile) (indices : List UInt32) : Prop :=
  ∀ index ∈ indices, w.isNoiseLeafUsed index = false ∧ index.toNat < nf.mLeaves.length

/-- Each leaf wanted is unused, and none was consumed before. -/
theorem proveLeaves_eq_ok {nf : NoiseFile} (built : nf.Built P) {txHash : Bytes32} :
    ∀ {wanted consumed out : List UInt32} {proofs : List NoiseProof},
    proveLeaves P w nf txHash wanted consumed = .ok (proofs, out) →
    out = consumed ++ wanted ∧ proofs.map (·.leafIndex) = wanted ∧ (∀ p ∈ proofs, p.Fits) ∧
      w.Unused nf wanted ∧ (consumed.Nodup → out.Nodup) := by
  intro wanted
  induction wanted with
  | nil =>
      intro consumed out proofs proved
      cases proved
      exact ⟨by rw [List.append_nil], rfl, fun p mem => (nomatch mem), fun i mem => (nomatch mem),
        fun nodup => nodup⟩
  | cons index wanted ih =>
      intro consumed out proofs proved
      rw [proveLeaves] at proved
      split at proved
      · cases proved
      rename_i unused
      split at proved
      · cases proved
      rename_i fresh
      split at proved
      · cases proved
      rename_i proof made
      split at proved
      · cases proved
      rename_i proofs' consumed' later
      cases proved
      obtain ⟨all, indices, fits, free, nodup⟩ := ih later
      obtain ⟨named, fit⟩ := NoiseFile.createProofAt_fits built made
      refine ⟨?_, ?_, ?_, ?_, ?_⟩
      · rw [all, List.append_assoc, List.singleton_append]
      · rw [List.map_cons, named, indices]
      · exact List.forall_mem_cons.mpr ⟨fit, fits⟩
      · refine List.forall_mem_cons.mpr ⟨⟨Bool.eq_false_iff.mpr unused, ?_⟩, free⟩
        exact NoiseFile.lt_of_createProofAt made
      · intro before
        exact nodup (List.concat_eq_append ▸ before.concat fresh)

/-- The blobs of the inputs carry the leaves consumed, in order. -/
theorem proveInputsFrom_eq_ok {nf : NoiseFile} (built : nf.Built P) {txHash : Bytes32} :
    ∀ {inputs : List TxInput} {i : Nat} {consumed out : List UInt32} {blobs : List (List UInt8)},
    proveInputsFrom P w nf txHash i inputs consumed = .ok (blobs, out) →
    ∃ fresh, out = consumed ++ fresh ∧ blobs.length = inputs.length ∧
      blobs.flatMap (fun blob => (NoiseProof.scan blob).1.map (·.leafIndex)) = fresh ∧
      w.Unused nf fresh ∧ (consumed.Nodup → out.Nodup) := by
  intro inputs
  induction inputs with
  | nil =>
      intro i consumed out blobs proved
      cases proved
      exact ⟨[], by rw [List.append_nil], rfl, rfl, fun i mem => (nomatch mem),
        fun nodup => nodup⟩
  | cons input inputs ih =>
      intro i consumed out blobs proved
      rw [proveInputsFrom] at proved
      split at proved
      · cases proved
      split at proved
      · cases proved
      rename_i proofs consumed' first
      split at proved
      · cases proved
      rename_i blobs' consumed'' later
      cases proved
      obtain ⟨here, indices, fits, free, nodup⟩ := proveLeaves_eq_ok built first
      obtain ⟨fresh, there, count, carried, free', nodup'⟩ := ih later
      refine ⟨proofs.map (·.leafIndex) ++ fresh, ?_, congrArg (· + 1) count, ?_, ?_,
        fun before => nodup' (nodup before)⟩
      · rw [there, here, indices, List.append_assoc]
      · rw [List.flatMap_cons, NoiseProof.scan_serialize fits, carried]
      · rw [indices]
        exact List.forall_mem_append.mpr ⟨free, free'⟩

end

end WalletManager

/-- The leaves of a transaction once its inputs have these proofs. -/
theorem leafIndices_mapInputs {K : WalletParams} {tx : Transaction} {blobs : List (List UInt8)}
    (count : blobs.length = tx.inputs.length) :
    (mapInputs K (fun i input => { input with noiseProof := blobs.getD i [] }) tx).leafIndices =
      blobs.flatMap fun blob => (NoiseProof.scan blob).1.map (·.leafIndex) := by
  -- The `i`-th input has the `i`-th blob.
  have proofs : (tx.inputs.mapIdx fun i input =>
      { input with noiseProof := blobs.getD i [] }).map (·.noiseProof) = blobs := by
    apply List.ext_getElem
    · rw [List.length_map, List.length_mapIdx, count]
    · intro i _ inside
      rw [List.getElem_map, List.getElem_mapIdx, List.getD_eq_getElem _ _ inside]
  conv_rhs => rw [← proofs, List.flatMap_map]
  rfl

/-- The leaves a call hands out: a coinbase is signed without proofs. -/
def Transaction.handedOut (tx : Transaction) : List UInt32 :=
  if tx.isCoinbase then [] else tx.leafIndices

namespace WalletManager

section

variable {P : Params} {K : WalletParams} {w : WalletManager}

/-- A call that returns true hands out unused leaves, each once, and has saved
the wallet with all of them marked. -/
theorem signTransaction_eq_ok {writes : Bool} {tx tx' : Transaction} {w' : WalletManager}
    (ready : w.Ready P) (ok : signTransaction P K writes tx w = (.ok true, tx', w')) :
    ∃ nf held, w.mNoiseFile = some nf ∧ w.Unused nf tx'.handedOut ∧ tx'.handedOut.Nodup ∧
      let w₁ := { w with mHeldOutpoints := held }
      let w₂ := tx'.handedOut.foldl useLeaf w₁
      tx'.handedOut = [] ∧ w' = w₁ ∨ w' = { w₂ with mWalletFile := some w₂.fileBytes } := by
  obtain ⟨seed, nf, signed, -, loaded, -, done⟩ := signTransaction_eq_ok_true ok
  refine ⟨nf, (w.rekey tx.hash signed.hash).mHeldOutpoints, loaded, ?_⟩
  rcases done with ⟨coinbase, rfl, rfl⟩ | ⟨payment, blobs, consumed, proved, rfl, saved, rfl⟩
  · rw [Transaction.handedOut, if_pos coinbase]
    exact ⟨fun i mem => (nomatch mem), List.nodup_nil, .inl ⟨rfl, rfl⟩⟩
  · obtain ⟨fresh, same, count, carried, unused, nodup⟩ :=
      proveInputsFrom_eq_ok (ready.noiseFile nf loaded).1 proved
    rw [List.nil_append] at same
    subst same
    have leaves : (mapInputs K (fun i input => { input with noiseProof := blobs.getD i [] })
        signed).handedOut = consumed := by
      rw [Transaction.handedOut, mapInputs, if_neg (by simp [payment])]
      exact (leafIndices_mapInputs count).trans carried
    rw [leaves]
    exact ⟨unused, nodup List.nodup_nil, .inr (saveToFile_of_true saved)⟩

/-! ### Runs -/

/-- A wallet that was not loaded whole: nothing is signed, and nothing unlocks it. -/
structure Shut (w : WalletManager) : Prop where
  locked : w.mLocked = true
  notInitialized : w.mInitialized = false

end

end WalletManager

/-- What a run does: calls that sign, in a process that can end at any point. -/
inductive LeafOp where
  | signTransaction (writes : Bool) (tx : Transaction)
  /-- The process ends; the next loads the wallet from the file on disk. -/
  | restart (passphrase : List UInt8)
  | unlock (passphrase : List UInt8)
  | lock
  | loadNoiseFile (decrypted : Option (List UInt8))

/-- A process and what the calls that returned true handed out. -/
structure LeafState where
  wallet : WalletManager
  handed : List (List UInt32)

namespace LeafOp

def apply (P : Params) (K : WalletParams) (s : LeafState) : LeafOp → LeafState
  | signTransaction writes tx =>
      let out := s.wallet.signTransaction P K writes tx
      ⟨out.2.2, match out.1 with
        | .ok true => s.handed ++ [out.2.1.handedOut]
        | _ => s.handed⟩
  | restart passphrase =>
      ⟨((new s.wallet.mWalletFile).load P K passphrase).2, s.handed⟩
  | unlock passphrase => ⟨(s.wallet.unlock K passphrase).2, s.handed⟩
  | lock => ⟨s.wallet.lock, s.handed⟩
  | loadNoiseFile decrypted => ⟨(s.wallet.loadNoiseFile P decrypted).2, s.handed⟩

end LeafOp

/-- The leaves handed out are all different, used on disk, and used in the
manager as long as it can sign. -/
structure Tracks (P : Params) (s : LeafState) : Prop where
  inUse : s.wallet.Shut ∨
    s.wallet.Ready P ∧ ∀ index ∈ s.handed.flatten, s.wallet.isNoiseLeafUsed index = true
  onDisk : ∀ index ∈ s.handed.flatten, RecordedUsed P s.wallet.mWalletFile index
  distinct : s.handed.flatten.Nodup

section

variable {P : Params} {K : WalletParams} {w : WalletManager} {s : LeafState}

/-- What is used in the manager is used in the file that it writes. -/
theorem recordedUsed_fileBytes (ready : w.Ready P) {index : UInt32}
    (used : w.isNoiseLeafUsed index = true) : RecordedUsed P (some w.fileBytes) index := by
  constructor
  · exact ⟨w, rfl, used⟩
  · intro session file read
    have reads := loadFromFile_fileBytes (P := P) ready.writable file
    by_cases fits : w.Bounded P ∧ w.ShortLabels
    · rw [reads.1 fits, isNoiseLeafUsed_restore session ready.used]
      exact used
    · obtain ⟨e, fails⟩ := reads.2 fits
      rw [fails] at read
      cases read

/-- What was loaded from a file is ready to sign. -/
theorem ready_loadFromFile {file : Option (List UInt8)}
    (read : (loadFromFile P (new file)).1 = .ok true) : (loadFromFile P (new file)).2.Ready P := by
  obtain ⟨bounded, short, long⟩ := bounded_loadFromFile (P := P) (w := new file) (Prod.ext read rfl)
  have session := sameSession_loadFromFile (P := P) (w := new file)
  constructor
  · exact {
      entropy := bounded.entropy.2.1.trans_lt (by decide)
      addresses := bounded.addresses.trans_lt (by decide)
      labels := fun addr mem => (short addr mem).trans_lt (by decide)
      used := bounded.used.trans_lt (by decide) }
  · exact long.le
  · intro nf loaded
    rw [session.noiseFile] at loaded
    cases loaded

/-- The label of an address asked for fits its 32 bits. -/
def WalletOp.LabelFits : WalletOp → Prop
  | .getNewAddress label _ => label.length < 2 ^ 32
  | _ => True

/-- Every operation on a wallet leaves it ready. -/
theorem WalletManager.Ready.apply (ready : w.Ready P) {op : WalletOp} (fits : op.LabelFits) :
    (op.apply P K w).Ready P := by
  cases op with
  | lock => exact ready.session _ _ _
  | unlock passphrase =>
      rcases unlock_cases (K := K) passphrase w with same | ⟨-, seed, -, same⟩
      · rw [WalletOp.apply, same]
        exact ready
      · rw [WalletOp.apply, same]
        exact ready.session _ _ _
  | loadNoiseFile decrypted => exact ready.loadNoiseFile decrypted
  | getNewAddress label writes => exact ready.issueAddress _ fits false writes
  | createTransaction coin toAddress amount fee utxoSet chainHeight poolTxs message writes =>
      obtain ⟨w₁, held, start, same⟩ := createTransaction_cases (P := P) (K := K) coin toAddress
        amount fee utxoSet chainHeight poolTxs message writes w
      have ready₁ : w₁.Ready P := by
        rcases start with rfl | rfl
        · exact ready
        · exact ready.issueAddress _ (by decide : changeLabel.length < 2 ^ 32) true writes
      rw [WalletOp.apply, same]
      exact ready₁.held held
  | signTransaction writes tx =>
      obtain ⟨held, consumed, same | same⟩ := signTransaction_cases (P := P) (K := K) writes tx w
      · rw [WalletOp.apply, same]
        exact ready.held held
      · rw [WalletOp.apply, same]
        exact ((ready.held held).useLeaves consumed).saveToFile writes
  | syncNoiseLeafPointer highest isSpent writes =>
      rcases syncNoiseLeafPointer_cases highest isSpent writes w with
        same | ⟨nf, next, spent, loaded, same⟩
      · rw [WalletOp.apply, same]
        exact ready
      · have moved := ready.setNextLeaf loaded next
        rcases same with same | same
        · rw [WalletOp.apply, same]
          exact moved
        · rw [WalletOp.apply, same]
          refine Ready.saveToFile (Ready.useLeaves ?_ spent) writes
          exact ⟨{ moved.writable with }, moved.used, moved.noiseFile⟩

/-- A wallet in use is ready, whatever was done with it since its file was loaded. -/
theorem ready_loaded {file : Option (List UInt8)} {passphrase : List UInt8} {ops : List WalletOp}
    (loaded : (load P K passphrase (new file)).2.mInitialized = true)
    (fit : ∀ op ∈ ops, op.LabelFits) :
    (ops.foldl (WalletOp.apply P K) (load P K passphrase (new file)).2).Ready P := by
  have start : (load P K passphrase (new file)).2.Ready P := by
    rcases load_cases (P := P) (K := K) passphrase (new file) with same | ⟨read, same⟩
    · rw [same, (sameSession_loadFromFile (P := P) (w := new file)).initialized] at loaded
      cases loaded
    · rw [same]
      exact (ready_loadFromFile read).session _ _ _
  generalize (load P K passphrase (new file)).2 = w at start ⊢
  induction ops generalizing w with
  | nil => exact start
  | cons op ops ih =>
      have first := start.apply (K := K) (fit op List.mem_cons_self)
      exact ih (fun op mem => fit op (List.mem_cons_of_mem _ mem)) _ first

/-- A new process has the leaves of the file used, or can not sign. -/
theorem Tracks.restart (tracks : Tracks P s) (passphrase : List UInt8) :
    Tracks P ((LeafOp.restart passphrase).apply P K s) := by
  have session := sameSession_loadFromFile (P := P) (w := new s.wallet.mWalletFile)
  rcases load_cases (P := P) (K := K) passphrase (new s.wallet.mWalletFile) with same | ⟨read, same⟩
  · refine ⟨.inl ?_, ?_, tracks.distinct⟩
    · rw [LeafOp.apply, same]
      exact ⟨session.locked, session.initialized⟩
    · rw [LeafOp.apply, same, session.walletFile]
      exact tracks.onDisk
  · refine ⟨.inr ?_, ?_, tracks.distinct⟩
    · have ready := ready_loadFromFile read
      rw [LeafOp.apply, same]
      exact ⟨ready.session _ _ _, fun index mem => (tracks.onDisk index mem).2 _ rfl read⟩
    · have onDisk : ∀ index ∈ s.handed.flatten,
          RecordedUsed P (new s.wallet.mWalletFile).mWalletFile index := tracks.onDisk
      rw [← session.walletFile] at onDisk
      rw [LeafOp.apply, same]
      exact onDisk

theorem usableSeed_eq_none (shut : w.Shut) : w.usableSeed = none := by
  rw [usableSeed, if_pos shut.locked]

theorem Tracks.unlock (tracks : Tracks P s) (passphrase : List UInt8) :
    Tracks P ((LeafOp.unlock passphrase).apply P K s) := by
  rcases unlock_cases (K := K) passphrase s.wallet with same | ⟨initialized, seed, -, same⟩
  · rw [LeafOp.apply, same]
    exact tracks
  · rw [LeafOp.apply, same]
    refine ⟨.inr ?_, tracks.onDisk, tracks.distinct⟩
    rcases tracks.inUse with shut | ⟨ready, used⟩
    · rw [shut.notInitialized] at initialized
      cases initialized
    · exact ⟨ready.session _ _ _, used⟩

theorem Tracks.lock (tracks : Tracks P s) : Tracks P (LeafOp.lock.apply P K s) := by
  refine ⟨?_, tracks.onDisk, tracks.distinct⟩
  rcases tracks.inUse with shut | ⟨ready, used⟩
  · exact .inl ⟨rfl, shut.notInitialized⟩
  · exact .inr ⟨ready.session _ _ _, used⟩

/-- The noise file takes the map of the wallet, whichever leaves it has. -/
theorem Tracks.loadNoiseFile (tracks : Tracks P s) (decrypted : Option (List UInt8)) :
    Tracks P ((LeafOp.loadNoiseFile decrypted).apply P K s) := by
  rcases tracks.inUse with shut | ⟨ready, used⟩
  · rcases loadNoiseFile_cases (P := P) decrypted s.wallet with same | ⟨raw, nf, -, -, same⟩
    · rw [LeafOp.apply, same]
      exact tracks
    · rw [LeafOp.apply, same]
      exact ⟨.inl ⟨shut.locked, shut.notInitialized⟩, tracks.onDisk, tracks.distinct⟩
  · have loaded := ready.loadNoiseFile decrypted
    rcases loadNoiseFile_cases (P := P) decrypted s.wallet with same | ⟨raw, nf, -, -, same⟩
    · rw [LeafOp.apply, same]
      exact tracks
    · rw [same] at loaded
      rw [LeafOp.apply, same]
      exact ⟨.inr ⟨loaded, used⟩, tracks.onDisk, tracks.distinct⟩

/-- Marking leaves in the manager, saved or not, leaves what is used used. -/
theorem Tracks.useLeaves (tracks : Tracks P s) (ready : s.wallet.Ready P)
    (used : ∀ index ∈ s.handed.flatten, s.wallet.isNoiseLeafUsed index = true)
    (held : AList fun _ : OutPoint => Bytes32) (indices : List UInt32) (writes : Bool) :
    Tracks P ⟨((indices.foldl useLeaf { s.wallet with mHeldOutpoints := held }).saveToFile writes).2,
      s.handed⟩ := by
  have marked := (ready.held held).useLeaves indices
  have still : ∀ index ∈ s.handed.flatten,
      (indices.foldl useLeaf { s.wallet with mHeldOutpoints := held }).isNoiseLeafUsed index = true :=
    fun index mem => (isNoiseLeafUsed_useLeaves index indices (ready.held held).used).mpr
      (.inl (used index mem))
  have file : (indices.foldl useLeaf { s.wallet with mHeldOutpoints := held }).mWalletFile =
      s.wallet.mWalletFile := by
    rw [foldl_useLeaf]
  generalize indices.foldl useLeaf { s.wallet with mHeldOutpoints := held } = w at marked still file ⊢
  rcases saveToFile_eq writes w with same | same
  · rw [same]
    refine ⟨.inr ⟨marked, still⟩, ?_, tracks.distinct⟩
    rw [file]
    exact tracks.onDisk
  · rw [same]
    refine ⟨.inr ⟨⟨{ marked.writable with }, marked.used, marked.noiseFile⟩, still⟩, ?_,
      tracks.distinct⟩
    exact fun index mem => recordedUsed_fileBytes marked (still index mem)

/-- The leaves of a call that returned true were not used before, in memory or
on disk, and now are. -/
theorem Tracks.handOut (few : P.noiseLeafCount.toNat ≤ noiseLeafCountValue) (tracks : Tracks P s)
    (ready : s.wallet.Ready P)
    (used : ∀ index ∈ s.handed.flatten, s.wallet.isNoiseLeafUsed index = true) {writes : Bool}
    {tx tx' : Transaction} {w' : WalletManager}
    (ok : signTransaction P K writes tx s.wallet = (.ok true, tx', w')) :
    Tracks P ⟨w', s.handed ++ [tx'.handedOut]⟩ := by
  obtain ⟨nf, held, loaded, unused, nodup, left⟩ := signTransaction_eq_ok ready ok
  have count := (ready.noiseFile nf loaded).2
  generalize tx'.handedOut = indices at unused nodup left
  rcases left with ⟨rfl, rfl⟩ | rfl
  · have kept : Tracks P ⟨{ s.wallet with mHeldOutpoints := held }, s.handed⟩ :=
      ⟨.inr ⟨ready.held held, used⟩, tracks.onDisk, tracks.distinct⟩
    have same : (s.handed ++ [([] : List UInt32)]).flatten = s.handed.flatten := by
      rw [List.flatten_append, List.flatten_singleton, List.append_nil]
    refine ⟨?_, ?_, ?_⟩
    · rw [same]
      exact kept.inUse
    · rw [same]
      exact kept.onDisk
    · rw [same]
      exact kept.distinct
  · have both : (s.handed ++ [indices]).flatten = s.handed.flatten ++ indices := by
      rw [List.flatten_append, List.flatten_singleton]
    have marked := (ready.held held).useLeaves indices
    have all : ∀ index ∈ s.handed.flatten ++ indices,
        (indices.foldl useLeaf { s.wallet with mHeldOutpoints := held }).isNoiseLeafUsed index =
          true := by
      intro index mem
      refine (isNoiseLeafUsed_useLeaves index indices (ready.held held).used).mpr ?_
      rcases List.mem_append.mp mem with before | now
      · exact .inl (used index before)
      · refine .inr ⟨now, ?_⟩
        have inside := (unused index now).2
        rw [mapBytes]
        omega
    refine ⟨.inr ⟨⟨{ marked.writable with }, marked.used, marked.noiseFile⟩, ?_⟩, ?_, ?_⟩
    · rw [both]
      exact all
    · rw [both]
      exact fun index mem => recordedUsed_fileBytes marked (all index mem)
    · rw [both]
      refine List.nodup_append'.mpr ⟨tracks.distinct, nodup, fun index before now => ?_⟩
      have free := (unused index now).1
      rw [used index before] at free
      cases free

theorem Tracks.signTransaction (few : P.noiseLeafCount.toNat ≤ noiseLeafCountValue)
    (tracks : Tracks P s) (writes : Bool) (tx : Transaction) :
    Tracks P ((LeafOp.signTransaction writes tx).apply P K s) := by
  rcases tracks.inUse with shut | ⟨ready, used⟩
  · have refused : WalletManager.signTransaction P K writes tx s.wallet =
        (.error "Wallet is locked", tx, s.wallet) := by
      rw [WalletManager.signTransaction, usableSeed_eq_none shut]
    rw [LeafOp.apply, refused]
    exact tracks
  · rw [LeafOp.apply]
    split
    · rename_i ok
      exact tracks.handOut few ready used (Prod.ext ok rfl)
    · obtain ⟨held, consumed, same | same⟩ := signTransaction_cases (P := P) (K := K) writes tx s.wallet
      · rw [same]
        exact ⟨.inr ⟨ready.held held, used⟩, tracks.onDisk, tracks.distinct⟩
      · rw [same]
        exact tracks.useLeaves ready used held consumed writes

theorem Tracks.apply (few : P.noiseLeafCount.toNat ≤ noiseLeafCountValue) (tracks : Tracks P s)
    (op : LeafOp) : Tracks P (op.apply P K s) := by
  cases op with
  | signTransaction writes tx => exact tracks.signTransaction few writes tx
  | restart passphrase => exact tracks.restart passphrase
  | unlock passphrase => exact tracks.unlock passphrase
  | lock => exact tracks.lock
  | loadNoiseFile decrypted => exact tracks.loadNoiseFile decrypted

theorem Tracks.run (few : P.noiseLeafCount.toNat ≤ noiseLeafCountValue) : ∀ (ops : List LeafOp)
    {s : LeafState}, Tracks P s → Tracks P (ops.foldl (LeafOp.apply P K) s) := by
  intro ops
  induction ops with
  | nil => exact fun tracks => tracks
  | cons op ops ih => exact fun tracks => ih (tracks.apply few op)

end

/-- **Single use.** Along every run of calls and restarts no leaf is handed out
twice, by two calls that returned true or by one, and each is used in the file
on disk. -/
theorem leaves_used_once {P : Params} {K : WalletParams}
    (few : P.noiseLeafCount.toNat ≤ noiseLeafCountValue) {w₀ : WalletManager} (ready : w₀.Ready P)
    (ops : List LeafOp) :
    let s := ops.foldl (LeafOp.apply P K) ⟨w₀, []⟩
    s.handed.Pairwise List.Disjoint ∧ (∀ leaves ∈ s.handed, leaves.Nodup) ∧
      ∀ leaves ∈ s.handed, ∀ index ∈ leaves, RecordedUsed P s.wallet.mWalletFile index := by
  have start : Tracks P ⟨w₀, []⟩ :=
    ⟨.inr ⟨ready, fun _ mem => (nomatch mem)⟩, fun _ mem => (nomatch mem), List.nodup_nil⟩
  have tracks := start.run (K := K) few ops
  obtain ⟨each, apart⟩ := List.nodup_flatten.mp tracks.distinct
  exact ⟨apart, each, fun leaves call index mem =>
    tracks.onDisk index (List.mem_flatten.mpr ⟨leaves, call, mem⟩)⟩

namespace OneLeaf

/-- An unlocked wallet with an address and a noise file of one leaf. -/
def wallet : WalletManager :=
  { new none with
    mLocked := false
    mInitialized := true
    mUnlockedSeed := some 0
    mNoiseFile := NoiseFile.generate smallNetwork (List.replicate 32 0) smallNetwork.noiseLeafCount
    mAddresses := [⟨addressHash smallNetwork smallWallet 0 0 0 false, 0, [], false⟩] }

/-- A payment from that address. -/
def payment : Transaction where
  inputs := [⟨7, 0, 0, 0, 0, []⟩]
  outputs := []
  hash := 5
  isCoinbase := false
  inputs_le := by decide
  outputs_le := by decide

theorem ready : wallet.Ready smallNetwork where
  writable := ⟨by decide, by decide, by decide, by decide⟩
  used := Nat.zero_le _
  noiseFile nf loaded := by
    have made : NoiseFile.generate smallNetwork (List.replicate 32 0) smallNetwork.noiseLeafCount =
        some nf := loaded
    obtain ⟨built, count, -⟩ := NoiseFile.built_generate made
    exact ⟨built, count⟩

end OneLeaf

/-- The payment is signed, and the wallet refuses to sign it again. -/
theorem leaves_used_once_one_leaf :
    let ops := [LeafOp.signTransaction true OneLeaf.payment, .signTransaction true OneLeaf.payment]
    let s := ops.foldl (LeafOp.apply smallNetwork smallWallet) ⟨OneLeaf.wallet, []⟩
    s.handed = [[0]] ∧ s.handed.Pairwise List.Disjoint ∧ (∀ leaves ∈ s.handed, leaves.Nodup) ∧
      ∀ leaves ∈ s.handed, ∀ index ∈ leaves,
        RecordedUsed smallNetwork s.wallet.mWalletFile index :=
  ⟨by decide +kernel, leaves_used_once (by decide) OneLeaf.ready _⟩

end QmaskCore
