import QmaskCore.Wallet.Session

/-!
What a payment that was built, or signed, is made of.

`createTransaction_eq_ok` and `signTransaction_eq_ok_true` take a call that
succeeded apart. The hash of a payment is that of what it spends and pays, so it
does not move once its inputs are signed (`Hashed`).
-/

namespace QmaskCore

/-- A hash is computed from the inputs without their proofs and the outputs;
version and lock time are those every payment of the wallet has. -/
structure WalletParams.HashesContent (K : WalletParams) : Prop where
  rehash : ∀ tx inputs, K.rehash tx inputs = K.buildHash inputs tx.outputs
  unproven : ∀ inputs inputs' outputs,
    inputs.map (fun input => { input with noiseProof := [] }) =
      inputs'.map (fun input => { input with noiseProof := [] }) →
    K.buildHash inputs outputs = K.buildHash inputs' outputs

/-- The hash is that of the content. -/
def Transaction.Hashed (K : WalletParams) (tx : Transaction) : Prop :=
  tx.hash = K.buildHash tx.inputs tx.outputs

namespace WalletManager

section

variable {P : Params} {K : WalletParams} {w w' : WalletManager}

/-! ### Building -/

/-- The outputs a payment may spend, in the order they are tried. -/
def spendable (P : Params) (utxoSet : UTXOSet) (chainHeight : UInt32)
    (poolTxs : Option (List Transaction)) (w : WalletManager) : List (OutPoint × Coin) :=
  (spendableCoins P utxoSet chainHeight w).1 ++ poolCoins (poolTxs.getD []) chainHeight w

/-- The outputs of a payment before its change. -/
def paid (amount : Int64) (toPubkeyHash : Bytes32) (message : Option (List UInt8)) :
    List TxOutput :=
  .payTo amount toPubkeyHash ::
    (if message.getD [] = [] then [] else [⟨0, createNullData (message.getD [])⟩])

theorem held_issueAddress (what : String) (label : List UInt8) (isChange writes : Bool)
    (w : WalletManager) :
    (issueAddress P K what label isChange writes w).2.mHeldOutpoints = w.mHeldOutpoints := by
  rcases issueAddress_cases (P := P) (K := K) what label isChange writes w with
    ⟨e, same⟩ | ⟨seed, -, -, -, issued⟩
  · rw [same]
  · rw [issued]
    rcases saveToFile_eq writes (w.withAddress P K seed label isChange) with same | same
    · rw [same]
      rfl
    · rw [same]
      rfl

theorem held_changeOutput (change : Int64) (writes : Bool) (w : WalletManager) :
    (changeOutput P K change writes w).2.mHeldOutpoints = w.mHeldOutpoints := by
  have issued := held_issueAddress (P := P) (K := K) "a change address" changeLabel true writes w
  unfold changeOutput
  split
  · split
    · rename_i address
      rw [getChangeAddress] at address
      rw [address] at issued
      exact issued
    · rename_i address
      rw [getChangeAddress] at address
      rw [address] at issued
      exact issued
  · rfl

/-- What is held once a payment holds what it spends. -/
theorem lookup_hold (txid : Bytes32) (selected : List (OutPoint × Coin)) (w : WalletManager)
    (o : OutPoint) : (w.hold txid selected).mHeldOutpoints.lookup o =
      if o ∈ selected.map (·.1) then some txid else w.mHeldOutpoints.lookup o := by
  rw [hold]
  dsimp only
  rw [← List.foldl_map (f := Prod.fst) (g := fun m a => AList.insert a txid m),
    AList.lookup_foldl_insert]

section

variable {coin : Int64} {toAddress : List UInt8} {amount fee : Int64} {utxoSet : UTXOSet}
  {chainHeight : UInt32} {poolTxs : Option (List Transaction)} {message : Option (List UInt8)}
  {writes : Bool}

/-- A payment that was built spends what was selected, pays the amount and what
is left over, and holds what it spends. -/
theorem createTransaction_eq_ok {built : Transaction}
    (created : createTransaction P K coin toAddress amount fee utxoSet chainHeight poolTxs message
      writes w = (.ok built, w')) :
    ∃ seed toPubkeyHash inputs change w₁,
      let selected := selectCoins (amount + fee) 0 (spendable P utxoSet chainHeight poolTxs w)
      (message.getD []).length ≤ P.maxOpReturnSize.toNat ∧ w.usableSeed = some seed ∧
      w.mNoiseFile.isSome ∧ 0 < amount ∧ P.minTxFee ≤ fee ∧
      decodeAddress P K toAddress = .ok toPubkeyHash ∧ amount + fee ≤ selected.2 ∧
      buildInputs K seed w selected.1 = .ok inputs ∧
      changeOutput P K (selected.2 - (amount + fee)) writes w = (.ok change, w₁) ∧
      build K inputs (paid amount toPubkeyHash message ++ change) = .ok built ∧
      w' = w₁.hold built.hash selected.1 := by
  unfold createTransaction at created
  split at created
  · cases created
  rename_i short
  split at created
  · cases created
  rename_i seed usable
  split at created
  · cases created
  rename_i noise
  split at created
  · cases created
  rename_i positive
  split at created
  · cases created
  rename_i floor
  split at created
  · cases created
  rename_i toPubkeyHash decoded
  dsimp only at created
  split at created
  · cases created
  rename_i covered
  split at created
  · cases created
  rename_i inputs spends
  split at created
  · cases created
  split at created
  · cases created
  rename_i change w₁ left
  split at created
  · cases created
  rename_i built' made
  cases created
  rw [Option.isNone_iff_eq_none, ← ne_eq, ← Option.isSome_iff_ne_none] at noise
  exact ⟨seed, toPubkeyHash, inputs, change, w₁, Nat.not_lt.mp short, usable, noise,
    Int64.not_le.mp positive, Int64.not_lt.mp floor, decoded, Int64.not_lt.mp covered, spends, left,
    made, rfl⟩

/-- A payment that was not built holds nothing. -/
theorem held_createTransaction_error {e : WalletError}
    (failed : createTransaction P K coin toAddress amount fee utxoSet chainHeight poolTxs message
      writes w = (.error e, w')) : w'.mHeldOutpoints = w.mHeldOutpoints := by
  have change := held_changeOutput (P := P) (K := K)
    ((selectCoins (amount + fee) 0 (spendable P utxoSet chainHeight poolTxs w)).2 - (amount + fee))
    writes w
  unfold createTransaction at failed
  split at failed
  · cases failed
    rfl
  split at failed
  · cases failed
    rfl
  split at failed
  · cases failed
    rfl
  split at failed
  · cases failed
    rfl
  split at failed
  · cases failed
    rfl
  split at failed
  · cases failed
    rfl
  dsimp only at failed
  split at failed
  · cases failed
    rfl
  split at failed
  · cases failed
    rfl
  split at failed
  · cases failed
    rfl
  split at failed
  · rename_i left
    cases failed
    rw [spendable, left] at change
    exact change
  · rename_i left
    rw [spendable, left] at change
    split at failed
    · cases failed
      exact change
    · cases failed

end

/-! ### Signing -/

/-- An input before it is signed and proved. -/
def bare (input : TxInput) : TxInput := { input with signature := 0, noiseProof := [] }

theorem Hashed.mapInputs (hashes : K.HashesContent) (f : Nat → TxInput → TxInput)
    (tx : Transaction) : (mapInputs K f tx).Hashed K := by
  rw [Transaction.Hashed, WalletManager.mapInputs]
  exact hashes.rehash tx _

/-- Signing changes signatures, and the hash with them. -/
theorem signInputsFrom_spec (hashes : K.HashesContent) {seed : Bytes64} :
    ∀ {count i : Nat} {tx signed : Transaction}, tx.Hashed K →
    signInputsFrom P K seed w count i tx = (signed, true) →
    signed.Hashed K ∧ signed.outputs = tx.outputs ∧ signed.isCoinbase = tx.isCoinbase ∧
      signed.inputs.map bare = tx.inputs.map bare := by
  intro count
  induction count with
  | zero =>
      intro i tx signed hashed all
      cases all
      exact ⟨hashed, rfl, rfl, rfl⟩
  | succ count ih =>
      intro i tx signed hashed all
      rw [signInputsFrom] at all
      split at all
      · cases all
        exact ⟨hashed, rfl, rfl, rfl⟩
      split at all
      · cases all
      rename_i addr _
      generalize K.deriveKeyAtIndex seed addr.keyIndex addr.isChange = key at all
      obtain ⟨last, outputs, coinbase, inputs⟩ := ih (Hashed.mapInputs hashes _ tx) all
      refine ⟨last, outputs, coinbase, inputs.trans ?_⟩
      apply List.ext_getElem
      · simp [mapInputs]
      · intro j _ _
        simp only [mapInputs, List.getElem_map, List.getElem_mapIdx]
        split
        · rfl
        · rfl

/-- The proofs leave the hash as it was signed. -/
theorem hash_prove (hashes : K.HashesContent) {signed : Transaction} (hashed : signed.Hashed K)
    (blob : Nat → List UInt8) :
    (mapInputs K (fun i input => { input with noiseProof := blob i }) signed).hash = signed.hash := by
  rw [hashed]
  refine (hashes.rehash signed _).trans (hashes.unproven _ _ _ ?_)
  apply List.ext_getElem
  · simp
  · intro i _ _
    simp

theorem held_foldl_useLeaf_save (consumed : List UInt32) (writes : Bool) (w : WalletManager) :
    ((consumed.foldl useLeaf w).saveToFile writes).2.mHeldOutpoints = w.mHeldOutpoints := by
  have used : (consumed.foldl useLeaf w).mHeldOutpoints = w.mHeldOutpoints := by
    rw [foldl_useLeaf]
  rcases saveToFile_eq writes (consumed.foldl useLeaf w) with same | same
  · rw [same]
    exact used
  · rw [same]
    exact used

/-- What was held for the payment is held for it as it was signed. -/
theorem held_signTransaction (hashes : K.HashesContent) {writes : Bool} {tx tx' : Transaction}
    (hashed : tx.Hashed K) (ok : signTransaction P K writes tx w = (.ok true, tx', w')) :
    w'.mHeldOutpoints = (w.rekey tx.hash tx'.hash).mHeldOutpoints := by
  obtain ⟨seed, nf, signed, -, -, all, left⟩ := signTransaction_eq_ok_true ok
  obtain ⟨hashed', -⟩ := signInputsFrom_spec hashes hashed all
  rcases left with ⟨-, rfl, rfl⟩ | ⟨-, blobs, consumed, -, rfl, -, rfl⟩
  · rfl
  · rw [held_foldl_useLeaf_save, hash_prove hashes hashed']

end

end WalletManager

end QmaskCore
