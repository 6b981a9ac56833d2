import QmaskCore.Wallet.WalletManager

/-!
How the wallet builds a payment and signs it.

`createTransaction` selects outputs of the coin set and of the pool, and holds
them back; `signTransaction` signs the inputs and proves each with the leaves
the transaction calls for.
-/

namespace QmaskCore

def TxOutput.getPubkeyHash (out : TxOutput) : Bytes32 := (extractPubkeyHash out.scriptPubKey).getD 0

namespace WalletManager

section

variable (P : Params) (K : WalletParams)

/-! ### Building -/

/-- The hash an address string decodes to, `none` where its checksum or form is wrong. -/
def decodeAddress (toAddress : List UInt8) : Except WalletError Bytes32 :=
  match K.b58tobin toAddress with
  | none => .error "Invalid destination address"
  | some decoded =>
      if decoded.length ≠ 37 then .error "Invalid destination address"
      else
        let hash2 := P.sha256 (P.sha256 (decoded.take 33)).toBytes
        if decoded.drop 33 ≠ hash2.toBytes.take 4 then .error "Invalid address checksum"
        else .ok (Bytes32.ofBytes ((decoded.drop 1).take 32))

def isSpendableNow (coin : Coin) (chainHeight : UInt32) : Bool :=
  !coin.isCoinbase || coin.height + P.coinbaseMaturity ≤ chainHeight

/-- The wallet's outputs in the coin set: those to spend now and not held, and
the value of those not mature. -/
def spendableCoins (utxoSet : UTXOSet) (chainHeight : UInt32) (w : WalletManager) :
    List (OutPoint × Coin) × Int64 :=
  let utxos := utxoSet.getUTXOsForAddresses (w.mAddresses.map (·.pubkeyHash))
  (utxos.filter fun u =>
      isSpendableNow P u.2 chainHeight && (w.mHeldOutpoints.lookup u.1).isNone,
    (utxos.filter fun u => !isSpendableNow P u.2 chainHeight).foldl
      (fun immatureHeld u => immatureHeld + u.2.value) 0)

/-- The outputs that transactions of the pool pay to the wallet, not spent there and not held. -/
def poolCoins (poolTxs : List Transaction) (chainHeight : UInt32) (w : WalletManager) :
    List (OutPoint × Coin) :=
  let spentInPool := poolTxs.flatMap fun p => p.inputs.map (·.outpoint)
  poolTxs.flatMap fun p => p.outputs.zipIdx.filterMap fun (out, o) =>
    if out.value ≤ 0 then none
    else if w.mAddresses.all (·.pubkeyHash ≠ out.getPubkeyHash) then none
    else if p.outpoint o ∈ spentInPool then none
    else if (w.mHeldOutpoints.lookup (p.outpoint o)).isSome then none
    else some (p.outpoint o, ⟨out.value, out.getPubkeyHash, chainHeight, false, false⟩)

/-- Outputs are taken, in order, until they are worth what is needed: those
taken and their value. -/
def selectCoins (needed : Int64) : Int64 → List (OutPoint × Coin) → List (OutPoint × Coin) × Int64
  | collected, [] => ([], collected)
  | collected, utxo :: spendable =>
      if needed ≤ collected then ([], collected)
      else
        let selected := selectCoins needed (collected + utxo.2.value) spendable
        (utxo :: selected.1, selected.2)

/-- The inputs for the outputs selected, each under the public key of its address. -/
def buildInputs (seed : Bytes64) (w : WalletManager) :
    List (OutPoint × Coin) → Except WalletError (List TxInput)
  | [] => .ok []
  | utxo :: selected =>
      match w.mAddresses.find? (·.pubkeyHash = utxo.2.pubkeyHash) with
      | none => .error "No wallet key found for a selected input"
      | some wa =>
          match buildInputs seed w selected with
          | .error e => .error e
          | .ok inputs =>
              .ok (⟨utxo.1.txHash, utxo.1.index,
                K.getPublicKey (K.deriveKeyAtIndex seed wa.keyIndex wa.isChange), 0, w.mNoiseKps,
                []⟩ :: inputs)

/-- `TransactionBuilder::Build`; more inputs or outputs than may be are refused. -/
def build (inputs : List TxInput) (outputs : List TxOutput) : Except WalletError Transaction :=
  if fits : inputs.length ≤ Transaction.maxInputs ∧ outputs.length ≤ Transaction.maxOutputs then
    .ok ⟨inputs, outputs, K.buildHash inputs outputs, K.isCoinbase inputs, fits.1, fits.2⟩
  else .error "Too many inputs or outputs"

/-- The outputs selected are held for a transaction. -/
def hold (txid : Bytes32) (selected : List (OutPoint × Coin)) (w : WalletManager) : WalletManager :=
  { w with mHeldOutpoints := selected.foldl (fun held u => held.insert u.1 txid) w.mHeldOutpoints }

def noFunds (immatureHeld coin : Int64) : WalletError :=
  if 0 < immatureHeld then
    "Insufficient funds. " ++ toString (immatureHeld / coin) ++
      " MONEU is a mining reward that is not spendable yet - a reward needs " ++
      toString P.coinbaseMaturity ++ " blocks on top of the block that paid it"
  else "Insufficient funds"

/-- The change address when what is left over is worth an output. -/
def changeOutput (change : Int64) (writes : Bool) (w : WalletManager) :
    Except WalletError (List TxOutput) × WalletManager :=
  if P.dustThreshold < change then
    match getChangeAddress P K writes w with
    | (.error e, w) => (.error e, w)
    | (.ok addr, w) => (.ok [.payTo change addr.pubkeyHash], w)
  else (.ok [], w)

/-- `coin` is `NetParams::COIN`. -/
def createTransaction (coin : Int64) (toAddress : List UInt8) (amount fee : Int64)
    (utxoSet : UTXOSet) (chainHeight : UInt32) (poolTxs : Option (List Transaction))
    (message : Option (List UInt8)) (writes : Bool) (w : WalletManager) :
    Except WalletError Transaction × WalletManager :=
  if P.maxOpReturnSize.toNat < (message.getD []).length then
    (.error ("Message is " ++ toString (message.getD []).length ++ " bytes; the limit is " ++
      toString P.maxOpReturnSize), w)
  else
    match w.usableSeed with
    | none => (.error "Wallet is locked", w)
    | some seed =>
        if w.mNoiseFile.isNone then (.error "Noise file must be loaded before spending", w)
        else if amount ≤ 0 then (.error "Invalid amount", w)
        else if fee < P.minTxFee then (.error "Fee too low", w)
        else
          match decodeAddress P K toAddress with
          | .error e => (.error e, w)
          | .ok toPubkeyHash =>
              let coins := spendableCoins P utxoSet chainHeight w
              let spendable := coins.1 ++ poolCoins (poolTxs.getD []) chainHeight w
              let needed := amount + fee
              let selected := selectCoins needed 0 spendable
              if selected.2 < needed then (.error (noFunds P coins.2 coin), w)
              else
                match buildInputs K seed w selected.1 with
                | .error e => (.error e, w)
                | .ok inputs =>
                    if Transaction.maxInputs < inputs.length then (.error "Too many inputs", w)
                    else
                      let data := message.getD []
                      let outputs := .payTo amount toPubkeyHash ::
                        (if data = [] then [] else [⟨0, createNullData data⟩])
                      match changeOutput P K (selected.2 - needed) writes w with
                      | (.error e, w) => (.error e, w)
                      | (.ok change, w) =>
                          match build K inputs (outputs ++ change) with
                          | .error e => (.error e, w)
                          | .ok built => (.ok built, w.hold built.hash selected.1)

/-! ### Signing -/

/-- A transaction with each input changed, its position at hand. -/
def mapInputs (f : Nat → TxInput → TxInput) (tx : Transaction) : Transaction :=
  { tx with
    inputs := tx.inputs.mapIdx f
    hash := K.rehash tx (tx.inputs.mapIdx f)
    inputs_le := by
      rw [List.length_mapIdx]
      exact tx.inputs_le }

/-- `Transaction::Sign`. -/
def signInput (i : Nat) (key : Bytes32) (tx : Transaction) : Transaction :=
  mapInputs K (fun j input =>
    if j = i then { input with signature := K.sign tx i key } else input) tx

/-- The loop over the inputs, `count` of them from the `i`-th on: the
transaction as far as it is signed, and whether all keys were found. -/
def signInputsFrom (seed : Bytes64) (w : WalletManager) : Nat → Nat → Transaction →
    Transaction × Bool
  | 0, _, tx => (tx, true)
  | count + 1, i, tx =>
      match tx.inputs[i]? with
      | none => (tx, true)
      | some input =>
          match w.mAddresses.find?
              (noiseBoundHash P input.pubkey w.mNoiseKps = ·.pubkeyHash) with
          | none => (tx, false)
          | some addr =>
              signInputsFrom seed w count (i + 1)
                (signInput K i (K.deriveKeyAtIndex seed addr.keyIndex addr.isChange) tx)

/-- What was held for the unsigned transaction is held for the signed one. -/
def rekey (unsignedId signedId : Bytes32) (w : WalletManager) : WalletManager :=
  { w with mHeldOutpoints := w.mHeldOutpoints.mapValues fun id =>
      if id = unsignedId then signedId else id }

/-- The proofs of the leaves an input calls for, and the leaves consumed so far. -/
def proveLeaves (w : WalletManager) (noiseFile : NoiseFile) (txHash : Bytes32) :
    List UInt32 → List UInt32 → Except WalletError (List NoiseProof × List UInt32)
  | [], consumed => .ok ([], consumed)
  | index :: wanted, consumed =>
      if w.isNoiseLeafUsed index then
        .error ("This transaction calls for a leaf already spent. Change the amount or the fee " ++
          "by one unit and sign again.")
      else if index ∈ consumed then
        .error ("Two inputs call for the same leaf. Change the amount or the fee by one unit and " ++
          "sign again.")
      else
        match noiseFile.createProofAt P index txHash with
        | none => .error "NoiseFile: leaf index out of range"
        | some proof =>
            match proveLeaves w noiseFile txHash wanted (consumed ++ [index]) with
            | .error e => .error e
            | .ok (proofs, consumed) => .ok (proof :: proofs, consumed)

/-- The proof blobs of the inputs from the `i`-th on. -/
def proveInputsFrom (w : WalletManager) (noiseFile : NoiseFile) (txHash : Bytes32) :
    Nat → List TxInput → List UInt32 → Except WalletError (List (List UInt8) × List UInt32)
  | _, [], consumed => .ok ([], consumed)
  | i, input :: inputs, consumed =>
      let wanted := deriveLeafIndices P txHash input.kps (UInt32.ofNat i) P.noiseProofsPerInput
        P.noiseLeafCount
      if ¬ wanted.Nodup then
        .error ("This transaction calls for the same leaf twice. Change the amount or the fee by " ++
          "one unit and sign again.")
      else
        match proveLeaves P w noiseFile txHash wanted consumed with
        | .error e => .error e
        | .ok (proofs, consumed) =>
            match proveInputsFrom w noiseFile txHash (i + 1) inputs consumed with
            | .error e => .error e
            | .ok (blobs, consumed) => .ok (proofs.flatMap (·.serialize) :: blobs, consumed)

/-- The transaction as it is changed in place is returned too. -/
def signTransaction (writes : Bool) (tx : Transaction) (w : WalletManager) :
    Except WalletError Bool × Transaction × WalletManager :=
  match w.usableSeed with
  | none => (.error "Wallet is locked", tx, w)
  | some seed =>
      match w.mNoiseFile with
      | none => (.error "Noise file not loaded", tx, w)
      | some noiseFile =>
          match signInputsFrom P K seed w tx.inputs.length 0 tx with
          | (signed, false) => (.ok false, signed, w)
          | (signed, true) =>
              let w := w.rekey tx.hash signed.hash
              if signed.isCoinbase then (.ok true, signed, w)
              else if noiseFile.getRemaining < signed.inputs.length then
                (.error ("Noise pool exhausted: not enough single-use leaves left to authorise " ++
                  "every input. Create a new wallet with a fresh noise file."), signed, w)
              else
                match proveInputsFrom P w noiseFile signed.hash 0 signed.inputs [] with
                | .error e => (.error e, signed, w)
                | .ok (blobs, consumed) =>
                    let proved := mapInputs K (fun i input =>
                      { input with noiseProof := blobs.getD i [] }) signed
                    let saved := (consumed.foldl useLeaf w).saveToFile writes
                    if saved.1 then (.ok true, proved, saved.2)
                    else
                      (.error ("The transaction was signed but the wallet file could not be " ++
                        "written, so the single-use leaves it consumed are not recorded. The " ++
                        "transaction has NOT been sent. Make the wallet directory writable and " ++
                        "try again."), proved, saved.2)

end

/-- A call that returned true found every key; unless the payment is a coinbase
it proved every input and saved the wallet with the leaves used. -/
theorem signTransaction_eq_ok_true {P : Params} {K : WalletParams} {w w' : WalletManager}
    {writes : Bool} {tx tx' : Transaction}
    (ok : signTransaction P K writes tx w = (.ok true, tx', w')) :
    ∃ seed nf signed, w.usableSeed = some seed ∧ w.mNoiseFile = some nf ∧
      signInputsFrom P K seed w tx.inputs.length 0 tx = (signed, true) ∧
      let w₁ := w.rekey tx.hash signed.hash
      (signed.isCoinbase = true ∧ tx' = signed ∧ w' = w₁ ∨
        signed.isCoinbase = false ∧ ∃ blobs consumed,
          proveInputsFrom P w₁ nf signed.hash 0 signed.inputs [] = .ok (blobs, consumed) ∧
          tx' = mapInputs K (fun i input => { input with noiseProof := blobs.getD i [] }) signed ∧
          ((consumed.foldl useLeaf w₁).saveToFile writes).1 = true ∧
          w' = ((consumed.foldl useLeaf w₁).saveToFile writes).2) := by
  unfold signTransaction at ok
  split at ok
  · cases ok
  rename_i seed usable
  split at ok
  · cases ok
  rename_i nf loaded
  split at ok
  · cases ok
  rename_i signed all
  refine ⟨seed, nf, signed, usable, loaded, all, ?_⟩
  dsimp only at ok ⊢
  split at ok
  · rename_i coinbase
    cases ok
    exact .inl ⟨coinbase, rfl, rfl⟩
  rename_i coinbase
  split at ok
  · cases ok
  split at ok
  · cases ok
  rename_i blobs consumed proved
  split at ok
  · rename_i saved
    cases ok
    exact .inr ⟨Bool.eq_false_iff.mpr coinbase, blobs, consumed, proved, rfl, saved, rfl⟩
  · cases ok

end WalletManager

end QmaskCore
