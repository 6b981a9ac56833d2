import QmaskCore.Mempool.Persist
import QmaskCore.Storage.ChainState
import QmaskCore.Wallet.Payments

/-!
`sendtoaddress`: a payment leaves the wallet for the pool.

The call reads its request, has the wallet build a payment whose fee covers the
size it will have, has it signed, checks it as a payment from a stranger would
be checked and offers it to the pool. A call answers with what it returns or
throws and with the context it leaves behind. The two amounts come as
`ParseAmountJson` reads them; the clock and whether a write of the wallet file
succeeds are arguments.
-/

namespace QmaskCore

/-- The codes `sendtoaddress` throws. -/
inductive RPCErrorCode where
  | rpcMiscError
  | rpcInvalidParams
  | rpcVerifyError
  | rpcVerifyRejected
deriving DecidableEq, Repr

/-- What a call throws: an error of its own, or one of the wallet it does not catch. -/
inductive RPCError where
  | rpc (code : RPCErrorCode) (message : String)
  | wallet (error : WalletError)
deriving DecidableEq

/-- The parts of the node a call works on. -/
structure RPCContext (Rate : Type) where
  wallet : WalletManager
  chainState : ChainState
  mempool : Mempool Rate

/-- The parameters of a call, of the types it asks for. -/
structure SendRequest where
  toAddress : List UInt8
  amount : Except String Int64
  fee : Option (Except String Int64)
  /-- Hexadecimal digits. -/
  message : Option (List UInt8)

/-- A request that was read. -/
structure Payment where
  toAddress : List UInt8
  amount : Int64
  /-- The fee the caller asks for. -/
  fee : Option Int64
  message : List UInt8

namespace Rpc

section

variable (P : Params)

/-! ### The request -/

def hexDigit (c : UInt8) : Option UInt8 :=
  if 48 ≤ c ∧ c ≤ 57 then some (c - 48)
  else if 97 ≤ c ∧ c ≤ 102 then some (c - 97 + 10)
  else if 65 ≤ c ∧ c ≤ 70 then some (c - 65 + 10)
  else none

def hexBytes : List UInt8 → Option (List UInt8)
  | hi :: lo :: hex =>
      match hexDigit hi, hexDigit lo with
      | some hi, some lo => (hexBytes hex).map ((hi <<< 4 ||| lo) :: ·)
      | _, _ => none
  | _ => some []

def readMessage (hex : List UInt8) : Except RPCError (List UInt8) :=
  if hex.length % 2 ≠ 0 then
    .error (.rpc .rpcInvalidParams "Message hex has an odd number of digits")
  else if P.maxOpReturnSize.toNat < hex.length / 2 then
    .error (.rpc .rpcInvalidParams ("Message is " ++ toString (hex.length / 2) ++
      " bytes; the limit is " ++ toString P.maxOpReturnSize))
  else
    match hexBytes hex with
    | none => .error (.rpc .rpcInvalidParams "Message is not valid hex")
    | some message => .ok message

def readFee : Option (Except String Int64) → Except RPCError (Option Int64)
  | none => .ok none
  | some (.error why) => .error (.rpc .rpcInvalidParams ("Invalid fee: " ++ why))
  | some (.ok fee) =>
      if fee < 0 then .error (.rpc .rpcInvalidParams "Fee must not be negative") else .ok (some fee)

/-- Everything a call checks before it asks the wallet for a payment. -/
def readRequest (request : SendRequest) (w : WalletManager) : Except RPCError Payment :=
  if w.mInitialized = false then
    .error (.rpc .rpcMiscError "Wallet not loaded. Use createwallet or loadwallet first.")
  else if w.mLocked then .error (.rpc .rpcMiscError "Wallet is locked. Use walletunlock first.")
  else if w.mNoiseFile.isNone then
    .error (.rpc .rpcMiscError
      "Noise file not loaded. Unlock with the correct passphrase, or run makenoise first.")
  else if request.toAddress = [] ∨ 64 < request.toAddress.length then
    .error (.rpc .rpcInvalidParams "Invalid address")
  else
    match request.amount with
    | .error why => .error (.rpc .rpcInvalidParams ("Invalid amount: " ++ why))
    | .ok amount =>
        if amount ≤ 0 then .error (.rpc .rpcInvalidParams "Amount must be positive")
        else do
          let fee ← readFee request.fee
          let message ←
            match request.message with
            | none => .ok []
            | some hex => readMessage P hex
          .ok ⟨request.toAddress, amount, fee, message⟩

/-! ### The fee -/

/-- The depth is that of a tree over `NOISE_LEAF_COUNT_VALUE` leaves. -/
def noiseProofBytesPerInput : Nat :=
  let depth := noiseLeafCountValue.log2
  4 + (4 + 32 + 32 + 4 + depth * 32 + depth) * P.noiseProofsPerInput.toNat

/-- What the transaction will weigh once it is signed. -/
def signedSizeOf (tx : Transaction) : Nat :=
  P.getSerializedSize tx + tx.inputs.length * noiseProofBytesPerInput P

def requiredFeeForSize (size : Nat) : Int64 :=
  let perByte := Int64.ofNat size * P.minFeePerByte
  if P.minTxFee < perByte then perByte else P.minTxFee

/-- What the inputs are worth; `none` when one is gone. -/
def totalIn (view : CoinsView) : Int64 → List TxInput → Option Int64
  | total, [] => some total
  | total, input :: inputs =>
      match view.getCoin input.outpoint with
      | none => none
      | some coin => totalIn view (total + coin.value) inputs

/-- The fee of a transaction that passes the checks a stranger's would have to. -/
def validateAndComputeFee (chainState : ChainState) (tx : Transaction) : Except String Int64 :=
  let view := chainState.mUTXOSet.view
  let nextHeight := UInt32.ofNat chainState.mBestChain.height + 1
  match TxValidation.checkTransaction P tx with
  | .error state => .error state.reason
  | .ok () =>
      if tx.isCoinbase then .error "loose coinbase is never valid"
      else
        match TxValidation.checkTransactionWithUTXO P view nextHeight tx with
        | .error state => .error state.reason
        | .ok () =>
            match TxValidation.verifyTransactionSignatures P view tx [] with
            | .error state => .error state.reason
            | .ok _ =>
                match totalIn view 0 tx.inputs with
                | none => .error "input vanished during fee computation"
                | some total => .ok (total - P.getValueOut tx)

end

end Rpc

/-- What was held for a transaction is free again. -/
def WalletManager.releaseOutpointsFor (txid : Bytes32) (w : WalletManager) : WalletManager :=
  { w with mHeldOutpoints := w.mHeldOutpoints.filter fun _ id => id ≠ txid }

namespace Rpc

section

variable {Rate : Type} (A : RateArith Rate) (P : Params) (K : WalletParams) (coin : Int64)
  (indexOrder : List Mempool.Entry → List Mempool.Entry)

/-! ### The payment -/

/-- `CreateTransaction` at a fee, with what chain and pool hold now. -/
def createAt (payment : Payment) (fee : Int64) (writes : Bool) (ctx : RPCContext Rate) :
    Except RPCError Transaction × RPCContext Rate :=
  let poolTxs := (Mempool.snapshot indexOrder ctx.mempool).map (·.tx)
  match WalletManager.createTransaction P K coin payment.toAddress payment.amount fee
      ctx.chainState.mUTXOSet (UInt32.ofNat ctx.chainState.mBestChain.height) (some poolTxs)
      (some payment.message) writes ctx.wallet with
  | (.error e, wallet) =>
      (.error (.rpc .rpcMiscError ("CreateTransaction failed: " ++ e)), { ctx with wallet })
  | (.ok tx, wallet) => (.ok tx, { ctx with wallet })

/-- The payment is built at the fee asked for, or the floor, and then measured.
A fee asked for must cover the size; without one the payment is built again at
the fee its size demands. -/
def buildPayment (payment : Payment) (writes again : Bool) (ctx : RPCContext Rate) :
    Except RPCError Transaction × RPCContext Rate :=
  let fee := payment.fee.getD P.minTxFee
  match createAt P K coin indexOrder payment fee writes ctx with
  | (.error e, ctx) => (.error e, ctx)
  | (.ok tx, ctx) =>
      let required := requiredFeeForSize P (signedSizeOf P tx)
      let released := { ctx with wallet := ctx.wallet.releaseOutpointsFor tx.hash }
      match payment.fee with
      | none =>
          if fee < required then createAt P K coin indexOrder payment required again released
          else (.ok tx, ctx)
      | some fee =>
          if fee < required then
            (.error (.rpc .rpcInvalidParams ("Fee " ++ toString fee.toInt ++
              " is below the minimum " ++ toString required.toInt ++
              " this transfer requires; omit the fee to have it set from the size")), released)
          else (.ok tx, ctx)

/-- The payment is signed, checked and offered to the pool. -/
def submitPayment (writes : Bool) (now : Int64) (tx : Transaction) (ctx : RPCContext Rate) :
    Except RPCError Bytes32 × RPCContext Rate :=
  match WalletManager.signTransaction P K writes tx ctx.wallet with
  | (.error e, _, wallet) => (.error (.wallet e), { ctx with wallet })
  | (.ok false, _, wallet) =>
      (.error (.rpc .rpcVerifyError "Failed to sign transaction (missing key for an input)"),
        { ctx with wallet })
  | (.ok true, tx, wallet) =>
      let ctx := { ctx with wallet }
      match validateAndComputeFee P ctx.chainState tx with
      | .error reason => (.error (.rpc .rpcVerifyRejected ("Transaction invalid: " ++ reason)), ctx)
      | .ok actualFee =>
          match Mempool.addTransaction A P tx actualFee.toInt now.toInt ctx.mempool with
          | (false, mempool) =>
              (.error (.rpc .rpcVerifyRejected ("Transaction rejected by mempool (duplicate, " ++
                "conflict, or fee rate below the rolling minimum)")), { ctx with mempool })
          | (true, mempool) => (.ok tx.hash, { ctx with mempool })

/-- What a call meets besides its parameters: whether each of the writes of the
wallet file succeeds, and the clock. -/
structure Surroundings where
  writes : Bool
  again : Bool
  signing : Bool
  now : Int64

def sendtoaddress (request : SendRequest) (env : Surroundings) (ctx : RPCContext Rate) :
    Except RPCError Bytes32 × RPCContext Rate :=
  match readRequest P request ctx.wallet with
  | .error e => (.error e, ctx)
  | .ok payment =>
      match buildPayment P K coin indexOrder payment env.writes env.again ctx with
      | (.error e, ctx) => (.error e, ctx)
      | (.ok tx, ctx) => submitPayment A P K env.signing env.now tx ctx

end

end Rpc

end QmaskCore
