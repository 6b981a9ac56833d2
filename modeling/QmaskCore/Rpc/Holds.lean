import QmaskCore.Ledger.ActiveChain
import QmaskCore.Lib.Runs
import QmaskCore.Mempool.Settled
import QmaskCore.Rpc.Sending
import QmaskCore.Wallet.Created

/-!
Is an output the wallet holds back held for a payment that exists?

`CreateTransaction` holds what it spends; the only calls that release it again
are those on the two exits where the fee is wrong. `Backed` says that whatever is
held is held for a transaction in the pool or on the active chain. A call keeps
it when every payment that gets past its fee ends up in the pool
(`Backed.sendtoaddress`), so it holds along every run of such calls
(`holds_backed`).
-/

namespace QmaskCore

/-- The transaction is in a block of the active chain. -/
def ChainState.Confirms (P : Params) (s : ChainState) (id : Bytes32) : Prop :=
  ∃ chain, s.activeChain P = some chain ∧ ∃ block ∈ chain, id ∈ block.transactions.map (·.hash)

namespace WalletManager

/-- Some output is held for the transaction. -/
def HoldsFor (w : WalletManager) (id : Bytes32) : Prop := ∃ o, w.mHeldOutpoints.lookup o = some id

section

variable {P : Params} {K : WalletParams} {w w' : WalletManager} {id : Bytes32}

theorem holdsFor_congr (same : w'.mHeldOutpoints = w.mHeldOutpoints) :
    w'.HoldsFor id ↔ w.HoldsFor id := by
  rw [HoldsFor, HoldsFor, same]

theorem HoldsFor.of_hold {txid : Bytes32} {selected : List (OutPoint × Coin)}
    (held : (w.hold txid selected).HoldsFor id) : id = txid ∨ w.HoldsFor id := by
  obtain ⟨o, found⟩ := held
  rw [lookup_hold] at found
  split at found
  · exact .inl (Option.some.inj found).symm
  · exact .inr ⟨o, found⟩

theorem HoldsFor.of_release {txid : Bytes32} (held : (w.releaseOutpointsFor txid).HoldsFor id) :
    w.HoldsFor id ∧ id ≠ txid := by
  obtain ⟨o, found⟩ := held
  obtain ⟨before, other⟩ := AList.lookup_filter.mp found
  exact ⟨⟨o, before⟩, of_decide_eq_true other⟩

theorem HoldsFor.of_rekey {unsignedId signedId : Bytes32}
    (held : (w.rekey unsignedId signedId).HoldsFor id) :
    id = signedId ∨ w.HoldsFor id ∧ id ≠ unsignedId := by
  obtain ⟨o, found⟩ := held
  obtain ⟨⟨_, before⟩, mem, same⟩ := List.mem_map.mp (AList.mem_lookup_iff.mp found)
  cases same
  dsimp only
  split
  · exact .inl rfl
  · rename_i other
    exact .inr ⟨⟨_, AList.mem_lookup_iff.mpr mem⟩, other⟩

end

end WalletManager

open WalletManager

namespace Rpc

section

variable {Rate : Type} {A : RateArith Rate} {P : Params} {K : WalletParams} {coin : Int64}
  {indexOrder : List Mempool.Entry → List Mempool.Entry} {ctx ctx' : RPCContext Rate}

/-- Whatever is held is held for a transaction in the pool or on the active chain. -/
def Backed (P : Params) (ctx : RPCContext Rate) : Prop :=
  ∀ o id, ctx.wallet.mHeldOutpoints.lookup o = some id →
    ctx.mempool.hasTransaction id = true ∨ ctx.chainState.Confirms P id

/-- The payment is signed, found valid and taken by the pool, which lets go of
no transaction that outputs are held for. -/
def Submits (A : RateArith Rate) (P : Params) (K : WalletParams) (writes : Bool) (now : Int64)
    (tx : Transaction) (ctx : RPCContext Rate) : Prop :=
  ∃ signed wallet fee mempool,
    signTransaction P K writes tx ctx.wallet = (.ok true, signed, wallet) ∧
    validateAndComputeFee P ctx.chainState signed = .ok fee ∧
    Mempool.addTransaction A P signed fee.toInt now.toInt ctx.mempool = (true, mempool) ∧
    ∀ id, ctx.wallet.HoldsFor id → ctx.mempool.hasTransaction id = true →
      mempool.hasTransaction id = true

/-- What is asked of a call: should it build a payment, the payment is submitted. -/
def Delivers (A : RateArith Rate) (P : Params) (K : WalletParams) (coin : Int64)
    (indexOrder : List Mempool.Entry → List Mempool.Entry) (request : SendRequest)
    (env : Surroundings) (ctx : RPCContext Rate) : Prop :=
  ∀ payment tx ctx', readRequest P request ctx.wallet = .ok payment →
    buildPayment P K coin indexOrder payment env.writes env.again ctx = (.ok tx, ctx') →
    Submits A P K env.signing env.now tx ctx'

/-! ### The payment -/

/-- Nothing is held that was not before, but for the payment that was built. -/
structure Builds (K : WalletParams) (ctx : RPCContext Rate)
    (out : Except RPCError Transaction × RPCContext Rate) : Prop where
  mempool : out.2.mempool = ctx.mempool
  chainState : out.2.chainState = ctx.chainState
  hashed : ∀ tx, out.1 = .ok tx → tx.Hashed K
  held : ∀ id, out.2.wallet.HoldsFor id →
    ctx.wallet.HoldsFor id ∨ ∃ tx, out.1 = .ok tx ∧ id = tx.hash

variable (coin indexOrder) in
theorem builds_createAt (payment : Payment) (fee : Int64) (writes : Bool) (ctx : RPCContext Rate) :
    Builds K ctx (createAt P K coin indexOrder payment fee writes ctx) := by
  unfold createAt
  dsimp only
  split
  · rename_i e wallet failed
    refine ⟨rfl, rfl, nofun, fun id held => .inl ?_⟩
    exact (holdsFor_congr (held_createTransaction_error failed)).mp held
  · rename_i tx wallet created
    obtain ⟨seed, toPubkeyHash, inputs, change, w₁, -, -, -, -, -, -, -, -, left, made, rfl⟩ :=
      createTransaction_eq_ok created
    refine ⟨rfl, rfl, ?_, fun id held => ?_⟩
    · rintro _ ⟨rfl⟩
      unfold WalletManager.build at made
      split at made
      · cases made
        rfl
      · cases made
    · have unchanged := held_changeOutput (P := P) (K := K)
        ((selectCoins (payment.amount + fee) 0 (spendable P ctx.chainState.mUTXOSet
          (UInt32.ofNat ctx.chainState.mBestChain.height)
          (some ((Mempool.snapshot indexOrder ctx.mempool).map (·.tx))) ctx.wallet)).2 -
            (payment.amount + fee)) writes ctx.wallet
      rw [left] at unchanged
      rcases HoldsFor.of_hold held with rfl | before
      · exact .inr ⟨tx, rfl, rfl⟩
      · exact .inl ((holdsFor_congr unchanged).mp before)

variable (coin indexOrder) in
/-- What was held for the payment that was measured is released before the next
is built, and where its fee is refused. -/
theorem builds_buildPayment (payment : Payment) (writes again : Bool) (ctx : RPCContext Rate) :
    Builds K ctx (buildPayment P K coin indexOrder payment writes again ctx) := by
  have first := builds_createAt (P := P) (K := K) coin indexOrder payment
    (payment.fee.getD P.minTxFee) writes ctx
  unfold buildPayment
  dsimp only
  split
  · rename_i e ctx₁ failed
    rwa [failed] at first
  · rename_i tx ctx₁ made
    rw [made] at first
    have released : ∀ id, (ctx₁.wallet.releaseOutpointsFor tx.hash).HoldsFor id →
        ctx.wallet.HoldsFor id := by
      intro id held
      obtain ⟨before, other⟩ := held.of_release
      rcases first.held id before with old | ⟨tx', same, rfl⟩
      · exact old
      · cases same
        exact absurd rfl other
    split
    · split
      · generalize requiredFeeForSize P (signedSizeOf P tx) = required
        have second := builds_createAt (P := P) (K := K) coin indexOrder payment required again
          { ctx₁ with wallet := ctx₁.wallet.releaseOutpointsFor tx.hash }
        refine ⟨second.mempool.trans first.mempool, second.chainState.trans first.chainState,
          second.hashed, fun id held => ?_⟩
        rcases second.held id held with before | built
        · exact .inl (released id before)
        · exact .inr built
      · exact first
    · split
      · exact ⟨first.mempool, first.chainState, nofun, fun id held => .inl (released id held)⟩
      · exact first

/-! ### A call -/

theorem backed_iff : Backed P ctx ↔ ∀ id, ctx.wallet.HoldsFor id →
    ctx.mempool.hasTransaction id = true ∨ ctx.chainState.Confirms P id :=
  ⟨fun backed id ⟨o, found⟩ => backed o id found, fun backed o id found => backed id ⟨o, found⟩⟩

/-- A transaction the pool takes is in it. -/
theorem hasTransaction_of_added {tx : Transaction} {fee now : Int} {s s' : Mempool Rate}
    (added : Mempool.addTransaction A P tx fee now s = (true, s')) :
    s'.hasTransaction tx.hash = true := by
  unfold Mempool.addTransaction at added
  dsimp only at added
  split at added
  · cases added
  split at added
  · cases added
  split at added
  · cases added
  split at added
  · cases added
  split at added
  · cases added
  · rw [Prod.mk.injEq] at added
    obtain ⟨found, rfl⟩ := added
    exact found

/-- A payment that is submitted takes what was held for it along. -/
theorem Backed.submitPayment (hashes : K.HashesContent) {writes : Bool} {now : Int64}
    {tx : Transaction} (hashed : tx.Hashed K)
    (backed : ∀ id, ctx.wallet.HoldsFor id →
      id = tx.hash ∨ ctx.mempool.hasTransaction id = true ∨ ctx.chainState.Confirms P id)
    (submits : Submits A P K writes now tx ctx) :
    Backed P (Rpc.submitPayment A P K writes now tx ctx).2 := by
  obtain ⟨signed, wallet, fee, mempool, sign, valid, added, stay⟩ := submits
  have done : (Rpc.submitPayment A P K writes now tx ctx).2 =
      { ctx with wallet := wallet, mempool := mempool } := by
    simp only [Rpc.submitPayment, sign, valid, added]
  rw [done, backed_iff]
  intro id held
  rw [holdsFor_congr (held_signTransaction hashes hashed sign)] at held
  rcases held.of_rekey with rfl | ⟨before, other⟩
  · exact .inl (hasTransaction_of_added added)
  · rcases backed id before with own | pooled | confirmed
    · exact absurd own other
    · exact .inl (stay id before pooled)
    · exact .inr confirmed

/-- A call that returned delivered its payment, as long as there was nothing in
the pool to let go of. -/
theorem delivers_of_ok {request : SendRequest} {env : Surroundings} (txid : Bytes32)
    (sent : (Rpc.sendtoaddress A P K coin indexOrder request env ctx).1 = .ok txid)
    (empty : ∀ id, ctx.mempool.hasTransaction id = false) :
    Delivers A P K coin indexOrder request env ctx := by
  intro payment tx ctx₁ read made
  have builds := builds_buildPayment (P := P) (K := K) coin indexOrder payment env.writes env.again ctx
  simp only [made] at builds
  simp only [Rpc.sendtoaddress, read, made, Rpc.submitPayment] at sent
  split at sent
  · cases sent
  · cases sent
  rename_i signed wallet sign
  split at sent
  · cases sent
  rename_i fee valid
  split at sent
  · cases sent
  rename_i mempool added
  refine ⟨signed, wallet, fee, mempool, sign, valid, added, fun id _ pooled => ?_⟩
  rw [builds.mempool, empty id] at pooled
  cases pooled

/-- One call, whichever exit it takes. -/
theorem Backed.sendtoaddress (hashes : K.HashesContent) {request : SendRequest} {env : Surroundings}
    (backed : Backed P ctx) (delivers : Delivers A P K coin indexOrder request env ctx) :
    Backed P (Rpc.sendtoaddress A P K coin indexOrder request env ctx).2 := by
  unfold Rpc.sendtoaddress
  split
  · exact backed
  rename_i payment read
  have builds := builds_buildPayment (P := P) (K := K) coin indexOrder payment env.writes env.again ctx
  rw [backed_iff] at backed
  split
  · rename_i e ctx₁ failed
    rw [failed] at builds
    rw [backed_iff]
    intro id held
    rw [builds.mempool, builds.chainState]
    rcases builds.held id held with before | ⟨tx, made, -⟩
    · exact backed id before
    · cases made
  · rename_i tx ctx₁ made
    have submits := delivers payment tx ctx₁ read made
    rw [made] at builds
    refine Backed.submitPayment hashes (builds.hashed tx rfl) (fun id held => ?_) submits
    rw [builds.mempool, builds.chainState]
    rcases builds.held id held with before | ⟨tx', same, rfl⟩
    · exact .inr (backed id before)
    · cases same
      exact .inl rfl

end

end Rpc

/-! ### Runs -/

/-- What happens to a node: a call, or anything else. -/
inductive SendOp (Rate : Type) where
  | sendtoaddress (request : SendRequest) (env : Rpc.Surroundings)
  /-- Other calls, blocks and transactions of the network; none touches what is held. -/
  | meanwhile (after : RPCContext Rate)

namespace SendOp

variable {Rate : Type} (A : RateArith Rate) (P : Params) (K : WalletParams) (coin : Int64)
  (indexOrder : List Mempool.Entry → List Mempool.Entry)

def apply (ctx : RPCContext Rate) : SendOp Rate → RPCContext Rate
  | sendtoaddress request env => (Rpc.sendtoaddress A P K coin indexOrder request env ctx).2
  | meanwhile after =>
      { after with wallet := { after.wallet with mHeldOutpoints := ctx.wallet.mHeldOutpoints } }

/-- A payment that was built is submitted, and no transaction that outputs are
held for leaves the pool but for a block of the active chain. -/
def Careful (ctx : RPCContext Rate) : SendOp Rate → Prop
  | sendtoaddress request env => Rpc.Delivers A P K coin indexOrder request env ctx
  | meanwhile after => ∀ id, ctx.wallet.HoldsFor id →
      ctx.mempool.hasTransaction id = true ∨ ctx.chainState.Confirms P id →
      after.mempool.hasTransaction id = true ∨ after.chainState.Confirms P id

end SendOp

/-- **Held for a payment that exists.** Along every run in which each payment
that gets past its fee is signed, valid and taken by the pool, and no payment
leaves the pool unconfirmed, whatever is held is held for a transaction in the
pool or on the active chain. -/
theorem holds_backed {Rate : Type} {A : RateArith Rate} {P : Params} {K : WalletParams}
    {coin : Int64} {indexOrder : List Mempool.Entry → List Mempool.Entry}
    (hashes : K.HashesContent) {ctx : RPCContext Rate} (start : Rpc.Backed P ctx)
    {ops : List (SendOp Rate)}
    (careful : Run.Meets (SendOp.apply A P K coin indexOrder)
      (SendOp.Careful A P K coin indexOrder) ops ctx) :
    Rpc.Backed P (ops.foldl (SendOp.apply A P K coin indexOrder) ctx) := by
  refine Run.Meets.invariant (fun ctx op backed meets => ?_) start careful
  cases op with
  | sendtoaddress request env => exact backed.sendtoaddress hashes meets
  | meanwhile after =>
      intro o id found
      exact meets id ⟨o, found⟩ (backed o id found)

/-! ### A small wallet at work -/

namespace SmallNetwork

/-- A wallet whose payments all have the id 5. -/
def payingWallet : WalletParams :=
  { smallWallet with
    rehash := fun _ _ => 5
    buildHash := fun _ _ => 5 }

theorem hashesContent_payingWallet : payingWallet.HashesContent :=
  ⟨fun _ _ => rfl, fun _ _ _ _ => rfl⟩

/-- An unlocked wallet with one address and a noise file of one leaf. -/
def payer : WalletManager :=
  { WalletManager.new none with
    mLocked := false
    mInitialized := true
    mUnlockedSeed := some 0
    mNoiseKps := 0x100000000
    mNoiseFile := NoiseFile.generate smallNetwork (1 : Bytes32).toBytes smallNetwork.noiseLeafCount
    mAddresses := [⟨0x100000000, 0, [], false⟩] }

theorem fits_reward : [TxOutput.payTo 10 0x100000000].length ≤ Transaction.maxOutputs := by decide

/-- A block whose coinbase pays the wallet. -/
def rewardBlock : Block :=
  let reward : Transaction := { mint 2 10 with
    outputs := [.payTo 10 0x100000000]
    outputs_le := fits_reward }
  mine smallNetwork.genesisHash 1 1 [reward] (by simp [Block.maxTransactions])

def payingNode : RPCContext Int where
  wallet := payer
  chainState := node.acceptAll smallNetwork [(20, rewardBlock),
    (20, mine (rewardBlock.getHash smallNetwork.sha256) 2 2 [mint 3 10]
      fits_three)]
  mempool := .new rates 1000

/-- Ten to an address outside. -/
def payTen : SendRequest := ⟨0 :: (1 : Bytes32).toBytes ++ [0, 0, 0, 0], .ok 10, none, none⟩

end SmallNetwork

open SmallNetwork in
/-- The payment goes out, and its input is held for it. -/
theorem holds_backed_paying_node :
    let ctx := [SendOp.sendtoaddress payTen ⟨true, true, true, 0⟩].foldl
      (SendOp.apply rates smallNetwork payingWallet 1 id) payingNode
    ctx.wallet.mHeldOutpoints.lookup ⟨2, 0⟩ = some 5 ∧ Rpc.Backed smallNetwork ctx := by
  have careful : Run.Meets (SendOp.apply rates smallNetwork payingWallet 1 id)
      (SendOp.Careful rates smallNetwork payingWallet 1 id)
      [.sendtoaddress payTen ⟨true, true, true, 0⟩] payingNode := by
    refine ⟨Rpc.delivers_of_ok 5 ?_ fun id => rfl, trivial⟩
    decide +kernel
  refine ⟨by decide +kernel, holds_backed hashesContent_payingWallet (fun o id found => ?_) careful⟩
  cases found

open SmallNetwork in
/-- The wallet file can not be written: the payment is not sent, and its input
stays held for a transaction that is nowhere. -/
theorem holds_kept_unwritten :
    payingNode.wallet.mHeldOutpoints = ∅ ∧
      ¬ Rpc.Backed smallNetwork (Rpc.sendtoaddress rates smallNetwork payingWallet 1 id payTen
        ⟨true, true, false, 0⟩ payingNode).2 := by
  refine ⟨rfl, fun backed => ?_⟩
  rcases backed ⟨2, 0⟩ 5 (by decide +kernel) with pooled | ⟨chain, active, inside⟩
  · revert pooled
    decide +kernel
  · have clear : (Option.all (fun chain => chain.all fun block =>
        !(block.transactions.map (·.hash)).contains 5)
        ((Rpc.sendtoaddress rates smallNetwork payingWallet 1 id payTen
          ⟨true, true, false, 0⟩ payingNode).2.chainState.activeChain smallNetwork)) = true := by
      decide +kernel
    obtain ⟨block, mem, found⟩ := inside
    rw [active, Option.all_some, List.all_eq_true] at clear
    have absent := clear block mem
    rw [Bool.not_eq_true', ← Bool.not_eq_true, List.contains_iff_mem] at absent
    exact absent found

end QmaskCore
