import Mathlib.Algebra.Order.Ring.Int
import QmaskCore.Rpc.Holds
import QmaskCore.Wallet.Selection

/-!
Does a fee that is set from the size cover the size?

Without a fee in the request the payment is built at the floor, measured, and
built again at the fee its size demands. The second build needs more, so it may
take one more output than the first, and an input is dear: `covers_iff` says that
the fee covers the size just where the second build takes no more outputs and
leaves no change the first did not leave.
-/

namespace QmaskCore

/-- The bytes a transaction that is not signed is made of: those every transaction
has, those of an input, and those of an output with a script of some length. -/
structure SizeParts where
  base : Nat
  input : Nat
  output : Nat → Nat

/-- `GetSerializedSize` adds up the parts. -/
def Params.SizedBy (P : Params) (S : SizeParts) : Prop :=
  ∀ tx : Transaction, (∀ input ∈ tx.inputs, input.noiseProof = []) →
    P.getSerializedSize tx = S.base + tx.inputs.length * S.input +
      (tx.outputs.map fun out => S.output out.scriptPubKey.length).sum

/-- The length of the script an address is paid with. -/
def payToLength : Nat := 37

namespace Rpc

open WalletManager

/-- The bytes of an input once it is signed. -/
def signedInput (P : Params) (S : SizeParts) : Nat := S.input + noiseProofBytesPerInput P

/-- The fees `chainparams.h` sets. What one more input costs is above what a change
output costs and above what is not worth one, and no payment costs more than there
are numbers for. -/
structure Charges (P : Params) (S : SizeParts) : Prop where
  amounts : P.Amounts
  minFeePerByte : 0 < P.minFeePerByte.toInt
  output : 0 < S.output payToLength
  dear : P.minFeePerByte.toInt * S.output payToLength + P.dustThreshold.toInt <
    P.minFeePerByte.toInt * signedInput P S
  fits : ∀ data : List UInt8, data.length ≤ P.maxOpReturnSize.toNat →
    P.maxMoney.toInt + P.minTxFee.toInt + P.minFeePerByte.toInt *
      (S.base + Transaction.maxInputs * signedInput P S + 2 * S.output payToLength +
        S.output (createNullData data).length) < 2 ^ 63

section

variable {P : Params} {K : WalletParams} {S : SizeParts}

/-! ### The size of a payment -/

@[simp] theorem length_payTo (value : Int64) (hash : Bytes32) :
    (TxOutput.payTo value hash).scriptPubKey.length = payToLength := by
  simp [TxOutput.payTo, createPayToPubkeyHash, payToLength]

/-- The bytes of the outputs in front of the change. -/
def paidSize (S : SizeParts) (message : Option (List UInt8)) : Nat :=
  S.output payToLength +
    if message.getD [] = [] then 0 else S.output (createNullData (message.getD [])).length

section

variable {coins : List (OutPoint × Coin)} {amount fee : Int64} {message : Option (List UInt8)}
  {toPubkeyHash : Bytes32} {change : List TxOutput} {tx : Transaction}

/-- What a payment weighs once it is signed. -/
theorem signedSizeOf_drawn (sized : P.SizedBy S)
    (drawn : Drawn P coins amount fee message toPubkeyHash change tx) :
    signedSizeOf P tx = S.base + tx.inputs.length * signedInput P S + paidSize S message +
      change.length * S.output payToLength := by
  have paid' : ((paid amount toPubkeyHash message).map fun out =>
      S.output out.scriptPubKey.length).sum = paidSize S message := by
    rw [paid, paidSize]
    split
    · simp
    · simp
  have back : (change.map fun out => S.output out.scriptPubKey.length).sum =
      change.length * S.output payToLength := by
    rcases drawn.left with ⟨-, hash, rfl⟩ | ⟨-, rfl⟩
    · simp
    · simp
  rw [signedSizeOf, sized tx drawn.unsigned, drawn.outputs, List.map_append, List.sum_append, paid',
    back, signedInput]
  ring

theorem length_change (drawn : Drawn P coins amount fee message toPubkeyHash change tx) :
    change.length = if change = [] then 0 else 1 := by
  rcases drawn.left with ⟨-, hash, rfl⟩ | ⟨-, rfl⟩
  · rfl
  · rfl

/-- What the bytes of a payment cost. -/
theorem price_drawn (sized : P.SizedBy S)
    (drawn : Drawn P coins amount fee message toPubkeyHash change tx) :
    P.minFeePerByte.toInt * signedSizeOf P tx =
      P.minFeePerByte.toInt * (S.base + paidSize S message) +
        tx.inputs.length * (P.minFeePerByte.toInt * signedInput P S) +
        if change = [] then 0 else P.minFeePerByte.toInt * S.output payToLength := by
  rw [signedSizeOf_drawn sized drawn, length_change drawn]
  split
  · push_cast
    ring
  · push_cast
    ring

/-- The fee a payment demands, and that it can be added to what is paid. -/
theorem toInt_required (sized : P.SizedBy S) (charges : Charges P S) (small : amount ≤ P.maxMoney)
    (drawn : Drawn P coins amount fee message toPubkeyHash change tx) :
    (requiredFeeForSize P (signedSizeOf P tx)).toInt =
        max P.minTxFee.toInt (P.minFeePerByte.toInt * signedSizeOf P tx) ∧
      amount.toInt + (requiredFeeForSize P (signedSizeOf P tx)).toInt < 2 ^ 63 := by
  have perByte := charges.minFeePerByte
  have floor := charges.amounts.minTxFee
  have positive := drawn.positive
  have fits := charges.fits (message.getD []) drawn.message_le
  rw [Int64.le_iff_toInt_le] at floor small
  rw [Int64.lt_iff_toInt_lt] at positive
  rw [Int64.toInt_zero] at floor positive
  have few : tx.inputs.length * signedInput P S ≤ Transaction.maxInputs * signedInput P S :=
    Nat.mul_le_mul_right _ tx.inputs_le
  have size : signedSizeOf P tx ≤ S.base + Transaction.maxInputs * signedInput P S +
      2 * S.output payToLength + S.output (createNullData (message.getD [])).length := by
    rw [signedSizeOf_drawn sized drawn, length_change drawn, paidSize]
    split
    · split
      · omega
      · omega
    · split
      · omega
      · omega
  generalize signedSizeOf P tx = weight at size ⊢
  have price : P.minFeePerByte.toInt * weight ≤ P.minFeePerByte.toInt *
      (S.base + Transaction.maxInputs * signedInput P S + 2 * S.output payToLength +
        S.output (createNullData (message.getD [])).length) :=
    mul_le_mul_of_nonneg_left (by exact_mod_cast size) perByte.le
  have least : (weight : Int) ≤ P.minFeePerByte.toInt * weight :=
    le_mul_of_one_le_left (by omega) (by omega)
  have perSize : (Int64.ofNat weight * P.minFeePerByte).toInt = P.minFeePerByte.toInt * weight := by
    rw [Int64.toInt_mul, Int64.toInt_ofNat_of_lt (by omega), mul_comm]
    exact bmod_fits (by omega) (by omega)
  have fee : (requiredFeeForSize P weight).toInt =
      max P.minTxFee.toInt (P.minFeePerByte.toInt * weight) := by
    rw [requiredFeeForSize]
    split
    · rename_i above
      rw [Int64.lt_iff_toInt_lt, perSize] at above
      rw [perSize, max_eq_right above.le]
    · rename_i below
      rw [Int64.lt_iff_toInt_lt, perSize, not_lt] at below
      rw [max_eq_left below]
  refine ⟨fee, ?_⟩
  rw [fee]
  omega

end

/-! ### Building again -/

section

variable {coins coins' : List (OutPoint × Coin)} {amount : Int64} {message : Option (List UInt8)}
  {hash hash' : Bytes32} {change change' : List TxOutput} {tx tx' : Transaction}

/-- Where the size demands more than the floor, the payment that is built again
covers its own size just where it takes fewer outputs, or as many and leaves no change
that the first did not leave. -/
theorem rebuilt_iff (sized : P.SizedBy S) (charges : Charges P S) (small : amount ≤ P.maxMoney)
    (first : Drawn P coins amount P.minTxFee message hash change tx)
    (raised : P.minTxFee < requiredFeeForSize P (signedSizeOf P tx))
    (again : Drawn P coins' amount (requiredFeeForSize P (signedSizeOf P tx)) message hash' change'
      tx') :
    (requiredFeeForSize P (signedSizeOf P tx')).toInt ≤
        (gathered (coins'.take tx'.inputs.length)).toInt - tx'.totalOut ↔
      tx'.inputs.length < tx.inputs.length ∨
        tx'.inputs.length = tx.inputs.length ∧ (change' ≠ [] → change ≠ []) := by
  obtain ⟨demand, fits⟩ := toInt_required sized charges small first
  obtain ⟨demand', -⟩ := toInt_required sized charges small again
  have needed := toInt_needed charges.amounts again.positive again.floor fits
  obtain ⟨rest, low, high, none, counted⟩ := again.rest charges.amounts needed
  rw [Int64.lt_iff_toInt_lt] at raised
  rw [counted, demand']
  -- The two prices differ by inputs and by a change output.
  have price := price_drawn sized first
  have price' := price_drawn sized again
  have perInput := charges.dear
  have perOutput : 0 < P.minFeePerByte.toInt * S.output payToLength :=
    mul_pos charges.minFeePerByte (by exact_mod_cast charges.output)
  generalize P.minFeePerByte.toInt * signedInput P S = a at perInput price price'
  generalize P.minFeePerByte.toInt * S.output payToLength = b at perInput perOutput price price'
  generalize P.minFeePerByte.toInt * (S.base + paidSize S message) = base at price price'
  rcases lt_trichotomy tx'.inputs.length tx.inputs.length with fewer | same | more
  · refine iff_of_true ?_ (.inl fewer)
    obtain ⟨k, count⟩ := Nat.exists_eq_add_of_lt fewer
    have extra : 0 ≤ k * a := mul_nonneg (by omega) (by omega)
    rw [count] at price
    push_cast at price
    rw [add_mul, add_mul, one_mul] at price
    split at price <;> split at price' <;> omega
  · rw [same] at price' ⊢
    by_cases old : change = [] <;> by_cases new : change' = []
    · rw [if_pos old] at price
      rw [if_pos new] at price'
      refine iff_of_true ?_ (.inr ⟨rfl, fun some => absurd new some⟩)
      omega
    · rw [if_pos old] at price
      rw [if_neg new] at price'
      refine iff_of_false ?_ ?_
      · have nothing := none new
        omega
      · rintro (fewer | ⟨-, kept⟩)
        · exact absurd fewer (lt_irrefl _)
        · exact kept new old
    · rw [if_neg old] at price
      rw [if_pos new] at price'
      refine iff_of_true ?_ (.inr ⟨rfl, fun some => absurd new some⟩)
      omega
    · rw [if_neg old] at price
      rw [if_neg new] at price'
      refine iff_of_true ?_ (.inr ⟨rfl, fun _ => old⟩)
      omega
  · refine iff_of_false ?_ (by omega)
    obtain ⟨k, count⟩ := Nat.exists_eq_add_of_lt more
    have extra : 0 ≤ k * a := mul_nonneg (by omega) (by omega)
    rw [count] at price'
    push_cast at price'
    rw [add_mul, add_mul, one_mul] at price'
    split at price <;> split at price' <;> omega

/-- A payment has no more inputs than some outputs where as few at the front of the
list are enough. -/
theorem length_inputs_le_iff {fee : Int64} {n : Nat}
    (drawn : Drawn P coins amount fee message hash change tx) :
    tx.inputs.length ≤ n ↔ ∃ f, f <+: coins ∧ f.length ≤ n ∧ amount + fee ≤ gathered f := by
  have covered := drawn.covered
  have count := congrArg List.length drawn.outpoints
  rw [List.length_map, List.length_map] at count
  rw [← selectCoins_snd, selectCoins_eq] at covered
  rw [count, selectCoins_eq]
  exact FoldUntil.length_foldUntil_le_iff covered

theorem change_ne_nil_iff {fee : Int64}
    (drawn : Drawn P coins amount fee message hash change tx) :
    change ≠ [] ↔ P.dustThreshold < gathered (coins.take tx.inputs.length) - (amount + fee) := by
  rw [drawn.take_eq]
  rcases drawn.left with ⟨above, hash, rfl⟩ | ⟨below, rfl⟩
  · exact iff_of_true (List.cons_ne_nil _ _) above
  · exact iff_of_false (fun some => some rfl) (Int64.not_lt.mpr below)

/-- The same, of the outputs: fewer are enough, or as many are, and the change they
leave was left before. -/
theorem rebuilt_enough_iff {fee fee' : Int64}
    (first : Drawn P coins amount fee message hash change tx)
    (again : Drawn P coins' amount fee' message hash' change' tx') :
    tx'.inputs.length < tx.inputs.length ∨
        tx'.inputs.length = tx.inputs.length ∧ (change' ≠ [] → change ≠ []) ↔
      (∃ f, f <+: coins' ∧ f.length < tx.inputs.length ∧ amount + fee' ≤ gathered f) ∨
        amount + fee' ≤ gathered (coins'.take tx.inputs.length) ∧
          (P.dustThreshold < gathered (coins'.take tx.inputs.length) - (amount + fee') →
            P.dustThreshold < gathered (coins.take tx.inputs.length) - (amount + fee)) := by
  have enough : amount + fee' ≤ gathered (coins'.take tx'.inputs.length) := by
    rw [again.take_eq]
    exact again.covered
  rw [← change_ne_nil_iff first]
  constructor
  · rintro (fewer | ⟨same, kept⟩)
    · refine .inl ⟨coins'.take tx'.inputs.length, List.take_prefix _ _, ?_, enough⟩
      exact (List.length_take_le _ _).trans_lt fewer
    · rw [← same]
      refine .inr ⟨enough, fun left => kept ((change_ne_nil_iff again).mpr left)⟩
  · rintro (⟨f, isFront, short, enough'⟩ | ⟨enough', kept⟩)
    · have fewer := (length_inputs_le_iff again).mpr ⟨f, isFront, le_rfl, enough'⟩
      exact .inl (fewer.trans_lt short)
    · have notMore := (length_inputs_le_iff again).mpr
        ⟨_, List.take_prefix _ _, List.length_take_le _ _, enough'⟩
      rcases notMore.lt_or_eq with fewer | same
      · exact .inl fewer
      · refine .inr ⟨same, fun some => kept ?_⟩
        rw [← same]
        exact (change_ne_nil_iff again).mp some

end

/-! ### A call without a fee -/

section

variable {Rate : Type} (P K) (coin : Int64) (indexOrder : List Mempool.Entry → List Mempool.Entry)

/-- What the pool holds. -/
def pooled (ctx : RPCContext Rate) : List Transaction :=
  (Mempool.snapshot indexOrder ctx.mempool).map (·.tx)

/-- What a payment may spend. -/
def candidates (ctx : RPCContext Rate) : List (OutPoint × Coin) :=
  spendable P ctx.chainState.mUTXOSet (UInt32.ofNat ctx.chainState.mBestChain.height)
    (some (pooled indexOrder ctx)) ctx.wallet

/-- The floor covers the size of the payment that was built first, or the fee that its
size demands leaves the size as it is: of what can be spent then, fewer outputs than
it took are enough, or as many are and leave no change where it left none. -/
def SettledBy (payment : Payment) (tx : Transaction) (before after : RPCContext Rate) : Prop :=
  let required := requiredFeeForSize P (signedSizeOf P tx)
  let needed := payment.amount + required
  let coins := candidates P indexOrder
    { after with wallet := after.wallet.releaseOutpointsFor tx.hash }
  required ≤ P.minTxFee ∨
    (∃ f, f <+: coins ∧ f.length < tx.inputs.length ∧ needed ≤ gathered f) ∨
    needed ≤ gathered (coins.take tx.inputs.length) ∧
      (P.dustThreshold < gathered (coins.take tx.inputs.length) - needed →
        P.dustThreshold < gathered ((candidates P indexOrder before).take tx.inputs.length) -
          (payment.amount + P.minTxFee))

/-- The payment that is built at the floor settles the fee. -/
def Settles (payment : Payment) (writes : Bool) (ctx : RPCContext Rate) : Prop :=
  ∀ tx ctx', createAt P K coin indexOrder payment P.minTxFee writes ctx = (.ok tx, ctx') →
    SettledBy P indexOrder payment tx ctx ctx'

variable {P K coin indexOrder} {payment : Payment} {writes again : Bool}
  {ctx ctx' : RPCContext Rate} {tx : Transaction}

theorem createAt_drawn {fee : Int64}
    (made : createAt P K coin indexOrder payment fee writes ctx = (.ok tx, ctx')) :
    (∃ hash change, Drawn P (candidates P indexOrder ctx) payment.amount fee
        (some payment.message) hash change tx) ∧
      ctx'.chainState = ctx.chainState ∧ ctx'.mempool = ctx.mempool := by
  unfold createAt at made
  dsimp only at made
  split at made
  · cases made
  · rename_i built wallet created
    cases made
    obtain ⟨hash, change, -, drawn, -⟩ := drawn_of_created created
    exact ⟨⟨hash, change, drawn⟩, rfl, rfl⟩

/-- What a payment spends is in the coin set or paid by the pool. -/
theorem source_of_drawn {fee : Int64} {hash : Bytes32} {change : List TxOutput}
    (drawn : Drawn P (candidates P indexOrder ctx) payment.amount fee (some payment.message) hash
      change tx) :
    tx.inputs.map (·.outpoint) =
        ((candidates P indexOrder ctx).take tx.inputs.length).map (·.1) ∧
      ∀ u ∈ (candidates P indexOrder ctx).take tx.inputs.length,
        ctx.chainState.mUTXOSet.getCoin u.1 = some u.2 ∨
          ∃ p ∈ pooled indexOrder ctx, PaidBy p u :=
  ⟨drawn.take_eq ▸ drawn.outpoints, fun _ mem => (of_mem_spendable (List.mem_of_mem_take mem)).1⟩

/-- Without a fee the payment is built at the floor, and again where its size demands more. -/
theorem buildPayment_auto (auto : payment.fee = none)
    (built : buildPayment P K coin indexOrder payment writes again ctx = (.ok tx, ctx')) :
    ∃ tx₁ ctx₁, createAt P K coin indexOrder payment P.minTxFee writes ctx = (.ok tx₁, ctx₁) ∧
      let required := requiredFeeForSize P (signedSizeOf P tx₁)
      (required ≤ P.minTxFee ∧ tx = tx₁ ∨
        P.minTxFee < required ∧ createAt P K coin indexOrder payment required again
          { ctx₁ with wallet := ctx₁.wallet.releaseOutpointsFor tx₁.hash } = (.ok tx, ctx')) := by
  unfold buildPayment at built
  rw [auto, Option.getD_none] at built
  dsimp only at built
  split at built
  · cases built
  · rename_i tx₁ ctx₁ made
    refine ⟨tx₁, ctx₁, made, ?_⟩
    split at built
    · rename_i raised
      exact .inr ⟨raised, built⟩
    · rename_i enough
      cases built
      exact .inl ⟨Int64.not_lt.mp enough, rfl⟩

/-- Where the wallet can spend what it could before, the fee is settled when what was
selected is enough for it too. -/
theorem settledBy_iff (sized : P.SizedBy S) (charges : Charges P S)
    (small : payment.amount ≤ P.maxMoney) {hash : Bytes32} {change : List TxOutput}
    (first : Drawn P (candidates P indexOrder ctx) payment.amount P.minTxFee
      (some payment.message) hash change tx)
    (same : candidates P indexOrder
      { ctx' with wallet := ctx'.wallet.releaseOutpointsFor tx.hash } =
        candidates P indexOrder ctx) :
    SettledBy P indexOrder payment tx ctx ctx' ↔
      requiredFeeForSize P (signedSizeOf P tx) ≤ P.minTxFee ∨
        payment.amount + requiredFeeForSize P (signedSizeOf P tx) ≤
          gathered ((candidates P indexOrder ctx).take tx.inputs.length) := by
  obtain ⟨demand, fits⟩ := toInt_required sized charges small first
  have atLeast : P.minTxFee ≤ requiredFeeForSize P (signedSizeOf P tx) := by
    rw [Int64.le_iff_toInt_le, demand]
    exact le_max_left _ _
  have needed := toInt_needed charges.amounts first.positive atLeast fits
  rw [Int64.le_iff_toInt_le] at atLeast
  have least := toInt_needed charges.amounts first.positive first.floor (by omega)
  have positive := first.positive
  have floor := charges.amounts.minTxFee
  have limit := (gathered ((candidates P indexOrder ctx).take tx.inputs.length)).toInt_lt
  rw [Int64.lt_iff_toInt_lt, Int64.toInt_zero] at positive
  rw [Int64.le_iff_toInt_le, Int64.toInt_zero] at floor
  rw [SettledBy, same]
  refine or_congr_right ⟨?_, fun enough => .inr ⟨enough, fun left => ?_⟩⟩
  · rintro (⟨f, isFront, short, enough⟩ | ⟨enough, -⟩)
    · -- No shorter front was enough at the floor.
      have already : payment.amount + P.minTxFee ≤ gathered f := by
        rw [Int64.le_iff_toInt_le] at enough ⊢
        omega
      have atMost := (length_inputs_le_iff first).mpr ⟨f, isFront, le_rfl, already⟩
      omega
    · exact enough
  · rw [Int64.le_iff_toInt_le] at enough
    rw [Int64.lt_iff_toInt_lt, Int64.toInt_sub, bmod_fits (by omega) (by omega)] at left ⊢
    omega

theorem readRequest_auto {request : SendRequest} {w : WalletManager} (auto : request.fee = none)
    (read : readRequest P request w = .ok payment) :
    payment.fee = none ∧ request.amount = .ok payment.amount := by
  unfold readRequest at read
  split at read
  · cases read
  split at read
  · cases read
  split at read
  · cases read
  split at read
  · cases read
  split at read
  · cases read
  rename_i amount given
  split at read
  · cases read
  rw [auto, readFee] at read
  cases sent : request.message with
  | none =>
      rw [sent] at read
      cases read
      exact ⟨rfl, given⟩
  | some hex =>
      rw [sent] at read
      cases message : readMessage P hex with
      | error e =>
          dsimp only at read
          rw [message] at read
          cases read
      | ok message =>
          dsimp only at read
          rw [message] at read
          cases read
          exact ⟨rfl, given⟩

end

end

/-- **The automatic fee** covers the size of the payment that goes on to be signed
just where the first fee settles it. -/
theorem automatic_fee_iff {Rate : Type} {P : Params} {K : WalletParams} {coin : Int64}
    {indexOrder : List Mempool.Entry → List Mempool.Entry} {S : SizeParts} (sized : P.SizedBy S)
    (charges : Charges P S) {request : SendRequest} (auto : request.fee = none)
    (money : ∀ amount, request.amount = .ok amount → amount ≤ P.maxMoney) {env : Surroundings}
    {ctx ctx' : RPCContext Rate} {payment : Payment}
    (read : readRequest P request ctx.wallet = .ok payment) {tx : Transaction}
    (built : buildPayment P K coin indexOrder payment env.writes env.again ctx = (.ok tx, ctx')) :
    ∃ spent, tx.inputs.map (·.outpoint) = spent.map (·.1) ∧
      (∀ u ∈ spent, ctx.chainState.mUTXOSet.getCoin u.1 = some u.2 ∨
        ∃ p ∈ pooled indexOrder ctx, PaidBy p u) ∧
      ((requiredFeeForSize P (signedSizeOf P tx)).toInt ≤ (gathered spent).toInt - tx.totalOut ↔
        Settles P K coin indexOrder payment env.writes ctx) := by
  obtain ⟨auto', given⟩ := readRequest_auto auto read
  have small := money _ given
  obtain ⟨tx₁, ctx₁, made, left⟩ := buildPayment_auto auto' built
  obtain ⟨⟨hash, change, first⟩, chain, pool⟩ := createAt_drawn made
  have settles : Settles P K coin indexOrder payment env.writes ctx ↔
      SettledBy P indexOrder payment tx₁ ctx ctx₁ := by
    constructor
    · exact fun all => all tx₁ ctx₁ made
    · intro this tx₂ ctx₂ made'
      rw [made] at made'
      cases made'
      exact this
  rw [settles]
  rcases left with ⟨enough, rfl⟩ | ⟨raised, made'⟩
  · obtain ⟨spends, source⟩ := source_of_drawn first
    refine ⟨_, spends, source, iff_of_true ?_ (.inl enough)⟩
    obtain ⟨demand, fits⟩ := toInt_required sized charges small first
    obtain ⟨rest, low, -, -, counted⟩ := first.rest charges.amounts
      (toInt_needed charges.amounts first.positive first.floor (by omega))
    rw [Int64.le_iff_toInt_le] at enough
    omega
  · obtain ⟨⟨hash', change', again⟩, -⟩ := createAt_drawn made'
    obtain ⟨spends, source⟩ := source_of_drawn again
    refine ⟨_, spends, fun u mem => ?_, ?_⟩
    · have listed := source u mem
      rw [pooled, pool, chain] at listed
      exact listed
    · rw [rebuilt_iff sized charges small first raised again, rebuilt_enough_iff first again,
        SettledBy, or_iff_right (Int64.not_le.mpr raised)]

end Rpc

/-! ### Two rewards and a fee -/

namespace SmallNetwork

/-- A network on which a byte costs one, and signing adds four bytes to an input. -/
def feeNetwork : Params :=
  { smallNetwork with
    minFeePerByte := 1
    noiseProofsPerInput := 0
    getSerializedSize := fun tx => 1 + tx.inputs.length + tx.outputs.length }

def feeParts : SizeParts := ⟨1, 1, fun _ => 1⟩

theorem sizedBy_feeNetwork : feeNetwork.SizedBy feeParts := by
  intro tx _
  simp [feeNetwork, feeParts]

theorem charges_feeNetwork : Rpc.Charges feeNetwork feeParts where
  amounts := ⟨by decide, by decide, by decide⟩
  minFeePerByte := by decide
  output := by decide
  dear := by decide
  fits data _ := by
    change (1000 : Int) + 0 + 1 * ((1 + 1000 * 5 + 2 * 1 + 1 : Nat) : Int) < 2 ^ 63
    decide

def rewardTo (hash : Bytes32) : Transaction :=
  { mint hash 10 with
    outputs := [.payTo 10 0x100000000]
    outputs_le := fits_reward }

def feeOne : Block := mine smallNetwork.genesisHash 1 1 [rewardTo 2] (by simp [Block.maxTransactions])

def feeTwo : Block :=
  mine (feeOne.getHash smallNetwork.sha256) 2 2 [rewardTo 3] (by simp [Block.maxTransactions])

def feeThree : Block :=
  mine (feeTwo.getHash smallNetwork.sha256) 3 3 [mint 4 10] fits_four

/-- The wallet has two rewards of ten. -/
def feeNode : RPCContext Int where
  wallet := payer
  chainState :=
    match ChainState.initializeState feeNetwork (.ofDisk .empty) with
    | .ok s => s.acceptAll feeNetwork [(20, feeOne), (20, feeTwo), (20, feeThree)]
    | .error _ => .ofDisk .empty
  mempool := .new rates 1000

/-- A call without a fee, and what is read from it. -/
def payFive : SendRequest := { payTen with amount := .ok 5 }

def five : Payment := ⟨payTen.toAddress, 5, none, []⟩

theorem read_payFive : Rpc.readRequest feeNetwork payFive feeNode.wallet = .ok five := rfl

/-- What the set holds for the inputs of a transaction. -/
def inputValues (tx : Transaction) : List (Option Int) :=
  tx.inputs.map fun input =>
    (feeNode.chainState.mUTXOSet.getCoin input.outpoint).map (·.value.toInt)

/-- The payment that is handed on to be signed takes both rewards. -/
theorem built_five : ∃ tx ctx',
    Rpc.buildPayment feeNetwork payingWallet 1 id five true true feeNode = (.ok tx, ctx') ∧
      inputValues tx = [some 10, some 10] ∧ tx.totalOut = 12 ∧
      Rpc.requiredFeeForSize feeNetwork (Rpc.signedSizeOf feeNetwork tx) = 13 := by
  have ran : (Rpc.buildPayment feeNetwork payingWallet 1 id five true true feeNode).1.toOption.map
      (fun tx => (inputValues tx, tx.totalOut,
        Rpc.requiredFeeForSize feeNetwork (Rpc.signedSizeOf feeNetwork tx))) =
      some ([some 10, some 10], 12, 13) := by
    decide +kernel
  rcases made : Rpc.buildPayment feeNetwork payingWallet 1 id five true true feeNode with
    ⟨_ | tx, ctx'⟩
  · rw [made] at ran
    cases ran
  · rw [made] at ran
    simp only [Except.toOption, Option.map_some, Option.some.injEq, Prod.mk.injEq] at ran
    exact ⟨tx, ctx', rfl, ran⟩

end SmallNetwork

open SmallNetwork in
/-- Twenty go in, twelve come out, and the size demands thirteen. -/
theorem automatic_fee_short : ∃ tx ctx',
    Rpc.readRequest feeNetwork payFive feeNode.wallet = .ok five ∧
    Rpc.buildPayment feeNetwork payingWallet 1 id five true true feeNode = (.ok tx, ctx') ∧
    inputValues tx = [some 10, some 10] ∧
    10 + 10 - tx.totalOut <
      (Rpc.requiredFeeForSize feeNetwork (Rpc.signedSizeOf feeNetwork tx)).toInt := by
  obtain ⟨tx, ctx', made, values, out, required⟩ := built_five
  refine ⟨tx, ctx', read_payFive, made, values, ?_⟩
  rw [out, required]
  decide

open SmallNetwork in
theorem automatic_fee_iff_two_rewards : ∃ tx ctx',
    Rpc.buildPayment feeNetwork payingWallet 1 id five true true feeNode = (.ok tx, ctx') ∧
    ∃ spent, tx.inputs.map (·.outpoint) = spent.map (·.1) ∧
      (∀ u ∈ spent, feeNode.chainState.mUTXOSet.getCoin u.1 = some u.2 ∨
        ∃ p ∈ Rpc.pooled id feeNode, WalletManager.PaidBy p u) ∧
      ((Rpc.requiredFeeForSize feeNetwork (Rpc.signedSizeOf feeNetwork tx)).toInt ≤
          (WalletManager.gathered spent).toInt - tx.totalOut ↔
        Rpc.Settles feeNetwork payingWallet 1 id five true feeNode) := by
  obtain ⟨tx, ctx', made, -⟩ := built_five
  refine ⟨tx, ctx', made, ?_⟩
  have money : ∀ amount, payFive.amount = .ok amount → amount ≤ feeNetwork.maxMoney := by
    rintro amount ⟨⟩
    decide
  exact @Rpc.automatic_fee_iff _ feeNetwork payingWallet 1 id feeParts sizedBy_feeNetwork
    charges_feeNetwork payFive rfl money ⟨true, true, true, 0⟩ feeNode ctx' five read_payFive tx made

end QmaskCore
