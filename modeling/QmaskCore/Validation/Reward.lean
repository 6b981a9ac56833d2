import QmaskCore.Validation.Completeness

/-!
What a coinbase may claim.

The check of a block declares the total of its fees, and bounds the coinbase by
the subsidy and that total, but never adds a fee to it. `checkReward_iff` is the
bound it enforces. It is the one announced, subsidy and fees, for every block
but those whose coinbase claims a part of the fees.
-/

namespace QmaskCore

/-- What the coins a transaction spends hold beyond what it pays out. -/
def CoinsView.fee (view : CoinsView) (tx : Transaction) : Int :=
  (((view.coinsOf tx.inputs).getD []).map (·.value.toInt)).sum - tx.totalOut

def CoinsView.fees (view : CoinsView) (txs : List Transaction) : Int := (txs.map view.fee).sum

theorem PaymentRules.fee_nonneg {P : Params} {view : CoinsView} {tx : Transaction}
    (rules : PaymentRules P view tx) : 0 ≤ view.fee tx := by
  obtain ⟨coins, found, -, -, covers⟩ := rules.covers
  rw [CoinsView.fee, found, Option.getD_some]
  omega

theorem CoinsView.fees_nonneg {P : Params} {view : CoinsView} {txs : List Transaction}
    (rules : ∀ tx ∈ txs, PaymentRules P view tx) : 0 ≤ view.fees txs := by
  refine List.sum_nonneg fun fee mem => ?_
  obtain ⟨tx, memTx, rfl⟩ := List.mem_map.mp mem
  exact (rules tx memTx).fee_nonneg

namespace BlockValidation

/-- The bound on the coinbase is the subsidy. -/
theorem checkReward_iff {P : Params} {height : UInt32} {tx : Transaction} :
    checkReward P height tx = .ok () ↔ 0 ≤ (P.getValueOut tx).toInt ∧
      (P.getValueOut tx).toInt ≤ (P.getBlockSubsidy height.toUInt64).toNat := by
  simp only [checkReward, Checks.bind_eq_ok, Checks.rejectIf_eq_ok, Checks.exists_unit_iff,
    UInt64.add_zero]
  constructor
  · rintro ⟨-, nonneg, limit⟩
    have low := Int64.not_lt.mp nonneg
    have low' := Int64.le_iff_toInt_le.mp low
    rw [Int64.toInt_zero] at low'
    have limit := UInt64.le_iff_toNat_le.mp (UInt64.not_lt.mp limit)
    have value := toNat_toUInt64 low
    exact ⟨low', by omega⟩
  · rintro ⟨low', limit⟩
    have low : 0 ≤ P.getValueOut tx := Int64.le_iff_toInt_le.mpr (by rwa [Int64.toInt_zero])
    have value := toNat_toUInt64 low
    refine ⟨UInt64.lt_irrefl _, Int64.not_lt.mpr low, UInt64.not_lt.mpr ?_⟩
    exact UInt64.le_iff_toNat_le.mpr (by omega)

/-- **When the coinbase is bounded by subsidy and fees.** For a block whose
payments pass, the check accepts exactly a coinbase of at most subsidy and fees
if and only if the coinbase does not claim a part of the fees. -/
theorem claims_bounded_iff {P : Params} {view : CoinsView} {height : UInt32} {block : Block}
    {coinbase : Transaction} {payments : List Transaction}
    (whole : block.transactions = coinbase :: payments)
    (plain : ∀ tx ∈ payments, tx.isCoinbase = false)
    (passed : checkPaymentsWithUTXOFrom P view height 1 [] [] payments = .ok ()) :
    let subsidy : Int := (P.getBlockSubsidy height.toUInt64).toNat
    let claimed := (P.getValueOut coinbase).toInt
    (checkBlockTransactionsWithUTXO P view height block = .ok () ↔
        0 ≤ claimed ∧ claimed ≤ subsidy + view.fees payments) ↔
      ¬ (subsidy < claimed ∧ claimed ≤ subsidy + view.fees payments) := by
  intro subsidy claimed
  obtain ⟨rules, -⟩ := checkPaymentsWithUTXOFrom_ok plain List.nodup_nil List.nodup_nil passed
  have fees := CoinsView.fees_nonneg rules
  have positive : 0 ≤ subsidy := Int.natCast_nonneg _
  have bound : checkBlockTransactionsWithUTXO P view height block = .ok () ↔
      0 ≤ claimed ∧ claimed ≤ subsidy := by
    unfold checkBlockTransactionsWithUTXO
    rw [whole]
    dsimp only
    rw [passed]
    exact checkReward_iff
  rw [bound]
  omega

/-- A payment of the coin of `richStore` that leaves ten as its fee, and a
coinbase that claims the subsidy and that fee. -/
def claimingBlock : Block :=
  SmallNetwork.mine 0 1 0 [SmallNetwork.mint 3 20, SmallNetwork.pay 4 2 8 90]
    (by simp [Block.maxTransactions])

theorem claims_bounded_iff_claimingBlock :
    let subsidy : Int := (smallNetwork.getBlockSubsidy (1 : UInt32).toUInt64).toNat
    let claimed := (smallNetwork.getValueOut (SmallNetwork.mint 3 20)).toInt
    (checkBlockTransactionsWithUTXO smallNetwork richStore.view 1 claimingBlock = .ok () ↔
        0 ≤ claimed ∧ claimed ≤ subsidy + richStore.view.fees [SmallNetwork.pay 4 2 8 90]) ↔
      ¬ (subsidy < claimed ∧
        claimed ≤ subsidy + richStore.view.fees [SmallNetwork.pay 4 2 8 90]) :=
  claims_bounded_iff rfl (by decide) (by decide +kernel)

/-- A miner who claims the fee of a payment is refused. -/
theorem claimed_fee_refused :
    checkPaymentsWithUTXOFrom smallNetwork richStore.view 1 1 [] [] [SmallNetwork.pay 4 2 8 90] =
        .ok () ∧
      0 ≤ (smallNetwork.getValueOut (SmallNetwork.mint 3 20)).toInt ∧
      (smallNetwork.getValueOut (SmallNetwork.mint 3 20)).toInt ≤
        (smallNetwork.getBlockSubsidy (1 : UInt32).toUInt64).toNat +
          richStore.view.fees [SmallNetwork.pay 4 2 8 90] ∧
      checkBlockTransactionsWithUTXO smallNetwork richStore.view 1 claimingBlock ≠ .ok () := by
  decide +kernel

end BlockValidation

end QmaskCore
