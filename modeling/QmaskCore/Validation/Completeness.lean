import QmaskCore.SmallNetwork
import QmaskCore.Validation.Rules

/-!
A validated block can be applied.

Validation reads one fixed store; application reads a store that changes with
every transaction. `paysAll_of_rules` walks the payments and keeps that every
coin still to be spent is there with the value validation saw and that every
leaf still to be claimed is free. It needs that no output is stored over a coin
of another value that the block spends. `validated_block_applies` is the
statement for the cached set.
-/

namespace QmaskCore

/-- Totals depend on the values alone. -/
theorem inputTotal_congr {P : Params} : ∀ {coins coins' : List Coin} {valueIn : Int64},
    coins.map (·.value) = coins'.map (·.value) →
    inputTotal P valueIn coins = inputTotal P valueIn coins' := by
  intro coins
  induction coins with
  | nil =>
      intro coins' valueIn same
      rw [List.map_eq_nil_iff.mp same.symm]
  | cons coin coins ih =>
      intro coins' valueIn same
      cases coins' with
      | nil => cases same
      | cons coin' coins' =>
          obtain ⟨head, tail⟩ := List.cons.inj same
          dsimp only at head
          simp only [inputTotal, head]
          split
          · rfl
          · split
            · rfl
            · exact ih tail

/-- The coins found in two stores have the same values when each has. -/
theorem CoinsView.coinsOf_values {view view' : CoinsView} : ∀ {inputs : List TxInput}
    {coins : List Coin}, view.coinsOf inputs = some coins →
    (∀ input ∈ inputs, ∀ c, view.getCoin input.outpoint = some c →
      ∃ c', view'.getCoin input.outpoint = some c' ∧ c'.value = c.value) →
    ∃ coins', view'.coinsOf inputs = some coins' ∧
      coins'.map (·.value) = coins.map (·.value) := by
  intro inputs
  induction inputs with
  | nil =>
      intro coins found _
      cases found
      exact ⟨[], rfl, rfl⟩
  | cons input inputs ih =>
      intro coins found same
      rw [CoinsView.coinsOf] at found
      cases head : view.getCoin input.outpoint with
      | none => simp [head] at found
      | some coin =>
          simp only [head, Option.map_eq_some_iff] at found
          obtain ⟨rest, tail, rfl⟩ := found
          obtain ⟨coin', head', value⟩ := same input List.mem_cons_self coin head
          obtain ⟨rest', tail', values⟩ :=
            ih tail fun i mem => same i (List.mem_cons_of_mem _ mem)
          exact ⟨coin' :: rest', by simp [CoinsView.coinsOf, head', tail'], by simp [value, values]⟩

/-- Coins in range with a sum in range are totalled, whatever the order. -/
theorem Params.MoneyRangeComplete.inputTotal {P : Params} (money : P.MoneyRangeComplete) :
    ∀ {coins : List Coin} {valueIn : Int64}, 0 ≤ valueIn →
    (∀ coin ∈ coins, 0 ≤ coin.value ∧ coin.value ≤ P.maxMoney) →
    valueIn.toInt + (coins.map (·.value.toInt)).sum ≤ P.maxMoney.toInt →
    ∃ total, inputTotal P valueIn coins = some total ∧
      total.toInt = valueIn.toInt + (coins.map (·.value.toInt)).sum := by
  have inRange {v : Int64} (low : 0 ≤ v) (high : v.toInt ≤ P.maxMoney.toInt) :
      P.checkMoneyRange v.toUInt64 = true := by
    refine money _ ?_
    rwa [toNat_toUInt64 low]
  intro coins
  induction coins with
  | nil => exact fun _ _ _ => ⟨_, rfl, by simp⟩
  | cons coin coins ih =>
      intro valueIn low each fits
      obtain ⟨nonneg, small⟩ := each coin List.mem_cons_self
      have rest : 0 ≤ (coins.map (·.value.toInt)).sum := by
        apply List.sum_nonneg
        intro v mem
        obtain ⟨c, memC, rfl⟩ := List.mem_map.mp mem
        exact Int64.le_iff_toInt_le.mp (each c (List.mem_cons_of_mem _ memC)).1
      rw [List.map_cons, List.sum_cons] at fits ⊢
      have limit := P.maxMoney.toInt_lt
      have sum : (valueIn + coin.value).toInt = valueIn.toInt + coin.value.toInt := by
        rw [Int64.toInt_add]
        rw [Int64.le_iff_toInt_le, Int64.toInt_zero] at low nonneg
        exact bmod_fits (by omega) (by omega)
      have lowNext : 0 ≤ valueIn + coin.value := by
        rw [Int64.le_iff_toInt_le, Int64.toInt_zero] at low nonneg ⊢
        omega
      have grows : ¬ valueIn + coin.value < valueIn := by
        rw [Int64.le_iff_toInt_le, Int64.toInt_zero] at nonneg
        rw [Int64.lt_iff_toInt_lt, sum]
        omega
      obtain ⟨total, totalled, value⟩ := ih lowNext
        (fun c mem => each c (List.mem_cons_of_mem _ mem)) (by rw [sum]; omega)
      refine ⟨total, ?_, by rw [value, sum]; ring⟩
      have here := inRange nonneg (Int64.le_iff_toInt_le.mp small)
      have next := inRange lowNext (by rw [sum]; omega)
      rw [QmaskCore.inputTotal, if_neg (by simp [here, Int64.not_lt.mpr nonneg])]
      dsimp only
      rw [if_neg (by rw [next]; simp [grows]), totalled]

/-- Outputs that stay within a total that fits are covered by it. -/
theorem Params.ValueOutExact.covered {P : Params} (exact : P.ValueOutExact) {tx : Transaction}
    {total : Int64} (nonneg : ∀ out ∈ tx.outputs, 0 ≤ out.value)
    (covers : tx.totalOut ≤ total.toInt) :
    ¬ (P.getValueOut tx < 0 ∨ total < P.getValueOut tx) := by
  have small := total.toInt_lt
  have value := exact.exact tx nonneg (by omega)
  have positive := Transaction.totalOut_nonneg nonneg
  rw [Int64.lt_iff_toInt_lt, Int64.lt_iff_toInt_lt, value, Int64.toInt_zero]
  omega

/-- A payment that validation passed can be applied to a store where its coins
have the values seen then and its leaves are free. -/
theorem PaymentRules.payable {P : Params} (exact : P.ValueOutExact)
    (money : P.MoneyRangeComplete) {view : CoinsView}
    {tx : Transaction} (rules : PaymentRules P view tx) {V : CoinStore}
    (coins : ∀ o ∈ tx.inputs.map (·.outpoint), ∀ c, view.getCoin o = some c →
      ∃ c', V.getCoin o = some c' ∧ c'.value = c.value)
    (distinct : (leavesOf tx.inputs).Nodup) (free : ∀ key ∈ leavesOf tx.inputs, key ∉ V.leaves) :
    ∃ spent, Payable P V tx spent := by
  obtain ⟨seen, found, inRange, small, covers⟩ := rules.covers
  obtain ⟨total, sum, value⟩ := money.inputTotal Int64.le_rfl inRange
    (by rwa [Int64.toInt_zero, zero_add])
  rw [Int64.toInt_zero, zero_add] at value
  have known : ∀ input ∈ tx.inputs, ∀ c, view.getCoin input.outpoint = some c →
      ∃ c', V.view.getCoin input.outpoint = some c' ∧ c'.value = c.value :=
    fun input mem => coins _ (List.mem_map_of_mem mem)
  obtain ⟨spent, found', values⟩ := CoinsView.coinsOf_values found known
  refine ⟨spent, found', ⟨total, ?_, exact.covered rules.nonneg (value ▸ covers)⟩, rules.parse, ?_⟩
  · rw [inputTotal_congr values, sum]
  · refine ⟨by simpa using distinct, fun key mem => ?_⟩
    simpa [CoinStore.isNoiseLeafSpent] using free key mem

/-- Payments that validation passed can be applied one after the other. -/
theorem paysAll_of_rules {P : Params} (exact : P.ValueOutExact)
    (money : P.MoneyRangeComplete) {view : CoinsView} (height : UInt32) : ∀ {txs : List Transaction} {V : CoinStore},
    (∀ tx ∈ txs, tx.isCoinbase = false) → (∀ tx ∈ txs, PaymentRules P view tx) →
    (txs.flatMap (·.spends)).Nodup → (txs.flatMap (·.reveals)).Nodup →
    (∀ tx ∈ txs, ∀ o ∈ txs.flatMap (·.spends), ∀ c c', view.getCoin o = some c →
      tx.creates height o = some c' → c'.value = c.value) →
    (∀ o ∈ txs.flatMap (·.spends), ∀ c, view.getCoin o = some c →
      ∃ c', V.getCoin o = some c' ∧ c'.value = c.value) →
    (∀ key ∈ txs.flatMap (·.reveals), key ∉ V.leaves) →
    ∃ done, txs = done.map (·.1) ∧ PaysAll P height V done := by
  intro txs
  induction txs with
  | nil => exact fun _ _ _ _ _ _ _ => ⟨[], rfl, trivial⟩
  | cons tx txs ih =>
      intro V payments rules spends reveals overwritten coins free
      have payment := payments tx List.mem_cons_self
      have later {α : Type} {f : Transaction → List α} {a : α} (mem : a ∈ txs.flatMap f) :
          a ∈ (tx :: txs).flatMap f := by
        rw [List.flatMap_cons]
        exact List.mem_append_right _ mem
      obtain ⟨_, spendsRest, apart⟩ := List.nodup_append.mp (List.flatMap_cons ▸ spends)
      obtain ⟨revealsHere, revealsRest, leavesApart⟩ :=
        List.nodup_append.mp (List.flatMap_cons ▸ reveals)
      obtain ⟨spent, payable⟩ := (rules tx List.mem_cons_self).payable exact money (V := V)
        (fun o mem => coins o (by
          rw [List.flatMap_cons, tx.spends_payment payment]
          exact List.mem_append_left _ mem))
        (by rwa [tx.reveals_payment payment] at revealsHere)
        (fun key mem => free key (by
          rw [List.flatMap_cons, tx.reveals_payment payment]
          exact List.mem_append_left _ mem))
      obtain ⟨done, rfl, pays⟩ := ih (V := V.after height tx)
        (fun t mem => payments t (List.mem_cons_of_mem _ mem))
        (fun t mem => rules t (List.mem_cons_of_mem _ mem)) spendsRest revealsRest
        (fun t mem o memO => overwritten t (List.mem_cons_of_mem _ mem) o (later memO))
        (by
          intro o mem c seen
          rw [CoinStore.getCoin_after]
          cases new : tx.creates height o with
          | some c' =>
              exact ⟨c', rfl, overwritten tx List.mem_cons_self o (later mem) c c' seen new⟩
          | none =>
              rw [Option.none_or, if_neg fun here => apart o here o mem rfl]
              exact coins o (later mem) c seen)
        (by
          intro key mem
          rw [CoinStore.leaves_after, Finset.mem_union, List.mem_toFinset]
          rintro (here | before)
          · exact leavesApart key here key mem rfl
          · exact free key (later mem) before)
      exact ⟨(tx, spent) :: done, rfl, payable, pays⟩

/-- The leaves a validated payment reveals are those derived from it. -/
theorem PaymentRules.mem_leavesOf {P : Params} {view : CoinsView} {tx : Transaction}
    (rules : PaymentRules P view tx) {key : NoiseLeafKey} :
    key ∈ leavesOf tx.inputs ↔ ∃ (i : Nat) (lt : i < tx.inputs.length),
      key.kps = tx.inputs[i].kps ∧
      key.leafIndex ∈ deriveLeafIndices P tx.hash tx.inputs[i].kps (UInt32.ofNat i)
        P.noiseProofsPerInput P.noiseLeafCount := by
  rw [leavesOf, List.flatMap_def, rules.wanted, TxValidation.wantedFrom, List.mem_flatten]
  simp only [List.mem_map, List.mem_zipIdx_iff_getElem?, Prod.exists]
  constructor
  · rintro ⟨_, ⟨input, i, found, rfl⟩, mem⟩
    obtain ⟨lt, rfl⟩ := List.getElem?_eq_some_iff.mp found
    obtain ⟨index, memIndex, rfl⟩ := List.mem_map.mp mem
    exact ⟨i, lt, rfl, memIndex⟩
  · rintro ⟨i, lt, kps, mem⟩
    refine ⟨_, ⟨tx.inputs[i], i, List.getElem?_eq_getElem lt, rfl⟩, List.mem_map.mpr ⟨_, mem, ?_⟩⟩
    rw [← kps]

/-- A block that keeps the rules is applied to the store they were checked on,
unless it stores an output over a coin of another value that it also spends. -/
theorem BlockRules.appliesWith {P : Params} (exact : P.ValueOutExact) (money : P.MoneyRangeComplete)
    {V : CoinStore} {height : UInt32} {block : Block} (rules : BlockRules P V.view height block)
    (kept : ∀ tx ∈ block.transactions, ∀ o ∈ block.payments.flatMap (·.spends), ∀ c c',
      V.getCoin o = some c → tx.creates height o = some c' → c'.value = c.value) :
    ∃ done, AppliesWith P height V block done := by
  obtain ⟨coinbase, isCoinbase, -, -⟩ := rules.coinbase
  have whole : block.transactions = coinbase :: block.payments := by
    rw [block.transactions_eq, isCoinbase]
    rfl
  have first : coinbase.isCoinbase = true := block.isCoinbase_of_mem isCoinbase
  have reveals : coinbase.reveals = [] := by simp [Transaction.reveals, first]
  obtain ⟨done, all, pays⟩ := paysAll_of_rules exact money height
    (V := V.afterAll height block.coinbase?.toList) rules.one rules.payments
    rules.spends (by simpa using rules.reveals.1)
    (fun tx mem => kept tx (by rw [whole]; exact List.mem_cons_of_mem _ mem))
    (by
      intro o mem c seen
      rw [isCoinbase]
      change ∃ c', (V.after height coinbase).getCoin o = some c' ∧ _
      rw [CoinStore.getCoin_after]
      cases new : coinbase.creates height o with
      | some c' => exact ⟨c', rfl, kept coinbase (by simp [whole]) o mem c c' seen new⟩
      | none =>
          have found : V.getCoin o = some c := seen
          exact ⟨c, by simpa [Transaction.spends, first] using found, rfl⟩)
    (by
      intro key mem
      rw [CoinStore.leaves_afterAll, isCoinbase]
      have unspent : V.isNoiseLeafSpent key = false := rules.reveals.2 key mem
      simpa [reveals, CoinStore.isNoiseLeafSpent] using unspent)
  exact ⟨done, all, rules.one, pays⟩

/-- **Completeness of validation.** A block that `validateBlock` passes on a set
of coins is applied to that set, unless it stores an output over a coin of
another value that it also spends. The leaves it marks are those derived from
its payments. -/
theorem validated_block_applies {P : Params} (exact : P.ValueOutExact)
    (money : P.MoneyRangeComplete) {now : UInt64} {S : UTXOSet} {height : UInt32} {block : Block}
    (passed : BlockValidation.validateBlock P now S.view height block = .ok ())
    (kept : ∀ tx ∈ block.transactions, ∀ o ∈ block.payments.flatMap (·.spends), ∀ c c',
      S.getCoin o = some c → tx.creates height o = some c' → c'.value = c.value) :
    ∃ undo S', applyBlockTwoPhase P block height S = (some undo, S') ∧
      ∀ key, S'.isNoiseLeafSpent key = true ↔ S.isNoiseLeafSpent key = true ∨
        ∃ tx ∈ block.payments, ∃ (i : Nat) (lt : i < tx.inputs.length),
          key.kps = tx.inputs[i].kps ∧
          key.leafIndex ∈ deriveLeafIndices P tx.hash tx.inputs[i].kps (UInt32.ofNat i)
            P.noiseProofsPerInput P.noiseLeafCount := by
  have rules := BlockValidation.validateBlock_ok passed
  rw [← UTXOSet.view_toCoinStore] at rules
  obtain ⟨done, applies⟩ := rules.appliesWith exact money fun tx mem o memO c c' seen =>
    kept tx mem o memO c c' ((S.getCoin_toCoinStore o).symm.trans seen)
  obtain ⟨coinbase, isCoinbase, -, -⟩ := rules.coinbase
  have whole : block.transactions = coinbase :: block.payments := by
    rw [block.transactions_eq, isCoinbase]
    rfl
  have first : coinbase.isCoinbase = true := block.isCoinbase_of_mem isCoinbase
  have reveals : coinbase.reveals = [] := by simp [Transaction.reveals, first]
  have same := applyBlockTwoPhase_hom UTXOSet.toCoinStore_hom P block height S
  rw [applies.apply] at same
  rcases ran : applyBlockTwoPhase P block height S with ⟨undo, S'⟩
  rw [ran] at same
  obtain ⟨rfl, after⟩ := Prod.mk.inj same
  refine ⟨_, S', rfl, fun key => ?_⟩
  rw [← UTXOSet.isNoiseLeafSpent_toCoinStore, ← UTXOSet.isNoiseLeafSpent_toCoinStore, ← after]
  simp only [CoinStore.isNoiseLeafSpent, decide_eq_true_eq, CoinStore.leaves_afterAll, Finset.mem_union,
    List.mem_toFinset, whole, List.flatMap_cons, reveals, List.nil_append, List.mem_flatMap]
  rw [or_comm]
  refine or_congr_right (exists_congr fun tx => and_congr_right fun mem => ?_)
  rw [tx.reveals_payment (rules.one tx mem)]
  exact (rules.payments tx mem).mem_leavesOf

/-- A store with one coin of value 100. -/
def richStore : UTXOSet :=
  .ofDisk { UTXODB.empty with coins := .insert ⟨2, 0⟩ (.ofOutput 100 1 0 true) ∅ }

/-- A block that mints under `hash` and spends the coin of `richStore`. -/
def spendingBlock (hash : Bytes32) : Block :=
  SmallNetwork.mine 0 1 0 [SmallNetwork.mint hash 10, SmallNetwork.pay 4 2 8 100] (by simp [Block.maxTransactions])

theorem spendingBlock_applies :
    ∃ undo S', applyBlockTwoPhase smallNetwork (spendingBlock 3) 1 richStore = (some undo, S') ∧
      ∀ key, S'.isNoiseLeafSpent key = true ↔ richStore.isNoiseLeafSpent key = true ∨
        ∃ tx ∈ (spendingBlock 3).payments, ∃ (i : Nat) (lt : i < tx.inputs.length),
          key.kps = tx.inputs[i].kps ∧
          key.leafIndex ∈ deriveLeafIndices smallNetwork tx.hash tx.inputs[i].kps (UInt32.ofNat i)
            smallNetwork.noiseProofsPerInput smallNetwork.noiseLeafCount := by
  have passed : BlockValidation.validateBlock smallNetwork 20 richStore.view 1 (spendingBlock 3) =
      .ok () := by
    decide +kernel
  have apart : ∀ tx ∈ (spendingBlock 3).transactions,
      ∀ o ∈ (spendingBlock 3).payments.flatMap (·.spends), tx.creates 1 o = none := by
    decide +kernel
  refine validated_block_applies valueOutExact_smallNetwork moneyRangeComplete_smallNetwork passed
    fun tx mem o memO c c' _ new => ?_
  rw [apart tx mem o memO] at new
  cases new

/-- Validation does not see that the coinbase takes the place of the coin a
payment spends. -/
theorem validated_block_may_be_refused :
    ¬ ∀ P : Params, P.ValueOutExact → P.MoneyRangeComplete → ∀ now (S : UTXOSet) height block,
      BlockValidation.validateBlock P now S.view height block = .ok () →
      (applyBlockTwoPhase P block height S).1.isSome = true := by
  intro complete
  have applied := complete smallNetwork valueOutExact_smallNetwork moneyRangeComplete_smallNetwork
    20 richStore 1 (spendingBlock 2) (by decide +kernel)
  revert applied
  decide +kernel

end QmaskCore
