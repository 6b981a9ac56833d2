import QmaskCore.Validation.BlockValidation
import QmaskCore.Storage.StoreBlocks

/-!
What a passed validation says.

Each lemma reads off what holds once a check has passed: sums are exact, every
input names a coin in range, and the proofs of an input are exactly the leaves
the transaction calls for (`verifyInputsFrom_ok`). `PaymentRules` gathers what a
whole block's check says about one of its payments.
-/

namespace QmaskCore

open Checks

/-! ### Bounded sums -/

theorem bmod_fits {n : Int} (low : -2 ^ 63 ≤ n) (high : n < 2 ^ 63) : n.bmod (2 ^ 64) = n :=
  Int.bmod_eq_of_le (by simpa using low) (by simpa using high)

/-- A number that is not negative keeps its value as an unsigned one. -/
theorem toNat_toUInt64 {v : Int64} (low : 0 ≤ v) : (v.toUInt64.toNat : Int) = v.toInt := by
  rw [Int64.le_iff_toInt_le, Int64.toInt_zero] at low
  have signed : v.toInt = v.toBitVec.toInt := rfl
  have unsigned : v.toUInt64.toNat = v.toBitVec.toNat := rfl
  have cases := BitVec.toInt_eq_toNat_cond v.toBitVec
  have below := v.toBitVec.isLt
  rw [signed] at low ⊢
  rw [unsigned]
  split at cases <;> omega

namespace TxValidation

/-- A reported sum is the sum. -/
theorem safeAdd_eq_some {a b c : Int64} (sum : safeAdd a b = some c) :
    c.toInt = a.toInt + b.toInt := by
  have lowA := a.le_toInt
  have highA := a.toInt_lt
  have lowB := b.le_toInt
  have highB := b.toInt_lt
  unfold safeAdd at sum
  simp only [Int64.lt_iff_toInt_lt, Int64.toInt_sub, Int64.toInt_maxValue, Int64.toInt_minValue,
    Int64.toInt_zero] at sum
  split at sum
  · cases sum
  · split at sum
    · cases sum
    · rename_i hit under
      cases sum
      rw [Int64.toInt_add]
      apply bmod_fits
      · by_contra low
        apply under
        have room : (-2 ^ 63 - b.toInt).bmod (2 ^ 64) = -2 ^ 63 - b.toInt :=
          bmod_fits (by omega) (by omega)
        rw [room]
        omega
      · by_contra high
        apply hit
        have room : (2 ^ 63 - 1 - b.toInt).bmod (2 ^ 64) = 2 ^ 63 - 1 - b.toInt :=
          bmod_fits (by omega) (by omega)
        rw [room]
        omega

theorem totalFrom_ok {error : TxValidationState} : ∀ {outs : List TxOutput} {start total : Int64},
    totalFrom error start outs = .ok total →
    total.toInt = start.toInt + (outs.map (·.value.toInt)).sum := by
  intro outs
  induction outs with
  | nil =>
      intro start total passed
      cases passed
      simp
  | cons out outs ih =>
      intro start total passed
      rw [totalFrom] at passed
      cases sum : safeAdd start out.value with
      | none => simp [sum] at passed
      | some next =>
          rw [sum] at passed
          rw [ih passed, safeAdd_eq_some sum, List.map_cons, List.sum_cons]
          ring

theorem checkMoneyRange_ok {P : Params} {value : Int64} (passed : checkMoneyRange P value = .ok ()) :
    0 ≤ value ∧ value ≤ P.maxMoney := by
  simp only [checkMoneyRange, bind_eq_ok, rejectIf_eq_ok, exists_unit_iff] at passed
  obtain ⟨low, high⟩ := passed
  exact ⟨Int64.not_lt.mp low, Int64.not_lt.mp high⟩

/-- No output of a checked transaction is negative. -/
theorem checkOutputsFrom_ok {P : Params} {tx : Transaction} : ∀ {outs : List TxOutput} {i : Nat}
    {total : Int64}, checkOutputsFrom P tx i total outs = .ok () → ∀ out ∈ outs, 0 ≤ out.value := by
  intro outs
  induction outs with
  | nil => simp
  | cons out outs ih =>
      intro i total passed out' mem
      simp only [checkOutputsFrom, bind_eq_ok] at passed
      obtain ⟨_, range, _, -, _, -, rest⟩ := passed
      rcases List.mem_cons.mp mem with rfl | mem
      · exact (checkMoneyRange_ok range).1
      · split at rest
        · cases rest
        · simp only [bind_eq_ok] at rest
          obtain ⟨_, -, rest⟩ := rest
          exact ih rest out' mem

/-- What `checkTransaction` says about a payment. -/
theorem checkTransaction_ok {P : Params} {tx : Transaction}
    (passed : checkTransaction P tx = .ok ()) (payment : tx.isCoinbase = false) :
    tx.inputs ≠ [] ∧ (tx.inputs.map (·.outpoint)).Nodup ∧
      (∀ input ∈ tx.inputs, input.prevTxHash ≠ 0) ∧ ∀ out ∈ tx.outputs, 0 ≤ out.value := by
  simp only [checkTransaction, checkTxInputs, checkTxOutputs, payment, bind_eq_ok, rejectIf_eq_ok,
    Bool.false_eq_true, if_false] at passed
  obtain ⟨_, -, _, ⟨_, some, _, distinct, prev⟩, _, ⟨_, -, outs⟩, -⟩ := passed
  refine ⟨some, not_not.mp distinct, ?_, checkOutputsFrom_ok outs⟩
  intro input mem null
  exact prev ⟨input, mem, null⟩

/-- Every input names a coin in range, and the total is their sum. -/
theorem checkInputsFrom_ok {P : Params} {view : CoinsView} {height : UInt32} :
    ∀ {inputs : List TxInput} {start total : Int64}, 0 ≤ start →
    checkInputsFrom P view height start inputs = .ok total →
    ∃ coins, view.coinsOf inputs = some coins ∧
      (∀ coin ∈ coins, 0 ≤ coin.value ∧ coin.value ≤ P.maxMoney) ∧
      (inputs ≠ [] → total ≤ P.maxMoney) ∧
      total.toInt = start.toInt + (coins.map (·.value.toInt)).sum := by
  intro inputs
  induction inputs with
  | nil =>
      intro start total _ passed
      cases passed
      exact ⟨[], rfl, by simp, by simp, by simp⟩
  | cons input inputs ih =>
      intro start total low passed
      rw [checkInputsFrom] at passed
      cases found : view.getCoin input.outpoint with
      | none => simp [found] at passed
      | some coin =>
          simp only [found, bind_eq_ok, rejectIf_eq_ok] at passed
          obtain ⟨_, -, _, -, _, range, rest⟩ := passed
          have inRange := checkMoneyRange_ok range
          cases sum : safeAdd start coin.value with
          | none => simp [sum] at rest
          | some next =>
              simp only [sum, bind_eq_ok, rejectIf_eq_ok] at rest
              obtain ⟨_, high, rest⟩ := rest
              have exact := safeAdd_eq_some sum
              have lowNext : 0 ≤ next := by
                have nonneg := inRange.1
                rw [Int64.le_iff_toInt_le, Int64.toInt_zero] at low nonneg ⊢
                omega
              obtain ⟨coins, all, each, small, totalled⟩ := ih lowNext rest
              refine ⟨coin :: coins, by simp [CoinsView.coinsOf, found, all], ?_, fun _ => ?_, ?_⟩
              · simpa using ⟨inRange, each⟩
              · by_cases last : inputs = []
                · rw [last] at rest
                  cases rest
                  exact Int64.not_lt.mp high
                · exact small last
              · rw [totalled, exact, List.map_cons, List.sum_cons]
                ring

/-! ### Noise proofs -/

/-- The leaf keys under one KPS. -/
abbrev leafKeys (kps : Bytes32) (indices : List UInt32) : List NoiseLeafKey :=
  indices.map fun index => ⟨kps, index⟩

theorem claimable_cons {isSpent : NoiseLeafKey → Bool} {key : NoiseLeafKey}
    {seen keys : List NoiseLeafKey} (distinct : seen.Nodup) :
    Claimable isSpent seen (key :: keys) ↔
      key ∉ seen ∧ isSpent key = false ∧ Claimable isSpent (seen ++ [key]) keys := by
  rw [← List.singleton_append, claimable_append]
  simp only [Claimable, List.nodup_append, distinct, List.mem_singleton, forall_eq]
  grind

/-- The proofs read are those of the leaves called for, each free before. -/
theorem verifyProofsFrom_ok {P : Params} {view : CoinsView} {tx : Transaction} {input : TxInput}
    {i : Nat} : ∀ {wanted : List UInt32} {rest rest' : List UInt8}
    {scope scope' : List NoiseLeafKey}, scope.Nodup →
    verifyProofsFrom P view tx input i wanted rest scope = .ok (rest', scope') →
    (NoiseProof.scan rest).1.map (·.leafIndex) =
        wanted ++ (NoiseProof.scan rest').1.map (·.leafIndex) ∧
      (NoiseProof.scan rest).2 = (NoiseProof.scan rest').2 ∧
      scope' = scope ++ leafKeys input.kps wanted ∧
      Claimable view.isNoiseLeafSpent scope (leafKeys input.kps wanted) := by
  intro wanted
  induction wanted with
  | nil =>
      intro rest rest' scope scope' distinct passed
      cases passed
      simp [leafKeys, Claimable, distinct]
  | cons index wanted ih =>
      intro rest rest' scope scope' distinct passed
      rw [verifyProofsFrom] at passed
      cases read : NoiseProof.deserialize rest with
      | none => simp [read] at passed
      | some out =>
          obtain ⟨proof, behind⟩ := out
          simp only [read, bind_eq_ok, rejectIf_eq_ok, exists_unit_iff] at passed
          obtain ⟨isWanted, -, fresh, unspent, passed⟩ := passed
          obtain rfl : proof.leafIndex = index := not_not.mp isWanted
          have grown : (scope ++ [(⟨input.kps, proof.leafIndex⟩ : NoiseLeafKey)]).Nodup := by
            refine List.nodup_append.mpr ⟨distinct, by simp, ?_⟩
            intro a mem b same
            rw [List.mem_singleton.mp same]
            rintro rfl
            exact fresh mem
          obtain ⟨indices, parsed, rfl, claimable⟩ := ih grown passed
          rw [NoiseProof.scan_of_read read]
          refine ⟨?_, parsed, by simp [leafKeys], ?_⟩
          · rw [List.map_cons, indices, List.cons_append]
          · exact (claimable_cons distinct).mpr ⟨fresh, Bool.eq_false_iff.mpr unspent, claimable⟩

/-- An input that passes reveals exactly the leaves called for. -/
theorem verifyInput_ok {P : Params} {view : CoinsView} {tx : Transaction} {input : TxInput}
    {i : Nat} {scope scope' : List NoiseLeafKey} (distinct : scope.Nodup)
    (passed : verifyInput P view tx input i scope = .ok scope') :
    input.noiseProof ≠ [] ∧ input.leaves = (leafKeys input.kps (wantedLeaves P tx input i), true) ∧
      scope' = scope ++ input.leaves.1 ∧
      Claimable view.isNoiseLeafSpent scope input.leaves.1 := by
  unfold verifyInput at passed
  split at passed
  · cases passed
  · simp only [bind_eq_ok, rejectIf_eq_ok, exists_unit_iff] at passed
    obtain ⟨-, some, -, ⟨rest, scope₁⟩, proofs, trailing, -, done⟩ := passed
    obtain ⟨indices, parsed, rfl, claimable⟩ := verifyProofsFrom_ok distinct proofs
    obtain rfl : rest = [] := not_not.mp trailing
    cases done
    have revealed : input.leaves = (leafKeys input.kps (wantedLeaves P tx input i), true) := by
      refine Prod.ext ?_ parsed
      have mapped : input.leaves.1 =
          leafKeys input.kps ((NoiseProof.scan input.noiseProof).1.map (·.leafIndex)) :=
        (List.map_map ..).symm
      rw [mapped, indices, NoiseProof.scan_nil, List.map_nil, List.append_nil]
    rw [revealed]
    exact ⟨some, rfl, rfl, claimable⟩

/-- The leaves the inputs from the `i`-th on are called to reveal. -/
def wantedFrom (P : Params) (tx : Transaction) (i : Nat) (inputs : List TxInput) :
    List (List NoiseLeafKey) :=
  (inputs.zipIdx i).map fun at' => leafKeys at'.1.kps (wantedLeaves P tx at'.1 at'.2)

theorem verifyInputsFrom_ok {P : Params} {view : CoinsView} {tx : Transaction} :
    ∀ {inputs : List TxInput} {i : Nat} {scope scope' : List NoiseLeafKey}, scope.Nodup →
    verifyInputsFrom P view tx i inputs scope = .ok scope' →
    ProofsParse inputs ∧ scope' = scope ++ leavesOf inputs ∧
      Claimable view.isNoiseLeafSpent scope (leavesOf inputs) ∧
      inputs.map (·.leaves.1) = wantedFrom P tx i inputs := by
  intro inputs
  induction inputs with
  | nil =>
      intro i scope scope' distinct passed
      cases passed
      simp [ProofsParse, leavesOf, Claimable, distinct, wantedFrom]
  | cons input inputs ih =>
      intro i scope scope' distinct passed
      simp only [verifyInputsFrom, bind_eq_ok] at passed
      obtain ⟨_, here, passed⟩ := passed
      obtain ⟨some, revealed, rfl, claimable⟩ := verifyInput_ok distinct here
      obtain ⟨parse, rfl, later, wanted⟩ := ih claimable.1 passed
      refine ⟨proofsParse_cons.mpr ⟨⟨some, by rw [revealed]⟩, parse⟩, by simp,
        claimable_append.mpr ⟨claimable, later⟩, ?_⟩
      rw [List.map_cons, wanted, revealed]
      rfl

end TxValidation

/-! ### Whole blocks -/

theorem Transaction.spends_payment {tx : Transaction} (payment : tx.isCoinbase = false) :
    tx.spends = tx.inputs.map (·.outpoint) := by
  simp [Transaction.spends, payment]

theorem Transaction.reveals_payment {tx : Transaction} (payment : tx.isCoinbase = false) :
    tx.reveals = leavesOf tx.inputs := by
  simp [Transaction.reveals, payment]

/-- What the check of a block says about one of its payments. -/
structure PaymentRules (P : Params) (view : CoinsView) (tx : Transaction) : Prop where
  spendsSome : tx.inputs ≠ []
  distinct : (tx.inputs.map (·.outpoint)).Nodup
  nonneg : ∀ out ∈ tx.outputs, 0 ≤ out.value
  covers : ∃ coins, view.coinsOf tx.inputs = some coins ∧
    (∀ coin ∈ coins, 0 ≤ coin.value ∧ coin.value ≤ P.maxMoney) ∧
    (coins.map (·.value.toInt)).sum ≤ P.maxMoney.toInt ∧
    tx.totalOut ≤ (coins.map (·.value.toInt)).sum
  parse : ProofsParse tx.inputs
  wanted : tx.inputs.map (·.leaves.1) = TxValidation.wantedFrom P tx 0 tx.inputs

/-- What a validated block is like. -/
structure BlockRules (P : Params) (view : CoinsView) (height : UInt32) (block : Block) : Prop where
  coinbase : ∃ tx, block.coinbase? = some tx ∧ 0 ≤ P.getValueOut tx ∧
    (P.getValueOut tx).toUInt64 ≤ P.getBlockSubsidy height.toUInt64
  one : block.OneCoinbase
  ids : (block.transactions.map (·.hash)).Nodup
  size : block.getSerializedSize P ≤ P.maxBlockSize.toNat
  payments : ∀ tx ∈ block.payments, PaymentRules P view tx
  spends : (block.payments.flatMap (·.spends)).Nodup
  reveals : Claimable view.isNoiseLeafSpent [] (block.payments.flatMap (·.reveals))

/-- With the only coinbase in front, none is out of place. -/
theorem BlockRules.shaped {P : Params} {view : CoinsView} {height : UInt32} {block : Block}
    (rules : BlockRules P view height block) : block.Shaped := by
  intro tx mem coinbase
  rw [rules.one tx mem] at coinbase
  cases coinbase

namespace BlockValidation

theorem checkPaymentsFrom_ok {P : Params} : ∀ {txs : List Transaction} {i : Nat},
    checkPaymentsFrom P i txs = .ok () → ∀ tx ∈ txs, tx.isCoinbase = false := by
  intro txs
  induction txs with
  | nil => simp
  | cons tx txs ih =>
      intro i passed tx' mem
      simp only [checkPaymentsFrom, bind_eq_ok, rejectIf_eq_ok, onError_eq_ok, exists_unit_iff] at passed
      obtain ⟨payment, -, rest⟩ := passed
      rcases List.mem_cons.mp mem with rfl | mem
      · exact Bool.eq_false_iff.mpr payment
      · exact ih rest tx' mem

theorem checkHashesFrom_ok : ∀ {txs : List Transaction} {i : Nat} {seen : List Bytes32},
    seen.Nodup → checkHashesFrom i seen txs = .ok () → (seen ++ txs.map (·.hash)).Nodup := by
  intro txs
  induction txs with
  | nil => exact fun distinct _ => by simpa
  | cons tx txs ih =>
      intro i seen distinct passed
      simp only [checkHashesFrom, bind_eq_ok, rejectIf_eq_ok, exists_unit_iff] at passed
      obtain ⟨fresh, rest⟩ := passed
      have grown : (seen ++ [tx.hash]).Nodup := by
        refine List.nodup_append.mpr ⟨distinct, by simp, ?_⟩
        intro a mem b same
        rw [List.mem_singleton.mp same]
        rintro rfl
        exact fresh mem
      simpa using ih grown rest

theorem checkBlock_ok {P : Params} {now : UInt64} {block : Block}
    (passed : checkBlock P now block = .ok ()) :
    (∃ tx, block.coinbase? = some tx) ∧ block.OneCoinbase ∧
      (block.transactions.map (·.hash)).Nodup ∧
      block.getSerializedSize P ≤ P.maxBlockSize.toNat := by
  simp only [checkBlock, bind_eq_ok, exists_unit_iff] at passed
  obtain ⟨-, size, -, txs, distinct⟩ := passed
  have sized : block.getSerializedSize P ≤ P.maxBlockSize.toNat := by
    simpa [checkBlockSize] using size
  have ids : (block.transactions.map (·.hash)).Nodup := by
    simpa using checkHashesFrom_ok List.nodup_nil distinct
  unfold checkBlockTransactions at txs
  split at txs
  · cases txs
  · rename_i first payments whole
    simp only [bind_eq_ok, rejectIf_eq_ok, exists_unit_iff] at txs
    obtain ⟨coinbase, rest⟩ := txs
    have isCoinbase : first.isCoinbase = true := by simpa using coinbase
    refine ⟨⟨first, by simp [Block.coinbase?, whole, isCoinbase]⟩, ?_, ids, sized⟩
    simpa [Block.OneCoinbase, Block.payments, whole, isCoinbase] using checkPaymentsFrom_ok rest

theorem checkPaymentsWithUTXOFrom_ok {P : Params} {view : CoinsView} {height : UInt32} :
    ∀ {txs : List Transaction} {i : Nat} {outpoints : List OutPoint} {leaves : List NoiseLeafKey},
    (∀ tx ∈ txs, tx.isCoinbase = false) → outpoints.Nodup → leaves.Nodup →
    checkPaymentsWithUTXOFrom P view height i outpoints leaves txs = .ok () →
    (∀ tx ∈ txs, PaymentRules P view tx) ∧
      (outpoints ++ txs.flatMap (·.spends)).Nodup ∧
      Claimable view.isNoiseLeafSpent leaves (txs.flatMap (·.reveals)) := by
  intro txs
  induction txs with
  | nil =>
      intro i outpoints leaves _ distinct claimed _
      simp [distinct, Claimable, claimed]
  | cons tx txs ih =>
      intro i outpoints leaves payments distinct claimed passed
      have payment := payments tx List.mem_cons_self
      simp only [checkPaymentsWithUTXOFrom, bind_eq_ok, rejectIf_eq_ok, onError_eq_ok,
        exists_unit_iff] at passed
      obtain ⟨apart, coinRules, grown, proofs, _, -, -, rest⟩ := passed
      rw [← tx.spends_payment payment] at rest apart
      simp only [TxValidation.checkTransactionWithUTXO, payment, bind_eq_ok, rejectIf_eq_ok,
        Bool.false_eq_true, if_false, exists_unit_iff] at coinRules
      obtain ⟨alone, totalIn, found, totalOut, summed, enough, -⟩ := coinRules
      obtain ⟨some, once, -, nonneg⟩ := TxValidation.checkTransaction_ok alone payment
      obtain ⟨coins, all, each, limit, total⟩ := TxValidation.checkInputsFrom_ok (by decide) found
      rw [Int64.toInt_zero, zero_add] at total
      have small := limit some
      rw [Int64.le_iff_toInt_le, total] at small
      simp only [TxValidation.verifyTransactionSignatures, payment, Bool.false_eq_true,
        if_false] at proofs
      obtain ⟨parse, rfl, claimable, wanted⟩ := TxValidation.verifyInputsFrom_ok claimed proofs
      have out : tx.totalOut = totalOut.toInt := by
        rw [TxValidation.totalFrom_ok summed, Int64.toInt_zero, zero_add]
        rfl
      have covers : tx.totalOut ≤ (coins.map (·.value.toInt)).sum := by
        rw [out, ← total]
        exact Int64.le_iff_toInt_le.mp (Int64.not_lt.mp enough)
      obtain ⟨rules, spends, reveals⟩ :=
        ih (fun t mem => payments t (List.mem_cons_of_mem _ mem)) (not_not.mp apart) claimable.1 rest
      refine ⟨?_, by simpa using spends, ?_⟩
      · intro t mem
        rcases List.mem_cons.mp mem with rfl | mem
        · exact ⟨some, once, nonneg, ⟨coins, all, each, small, covers⟩, parse, wanted⟩
        · exact rules t mem
      · rw [List.flatMap_cons, tx.reveals_payment payment]
        exact claimable_append.mpr ⟨claimable, reveals⟩

theorem checkReward_ok {P : Params} {height : UInt32} {tx : Transaction}
    (passed : checkReward P height tx = .ok ()) : 0 ≤ P.getValueOut tx ∧
      (P.getValueOut tx).toUInt64 ≤ P.getBlockSubsidy height.toUInt64 := by
  simp only [checkReward, bind_eq_ok, rejectIf_eq_ok, exists_unit_iff] at passed
  obtain ⟨-, nonneg, limit⟩ := passed
  refine ⟨Int64.not_lt.mp nonneg, ?_⟩
  have limit := UInt64.not_lt.mp limit
  rwa [UInt64.add_zero] at limit

theorem validateBlock_ok {P : Params} {now : UInt64} {view : CoinsView} {height : UInt32}
    {block : Block} (passed : validateBlock P now view height block = .ok ()) :
    BlockRules P view height block := by
  simp only [validateBlock, bind_eq_ok, exists_unit_iff] at passed
  obtain ⟨alone, -, coins⟩ := passed
  obtain ⟨⟨tx, coinbase⟩, one, ids, size⟩ := checkBlock_ok alone
  unfold checkBlockTransactionsWithUTXO at coins
  have whole := block.transactions_eq
  rw [coinbase] at whole
  rw [whole] at coins
  simp only [Option.toList, List.singleton_append, bind_eq_ok, exists_unit_iff] at coins
  obtain ⟨payments, reward⟩ := coins
  obtain ⟨rules, spends, reveals⟩ :=
    checkPaymentsWithUTXOFrom_ok one List.nodup_nil List.nodup_nil payments
  exact ⟨⟨tx, coinbase, checkReward_ok reward⟩, one, ids, size, rules, by simpa using spends, reveals⟩

end BlockValidation

end QmaskCore
