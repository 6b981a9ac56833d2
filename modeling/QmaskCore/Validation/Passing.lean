import QmaskCore.Validation.Rules

/-!
A block that should pass validation does.

`Rules` reads off what holds once a check has passed; here the checks are shown
to pass. The proofs of one transaction are checked the same way whatever other
leaves the block claimed before (`verifyInputsFrom_frame`), so transactions that
pass one by one and share nothing pass together
(`checkPaymentsWithUTXOFrom_eq_ok`), and a block of such payments behind a
coinbase that pays the subsidy passes (`validateBlock_eq_ok`).
-/

namespace QmaskCore

open Checks

namespace TxValidation

/-! ### Leaves claimed before -/

section

variable {P : Params} {view : CoinsView} {tx : Transaction} {other : List NoiseLeafKey}

theorem verifyProofsFrom_frame {input : TxInput} {i : Nat} : ∀ {wanted : List UInt32}
    {rest rest' : List UInt8} {scope scope' : List NoiseLeafKey}, scope.Nodup →
    verifyProofsFrom P view tx input i wanted rest scope = .ok (rest', scope') →
    (∀ key ∈ scope', key ∉ other) →
    verifyProofsFrom P view tx input i wanted rest (other ++ scope) = .ok (rest', other ++ scope') := by
  intro wanted
  induction wanted with
  | nil =>
      intro rest rest' scope scope' _ passed _
      cases passed
      rfl
  | cons index wanted ih =>
      intro rest rest' scope scope' distinct passed apart
      rw [verifyProofsFrom] at passed ⊢
      cases read : NoiseProof.deserialize rest with
      | none =>
          rw [read] at passed
          cases passed
      | some out =>
          obtain ⟨proof, behind⟩ := out
          simp only [read, bind_eq_ok, rejectIf_eq_ok, exists_unit_iff] at passed ⊢
          obtain ⟨isWanted, verified, fresh, unspent, passed⟩ := passed
          have grown : (scope ++ [(⟨input.kps, proof.leafIndex⟩ : NoiseLeafKey)]).Nodup := by
            rw [← List.concat_eq_append]
            exact distinct.concat fresh
          obtain ⟨-, -, all, -⟩ := verifyProofsFrom_ok grown passed
          have mine : (⟨input.kps, proof.leafIndex⟩ : NoiseLeafKey) ∈ scope' := by
            rw [all]
            simp
          refine ⟨isWanted, verified, ?_, unspent, ?_⟩
          · rw [List.mem_append, not_or]
            exact ⟨apart _ mine, fresh⟩
          · rw [List.append_assoc]
            exact ih grown passed apart

theorem verifyInput_frame {input : TxInput} {i : Nat} {scope scope' : List NoiseLeafKey}
    (distinct : scope.Nodup) (passed : verifyInput P view tx input i scope = .ok scope')
    (apart : ∀ key ∈ scope', key ∉ other) :
    verifyInput P view tx input i (other ++ scope) = .ok (other ++ scope') := by
  unfold verifyInput at passed ⊢
  split at passed
  · cases passed
  rename_i coin found
  simp only [bind_eq_ok, rejectIf_eq_ok, exists_unit_iff] at passed ⊢
  obtain ⟨signed, some, derived, ⟨rest, scope₁⟩, proofs, trailing, kps, done⟩ := passed
  cases done
  exact ⟨signed, some, derived, ⟨rest, other ++ scope₁⟩,
    verifyProofsFrom_frame distinct proofs apart, trailing, kps, rfl⟩

/-- Leaves the block claimed before are in the way of nothing but themselves. -/
theorem verifyInputsFrom_frame : ∀ {inputs : List TxInput} {i : Nat}
    {scope scope' : List NoiseLeafKey}, scope.Nodup →
    verifyInputsFrom P view tx i inputs scope = .ok scope' → (∀ key ∈ scope', key ∉ other) →
    verifyInputsFrom P view tx i inputs (other ++ scope) = .ok (other ++ scope') := by
  intro inputs
  induction inputs with
  | nil =>
      intro i scope scope' _ passed _
      cases passed
      rfl
  | cons input inputs ih =>
      intro i scope scope' distinct passed apart
      simp only [verifyInputsFrom, bind_eq_ok] at passed ⊢
      obtain ⟨scope₁, here, passed⟩ := passed
      obtain ⟨-, -, rfl, claimable⟩ := verifyInput_ok distinct here
      obtain ⟨-, rfl, -, -⟩ := verifyInputsFrom_ok claimable.1 passed
      refine ⟨_, verifyInput_frame distinct here fun key mem => ?_, ih claimable.1 passed apart⟩
      exact apart key (List.mem_append_left _ mem)

/-- A payment whose proofs are valid by themselves is so behind other payments
that reveal none of its leaves. -/
theorem verifyTransactionSignatures_frame {leaves : List NoiseLeafKey}
    (payment : tx.isCoinbase = false)
    (passed : verifyTransactionSignatures P view tx [] = .ok leaves)
    (apart : ∀ key ∈ leavesOf tx.inputs, key ∉ other) :
    verifyTransactionSignatures P view tx other = .ok (other ++ leavesOf tx.inputs) := by
  simp only [verifyTransactionSignatures, payment, Bool.false_eq_true, if_false] at passed ⊢
  obtain ⟨-, rfl, -, -⟩ := verifyInputsFrom_ok List.nodup_nil passed
  have framed := verifyInputsFrom_frame List.nodup_nil passed apart
  rwa [List.append_nil, List.nil_append] at framed

end

/-! ### Accounting of fees -/

theorem toUInt64_safeAdd {a b c : Int64} (sum : safeAdd a b = some c) :
    a.toUInt64 + b.toUInt64 = c.toUInt64 := by
  unfold safeAdd at sum
  split at sum
  · cases sum
  · split at sum
    · cases sum
    · cases sum
      rfl

/-- The unsigned total is the checked one. -/
theorem feeInputsFrom_eq {P : Params} {view : CoinsView} {height : UInt32} {i : Nat} :
    ∀ {inputs : List TxInput} {start total : Int64}, 0 ≤ start →
    checkInputsFrom P view height start inputs = .ok total →
    BlockValidation.feeInputsFrom view i start.toUInt64 inputs = .ok total.toUInt64 := by
  intro inputs
  induction inputs with
  | nil =>
      intro start total _ passed
      cases passed
      rfl
  | cons input inputs ih =>
      intro start total low passed
      rw [checkInputsFrom] at passed
      rw [BlockValidation.feeInputsFrom]
      cases found : view.getCoin input.outpoint with
      | none =>
          rw [found] at passed
          cases passed
      | some coin =>
          simp only [found, bind_eq_ok, rejectIf_eq_ok, exists_unit_iff] at passed ⊢
          obtain ⟨-, -, range, rest⟩ := passed
          have nonneg := (checkMoneyRange_ok range).1
          cases sum : safeAdd start coin.value with
          | none =>
              rw [sum] at rest
              cases rest
          | some next =>
              simp only [sum, bind_eq_ok, rejectIf_eq_ok, exists_unit_iff] at rest
              have exact := safeAdd_eq_some sum
              have lowNext : 0 ≤ next := by
                rw [Int64.le_iff_toInt_le, Int64.toInt_zero] at low nonneg ⊢
                omega
              have first := toNat_toUInt64 low
              have last := toNat_toUInt64 lowNext
              rw [toUInt64_safeAdd sum]
              refine ⟨?_, ih lowNext rest.2⟩
              rw [Int64.le_iff_toInt_le, Int64.toInt_zero] at nonneg
              rw [UInt64.lt_iff_toNat_lt]
              omega

theorem foldl_toUInt64 {error : TxValidationState} : ∀ {outs : List TxOutput} {start total : Int64},
    totalFrom error start outs = .ok total →
    outs.foldl (fun txOut out => txOut + out.value.toUInt64) start.toUInt64 = total.toUInt64 := by
  intro outs
  induction outs with
  | nil =>
      intro start total passed
      cases passed
      rfl
  | cons out outs ih =>
      intro start total passed
      rw [totalFrom] at passed
      cases sum : safeAdd start out.value with
      | none =>
          rw [sum] at passed
          cases passed
      | some next =>
          rw [sum] at passed
          rw [List.foldl_cons, toUInt64_safeAdd sum]
          exact ih passed

end TxValidation

namespace BlockValidation

open TxValidation

variable {P : Params} {view : CoinsView} {height : UInt32}

/-- The fee rules of a block ask no more than the check of the transaction itself. -/
theorem fees_of_checked {tx : Transaction} {i : Nat} (payment : tx.isCoinbase = false)
    (passed : checkTransactionWithUTXO P view height tx = .ok ()) :
    ∃ txIn, feeInputsFrom view i 0 tx.inputs = .ok txIn ∧ ¬ txIn < feeOutputs tx := by
  simp only [checkTransactionWithUTXO, payment, bind_eq_ok, rejectIf_eq_ok, Bool.false_eq_true,
    if_false, exists_unit_iff] at passed
  obtain ⟨alone, totalIn, found, totalOut, summed, enough, -⟩ := passed
  obtain ⟨some, -, -, nonneg⟩ := checkTransaction_ok alone payment
  have out : totalOut.toInt = tx.totalOut := by
    rw [totalFrom_ok summed, Int64.toInt_zero, zero_add]
    rfl
  have lowOut : 0 ≤ totalOut := by
    rw [Int64.le_iff_toInt_le, Int64.toInt_zero, out]
    exact Transaction.totalOut_nonneg nonneg
  have lowIn : 0 ≤ totalIn := by
    rw [Int64.le_iff_toInt_le] at lowOut ⊢
    have enough := Int64.le_iff_toInt_le.mp (Int64.not_lt.mp enough)
    omega
  refine ⟨totalIn.toUInt64, feeInputsFrom_eq Int64.le_rfl found, ?_⟩
  have outputs : feeOutputs tx = totalOut.toUInt64 := foldl_toUInt64 summed
  have enough := Int64.le_iff_toInt_le.mp (Int64.not_lt.mp enough)
  have unsignedIn := toNat_toUInt64 lowIn
  have unsignedOut := toNat_toUInt64 lowOut
  rw [outputs, UInt64.lt_iff_toNat_lt]
  omega

/-- Payments that pass one by one, and share neither an outpoint nor a leaf, pass together. -/
theorem checkPaymentsWithUTXOFrom_eq_ok : ∀ {txs : List Transaction} {i : Nat}
    {outpoints : List OutPoint} {leaves : List NoiseLeafKey},
    (∀ tx ∈ txs, tx.isCoinbase = false) →
    (∀ tx ∈ txs, checkTransactionWithUTXO P view height tx = .ok ()) →
    (∀ tx ∈ txs, ∃ claimed, verifyTransactionSignatures P view tx [] = .ok claimed) →
    (outpoints ++ txs.flatMap fun tx => tx.inputs.map (·.outpoint)).Nodup →
    (txs.map fun tx => leavesOf tx.inputs).Pairwise List.Disjoint →
    (∀ tx ∈ txs, leaves.Disjoint (leavesOf tx.inputs)) →
    checkPaymentsWithUTXOFrom P view height i outpoints leaves txs = .ok () := by
  intro txs
  induction txs with
  | nil => exact fun _ _ _ _ _ _ => rfl
  | cons tx txs ih =>
      intro i outpoints leaves payments checked signed spends apart claimed
      have payment := payments tx List.mem_cons_self
      obtain ⟨_, proofs⟩ := signed tx List.mem_cons_self
      obtain ⟨txIn, paidIn, enough⟩ := fees_of_checked (i := i) payment
        (checked tx List.mem_cons_self)
      have framed := verifyTransactionSignatures_frame payment proofs
        fun key mine before => claimed tx List.mem_cons_self before mine
      rw [List.flatMap_cons, ← List.append_assoc] at spends
      obtain ⟨first, rest⟩ := List.pairwise_cons.mp apart
      simp only [checkPaymentsWithUTXOFrom, bind_eq_ok, rejectIf_eq_ok, onError_eq_ok,
        exists_unit_iff]
      refine ⟨not_not.mpr spends.of_append_left, checked tx List.mem_cons_self, _, framed, txIn,
        paidIn, enough, ?_⟩
      refine ih (fun t mem => payments t (List.mem_cons_of_mem _ mem))
        (fun t mem => checked t (List.mem_cons_of_mem _ mem))
        (fun t mem => signed t (List.mem_cons_of_mem _ mem)) spends rest fun t mem => ?_
      refine List.disjoint_append_left.mpr ⟨claimed t (List.mem_cons_of_mem _ mem), ?_⟩
      exact first _ (List.mem_map_of_mem mem)

theorem checkPaymentsFrom_eq_ok : ∀ {txs : List Transaction} {i : Nat},
    (∀ tx ∈ txs, tx.isCoinbase = false) → (∀ tx ∈ txs, checkTransaction P tx = .ok ()) →
    checkPaymentsFrom P i txs = .ok () := by
  intro txs
  induction txs with
  | nil => exact fun _ _ => rfl
  | cons tx txs ih =>
      intro i payments checked
      simp only [checkPaymentsFrom, bind_eq_ok, rejectIf_eq_ok, onError_eq_ok, exists_unit_iff]
      exact ⟨Bool.eq_false_iff.mp (payments tx List.mem_cons_self), checked tx List.mem_cons_self,
        ih (fun t mem => payments t (List.mem_cons_of_mem _ mem))
          fun t mem => checked t (List.mem_cons_of_mem _ mem)⟩

theorem checkHashesFrom_eq_ok : ∀ {txs : List Transaction} {i : Nat} {seen : List Bytes32},
    (seen ++ txs.map (·.hash)).Nodup → checkHashesFrom i seen txs = .ok () := by
  intro txs
  induction txs with
  | nil => exact fun _ => rfl
  | cons tx txs ih =>
      intro i seen distinct
      rw [List.map_cons, ← List.singleton_append, ← List.append_assoc] at distinct
      simp only [checkHashesFrom, bind_eq_ok, rejectIf_eq_ok, exists_unit_iff]
      refine ⟨fun before => ?_, ih distinct⟩
      exact (List.nodup_append'.mp distinct.of_append_left).2.2 before (List.mem_singleton.mpr rfl)

/-- The subsidy may be paid out. -/
theorem checkReward_eq_ok {tx : Transaction} (nonneg : 0 ≤ P.getValueOut tx)
    (paid : (P.getValueOut tx).toUInt64 = P.getBlockSubsidy height.toUInt64) :
    checkReward P height tx = .ok () := by
  simp only [checkReward, bind_eq_ok, rejectIf_eq_ok, exists_unit_iff, UInt64.add_zero, paid]
  exact ⟨UInt64.lt_irrefl _, Int64.not_lt.mpr nonneg, UInt64.lt_irrefl _⟩

/-! ### Whole blocks -/

/-- Transactions that can go into one block: each passes the checks by itself
and no two of them spend an outpoint or reveal a leaf in common. -/
structure Together (P : Params) (view : CoinsView) (height : UInt32) (txs : List Transaction) :
    Prop where
  payments : ∀ tx ∈ txs, tx.isCoinbase = false
  checked : ∀ tx ∈ txs, checkTransactionWithUTXO P view height tx = .ok ()
  signed : ∀ tx ∈ txs, ∃ claimed, verifyTransactionSignatures P view tx [] = .ok claimed
  ids : (txs.map (·.hash)).Nodup
  outpoints : (txs.map fun tx => tx.inputs.map (·.outpoint)).Pairwise List.Disjoint
  leaves : (txs.map fun tx => leavesOf tx.inputs).Pairwise List.Disjoint

namespace Together

variable {txs txs' : List Transaction}

/-- Leaving some out leaves the others together. -/
theorem sublist (together : Together P view height txs) (sub : txs'.Sublist txs) :
    Together P view height txs' where
  payments tx mem := together.payments tx (sub.subset mem)
  checked tx mem := together.checked tx (sub.subset mem)
  signed tx mem := together.signed tx (sub.subset mem)
  ids := together.ids.sublist (sub.map _)
  outpoints := together.outpoints.sublist (sub.map _)
  leaves := together.leaves.sublist (sub.map _)

theorem checkTransaction_eq_ok (together : Together P view height txs) {tx : Transaction}
    (mem : tx ∈ txs) : checkTransaction P tx = .ok () := by
  have checked := together.checked tx mem
  simp only [checkTransactionWithUTXO, bind_eq_ok, exists_unit_iff] at checked
  exact checked.1

/-- No outpoint is spent twice, neither by one of them nor by two. -/
theorem nodup_spent (together : Together P view height txs) :
    (txs.flatMap fun tx => tx.inputs.map (·.outpoint)).Nodup := by
  rw [List.flatMap_def, List.nodup_flatten]
  refine ⟨fun spent mem => ?_, together.outpoints⟩
  obtain ⟨tx, memTx, rfl⟩ := List.mem_map.mp mem
  exact (checkTransaction_ok (together.checkTransaction_eq_ok memTx)
    (together.payments tx memTx)).2.1

end Together

/-- A block passes when its header does, its roots are those of its
transactions, it is small enough, its coinbase pays the subsidy and its
payments can go together. -/
theorem validateBlock_eq_ok {now : UInt64} {block : Block} {coinbase : Transaction}
    {payments : List Transaction} (whole : block.transactions = coinbase :: payments)
    (isCoinbase : coinbase.isCoinbase = true) (together : Together P view height payments)
    (header : checkBlockHeader P now block.header = .ok ())
    (size : block.getSerializedSize P ≤ P.maxBlockSize.toNat)
    (merkleRoot : block.computeMerkleRoot P.sha256 = block.header.merkleRoot)
    (leafRoot : block.computeLeafRoot P.sha256 = block.header.leafRoot)
    (id : coinbase.hash ∉ payments.map (·.hash))
    (reward : checkReward P height coinbase = .ok ()) :
    validateBlock P now view height block = .ok () := by
  have transactions : checkBlockTransactions P block = .ok () := by
    simp only [checkBlockTransactions, whole, isCoinbase, bind_eq_ok, rejectIf_eq_ok,
      exists_unit_iff]
    exact ⟨by simp, checkPaymentsFrom_eq_ok together.payments fun tx mem =>
      together.checkTransaction_eq_ok mem⟩
  have distinct : checkDuplicateTransactions block = .ok () := by
    refine checkHashesFrom_eq_ok ?_
    rw [whole, List.nil_append, List.map_cons]
    exact List.nodup_cons.mpr ⟨id, together.ids⟩
  have coins : checkBlockTransactionsWithUTXO P view height block = .ok () := by
    simp only [checkBlockTransactionsWithUTXO, whole, bind_eq_ok, exists_unit_iff]
    refine ⟨checkPaymentsWithUTXOFrom_eq_ok together.payments together.checked together.signed
      together.nodup_spent together.leaves fun _ _ => ?_, reward⟩
    exact List.disjoint_nil_left _
  simp only [validateBlock, checkBlock, checkBlockSize, checkMerkleRoot, checkBlockReveals,
    bind_eq_ok, rejectIf_eq_ok, exists_unit_iff]
  exact ⟨⟨header, Nat.not_lt.mpr size, not_not.mpr merkleRoot, transactions, distinct⟩,
    not_not.mpr leafRoot, coins⟩

/-- A block whose body is in order passes if and only if its header does. -/
theorem validateBlock_iff_header {now : UInt64} {block : Block} {coinbase : Transaction}
    {payments : List Transaction} (whole : block.transactions = coinbase :: payments)
    (isCoinbase : coinbase.isCoinbase = true) (together : Together P view height payments)
    (size : block.getSerializedSize P ≤ P.maxBlockSize.toNat)
    (merkleRoot : block.computeMerkleRoot P.sha256 = block.header.merkleRoot)
    (leafRoot : block.computeLeafRoot P.sha256 = block.header.leafRoot)
    (id : coinbase.hash ∉ payments.map (·.hash))
    (reward : checkReward P height coinbase = .ok ()) :
    validateBlock P now view height block = .ok () ↔
      checkBlockHeader P now block.header = .ok () := by
  refine ⟨fun passed => ?_, fun header =>
    validateBlock_eq_ok whole isCoinbase together header size merkleRoot leafRoot id reward⟩
  simp only [validateBlock, checkBlock, Checks.bind_eq_ok, Checks.exists_unit_iff] at passed
  exact passed.1.1

theorem checkBlockHeader_iff {now : UInt64} {header : BlockHeader} :
    checkBlockHeader P now header = .ok () ↔ header.version ≠ 0 ∧
      P.genesisTimestamp ≤ header.timestamp ∧ header.timestamp ≠ 0 ∧
      header.timestamp ≤ now + 7200 ∧ header.merkleRoot ≠ 0 ∧
      P.checkProofOfWork (header.getHash P.sha256) header.bits = true := by
  simp only [checkBlockHeader, Checks.bind_eq_ok, Checks.rejectIf_eq_ok, Checks.exists_unit_iff,
    UInt64.not_lt, Bool.not_eq_false, ne_eq]

/-- A coinbase that pays the subsidy to one output may be paid. -/
theorem checkReward_of_output (values : P.ValueOutExact) {tx : Transaction} {script : Bytes32}
    (small : (P.getBlockSubsidy height.toUInt64).toNat < 2 ^ 63)
    (pays : tx.outputs = [.payTo (P.getBlockSubsidy height.toUInt64).toInt64 script]) :
    checkReward P height tx = .ok () := by
  generalize equal : P.getBlockSubsidy height.toUInt64 = subsidy at small pays
  have value : subsidy.toInt64.toInt = subsidy.toNat :=
    BitVec.toInt_eq_toNat_of_lt (by change 2 * subsidy.toNat < 2 ^ 64; omega)
  have nonneg : 0 ≤ subsidy.toInt64 := by
    rw [Int64.le_iff_toInt_le, Int64.toInt_zero, value]
    exact Int.natCast_nonneg _
  have total : tx.totalOut = subsidy.toInt64.toInt := by
    rw [Transaction.totalOut, pays]
    simp [TxOutput.payTo]
  have out : P.getValueOut tx = subsidy.toInt64 := by
    refine Int64.toInt_inj.mp ((values.exact tx ?_ (by omega)).trans total)
    rw [pays]
    simpa [TxOutput.payTo] using nonneg
  refine checkReward_eq_ok (by rw [out]; exact nonneg) ?_
  rw [out, equal]
  rfl

end BlockValidation

end QmaskCore
