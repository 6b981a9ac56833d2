import QmaskCore.Validation.Rules

/-!
One block, checked on two stores.

The check of a block against the coins looks at the coins its payments spend and
at the leaves they are called to reveal, and of a coin that no coinbase made it
never looks at the height. `checkBlockTransactionsWithUTXO_alike` says so: on two
stores that hold these coins alike the answer is the same, error and all.
-/

namespace QmaskCore

open Checks

/-- Coins no rule tells apart: the height counts for a coinbase only. -/
structure Coin.Alike (c d : Coin) : Prop where
  value : c.value = d.value
  pubkeyHash : c.pubkeyHash = d.pubkeyHash
  isCoinbase : c.isCoinbase = d.isCoinbase
  isSpent : c.isSpent = d.isSpent
  height : c.isCoinbase = true → c.height = d.height

/-- Two stores that show a transaction the same: its inputs' coins, and whether
the leaves it must reveal are spent. -/
structure CoinsView.Alike (P : Params) (view view' : CoinsView) (tx : Transaction) : Prop where
  coins : ∀ input ∈ tx.inputs, ∃ c d, view.getCoin input.outpoint = some c ∧
    view'.getCoin input.outpoint = some d ∧ c.Alike d
  leaves : ∀ keys ∈ TxValidation.wantedFrom P tx 0 tx.inputs, ∀ key ∈ keys,
    view.isNoiseLeafSpent key = view'.isNoiseLeafSpent key

/-- A coinbase is as mature for one as for the other. -/
theorem Coin.Alike.maturity {c d : Coin} (alike : c.Alike d) (height maturity : UInt32) :
    (c.isCoinbase = true ∧ height < c.height + maturity) ↔
      (d.isCoinbase = true ∧ height < d.height + maturity) := by
  rw [← alike.isCoinbase]
  exact and_congr_right fun coinbase => by rw [alike.height coinbase]

namespace TxValidation

variable {P : Params} {view view' : CoinsView} {tx : Transaction}

theorem checkInputsFrom_alike {height : UInt32} : ∀ {inputs : List TxInput} (total : Int64),
    (∀ input ∈ inputs, ∃ c d, view.getCoin input.outpoint = some c ∧
      view'.getCoin input.outpoint = some d ∧ c.Alike d) →
    checkInputsFrom P view height total inputs = checkInputsFrom P view' height total inputs := by
  intro inputs
  induction inputs with
  | nil => exact fun _ _ => rfl
  | cons input inputs ih =>
      intro total coins
      obtain ⟨c, d, here, there, alike⟩ := coins input List.mem_cons_self
      have later (total : Int64) := ih total
        fun input mem => coins input (List.mem_cons_of_mem _ mem)
      simp only [checkInputsFrom, here, there, later, alike.value, alike.isSpent, alike.maturity]

theorem checkTransactionWithUTXO_alike {height : UInt32} (alike : view.Alike P view' tx) :
    checkTransactionWithUTXO P view height tx = checkTransactionWithUTXO P view' height tx := by
  simp only [checkTransactionWithUTXO, checkInputsFrom_alike _ alike.coins]

theorem verifyProofsFrom_alike {input : TxInput} {i : Nat} : ∀ {wanted : List UInt32}
    (rest : List UInt8) (scope : List NoiseLeafKey),
    (∀ key ∈ leafKeys input.kps wanted,
      view.isNoiseLeafSpent key = view'.isNoiseLeafSpent key) →
    verifyProofsFrom P view tx input i wanted rest scope =
      verifyProofsFrom P view' tx input i wanted rest scope := by
  intro wanted
  induction wanted with
  | nil => exact fun _ _ _ => rfl
  | cons index wanted ih =>
      intro rest scope leaves
      have later (rest : List UInt8) (scope : List NoiseLeafKey) := ih rest scope
        fun key mem => leaves key (List.mem_cons_of_mem _ mem)
      rw [verifyProofsFrom, verifyProofsFrom]
      cases NoiseProof.deserialize rest with
      | none => rfl
      | some read =>
          obtain ⟨proof, rest⟩ := read
          -- The store is asked only about a leaf that is the one called for.
          by_cases wrong : proof.leafIndex ≠ index
          · simp [rejectIf, wrong]
            rfl
          · have here := leaves ⟨input.kps, index⟩ List.mem_cons_self
            obtain rfl : proof.leafIndex = index := not_not.mp wrong
            simp only [here, later]

theorem verifyInput_alike {input : TxInput} {i : Nat} (scope : List NoiseLeafKey)
    (coins : ∃ c d, view.getCoin input.outpoint = some c ∧
      view'.getCoin input.outpoint = some d ∧ c.Alike d)
    (leaves : ∀ key ∈ leafKeys input.kps (wantedLeaves P tx input i),
      view.isNoiseLeafSpent key = view'.isNoiseLeafSpent key) :
    verifyInput P view tx input i scope = verifyInput P view' tx input i scope := by
  obtain ⟨c, d, here, there, alike⟩ := coins
  simp only [verifyInput, here, there, alike.value, alike.pubkeyHash,
    verifyProofsFrom_alike _ _ leaves]

theorem verifyInputsFrom_alike : ∀ {inputs : List TxInput} {i : Nat} (scope : List NoiseLeafKey),
    (∀ input ∈ inputs, ∃ c d, view.getCoin input.outpoint = some c ∧
      view'.getCoin input.outpoint = some d ∧ c.Alike d) →
    (∀ keys ∈ wantedFrom P tx i inputs, ∀ key ∈ keys,
      view.isNoiseLeafSpent key = view'.isNoiseLeafSpent key) →
    verifyInputsFrom P view tx i inputs scope = verifyInputsFrom P view' tx i inputs scope := by
  intro inputs
  induction inputs with
  | nil => exact fun _ _ _ => rfl
  | cons input inputs ih =>
      intro i scope coins leaves
      have here := verifyInput_alike scope (coins input List.mem_cons_self)
        (leaves _ List.mem_cons_self)
      have later (scope : List NoiseLeafKey) := @ih (i + 1) scope
        (fun input mem => coins input (List.mem_cons_of_mem _ mem))
        fun keys mem => leaves keys (List.mem_cons_of_mem _ mem)
      simp only [verifyInputsFrom, here, later]

theorem verifyTransactionSignatures_alike {scope : List NoiseLeafKey}
    (alike : view.Alike P view' tx) :
    verifyTransactionSignatures P view tx scope =
      verifyTransactionSignatures P view' tx scope := by
  simp only [verifyTransactionSignatures, verifyInputsFrom_alike _ alike.coins alike.leaves]

end TxValidation

namespace BlockValidation

variable {P : Params} {view view' : CoinsView}

theorem feeInputsFrom_alike {i : Nat} : ∀ {inputs : List TxInput} (txIn : UInt64),
    (∀ input ∈ inputs, ∃ c d, view.getCoin input.outpoint = some c ∧
      view'.getCoin input.outpoint = some d ∧ c.Alike d) →
    feeInputsFrom view i txIn inputs = feeInputsFrom view' i txIn inputs := by
  intro inputs
  induction inputs with
  | nil => exact fun _ _ => rfl
  | cons input inputs ih =>
      intro txIn coins
      obtain ⟨c, d, here, there, alike⟩ := coins input List.mem_cons_self
      have later (txIn : UInt64) := ih txIn
        fun input mem => coins input (List.mem_cons_of_mem _ mem)
      simp only [feeInputsFrom, here, there, later, alike.value]

theorem checkPaymentsWithUTXOFrom_alike {height : UInt32} : ∀ {txs : List Transaction} (i : Nat)
    (outpoints : List OutPoint) (leaves : List NoiseLeafKey),
    (∀ tx ∈ txs, view.Alike P view' tx) →
    checkPaymentsWithUTXOFrom P view height i outpoints leaves txs =
      checkPaymentsWithUTXOFrom P view' height i outpoints leaves txs := by
  intro txs
  induction txs with
  | nil => exact fun _ _ _ _ => rfl
  | cons tx txs ih =>
      intro i outpoints leaves alike
      have here := alike tx List.mem_cons_self
      have later (i : Nat) (outpoints : List OutPoint) (leaves : List NoiseLeafKey) :=
        ih i outpoints leaves fun tx mem => alike tx (List.mem_cons_of_mem _ mem)
      simp only [checkPaymentsWithUTXOFrom, later,
        TxValidation.checkTransactionWithUTXO_alike here,
        TxValidation.verifyTransactionSignatures_alike here, feeInputsFrom_alike _ here.coins]

/-- The check of a block gives one answer on two stores that show what follows its first
transaction the same. -/
theorem checkBlockTransactionsWithUTXO_alike {height : UInt32} {block : Block}
    (alike : ∀ tx ∈ block.transactions.tail, view.Alike P view' tx) :
    checkBlockTransactionsWithUTXO P view height block =
      checkBlockTransactionsWithUTXO P view' height block := by
  unfold checkBlockTransactionsWithUTXO
  cases whole : block.transactions with
  | nil => rfl
  | cons coinbase payments =>
      rw [whole, List.tail_cons] at alike
      simp only [checkPaymentsWithUTXOFrom_alike _ _ _ alike]

end BlockValidation

end QmaskCore
