import QmaskCore.Wallet.NoiseOtp

/-!
What every store of coins offers, and how a transaction reads it.

`CoinsView` is what a store answers: the unspent coin under an outpoint and
whether a leaf is spent. `gatherInputs` is the first half of
`UTXOSet::ApplyTransaction`, which reads everything a transaction spends
before anything changes, and `Transaction.newCoins` lists what it adds.
`gatherInputs_eq` says exactly when the first half succeeds and what it returns. `CoinDB` is the interface the block-level code is written against.
-/

namespace QmaskCore

/-- The two questions a store of coins answers. -/
structure CoinsView where
  getCoin : OutPoint → Option Coin
  isNoiseLeafSpent : NoiseLeafKey → Bool

class CoinDB (σ : Type) where
  view : σ → CoinsView
  /-- The coins the transaction spent, `none` when it is refused. -/
  applyTransaction : Transaction → UInt32 → Bool → σ → Option (List Coin) × σ
  undoTransaction : Transaction → List Coin → σ → Bool × σ
  applyTransactionForReplay : Transaction → UInt32 → Bool → σ → Bool × σ

/-! ### Reading what a transaction spends -/

/-- The leaves of one input join those already claimed, unless one of them is
spent or claimed before. -/
def claimLeaves (isSpent : NoiseLeafKey → Bool) :
    List NoiseLeafKey → List NoiseLeafKey → Option (List NoiseLeafKey)
  | seen, [] => some seen
  | seen, key :: keys =>
      if isSpent key then none
      else if key ∈ seen then none
      else claimLeaves isSpent (seen ++ [key]) keys

/-- The coins the inputs spend and the leaves they mark. -/
def gatherInputs (view : CoinsView) :
    List NoiseLeafKey → List TxInput → Option (List (OutPoint × Coin) × List NoiseLeafKey)
  | seen, [] => some ([], seen)
  | seen, input :: inputs =>
      match view.getCoin input.outpoint with
      | none => none
      | some coin =>
          if input.noiseProof.isEmpty then none
          else
            match claimLeaves view.isNoiseLeafSpent seen input.leaves.1 with
            | none => none
            | some seen =>
                if input.leaves.2 then
                  match gatherInputs view seen inputs with
                  | none => none
                  | some (toSpend, toMark) => some ((input.outpoint, coin) :: toSpend, toMark)
                else none

/-- The coins under the outpoints the inputs name, `none` when one is missing. -/
def CoinsView.coinsOf (view : CoinsView) : List TxInput → Option (List Coin)
  | [] => some []
  | input :: inputs =>
      match view.getCoin input.outpoint with
      | none => none
      | some coin => (view.coinsOf inputs).map (coin :: ·)

/-- One coin for each input. -/
theorem CoinsView.length_coinsOf {view : CoinsView} {inputs : List TxInput} :
    ∀ {coins : List Coin}, view.coinsOf inputs = some coins → coins.length = inputs.length := by
  induction inputs with
  | nil =>
      rintro coins found
      cases found
      rfl
  | cons input inputs ih =>
      intro coins found
      rw [CoinsView.coinsOf] at found
      cases head : view.getCoin input.outpoint with
      | none => simp [head] at found
      | some coin =>
          simp only [head, Option.map_eq_some_iff] at found
          obtain ⟨rest, tail, rfl⟩ := found
          rw [List.length_cons, List.length_cons, ih tail]

/-- Each input is paired with the coin under its own outpoint. -/
theorem CoinsView.getCoin_of_mem_zip {view : CoinsView} {inputs : List TxInput} :
    ∀ {coins : List Coin}, view.coinsOf inputs = some coins →
    ∀ found ∈ inputs.zip coins, view.getCoin found.1.outpoint = some found.2 := by
  induction inputs with
  | nil => simp
  | cons input inputs ih =>
      intro coins found
      rw [CoinsView.coinsOf] at found
      cases head : view.getCoin input.outpoint with
      | none => simp [head] at found
      | some coin =>
          simp only [head, Option.map_eq_some_iff] at found
          obtain ⟨rest, tail, rfl⟩ := found
          intro pair mem
          rcases List.mem_cons.mp mem with rfl | mem
          · exact head
          · exact ih tail pair mem

/-- Inputs whose coins were all found have a coin each. -/
theorem CoinsView.getCoin_of_coinsOf {view : CoinsView} : ∀ {inputs : List TxInput}
    {coins : List Coin}, view.coinsOf inputs = some coins →
    ∀ input ∈ inputs, ∃ c, view.getCoin input.outpoint = some c := by
  intro inputs
  induction inputs with
  | nil => simp
  | cons first inputs ih =>
      intro coins found input mem
      rw [coinsOf] at found
      cases head : view.getCoin first.outpoint with
      | none => simp [head] at found
      | some coin =>
          simp only [head, Option.map_eq_some_iff] at found
          obtain ⟨rest, tail, -⟩ := found
          rcases List.mem_cons.mp mem with rfl | mem
          · exact ⟨coin, head⟩
          · exact ih tail input mem

/-- All leaves the inputs reveal, in order. -/
def leavesOf (inputs : List TxInput) : List NoiseLeafKey := inputs.flatMap (·.leaves.1)

/-- Every input carries proofs and they parse to the end. -/
def ProofsParse (inputs : List TxInput) : Prop :=
  ∀ input ∈ inputs, input.noiseProof ≠ [] ∧ input.leaves.2 = true

instance (inputs : List TxInput) : Decidable (ProofsParse inputs) :=
  inferInstanceAs (Decidable (∀ input ∈ inputs, input.noiseProof ≠ [] ∧ input.leaves.2 = true))

@[simp] theorem leavesOf_cons (input : TxInput) (inputs : List TxInput) :
    leavesOf (input :: inputs) = input.leaves.1 ++ leavesOf inputs := rfl

theorem proofsParse_cons {input : TxInput} {inputs : List TxInput} :
    ProofsParse (input :: inputs) ↔
      (input.noiseProof ≠ [] ∧ input.leaves.2 = true) ∧ ProofsParse inputs := by
  simp [ProofsParse]

/-- The leaves `fresh` may be claimed on top of `seen`: none is spent and no
two are the same. -/
def Claimable (isSpent : NoiseLeafKey → Bool) (seen fresh : List NoiseLeafKey) : Prop :=
  (seen ++ fresh).Nodup ∧ ∀ key ∈ fresh, isSpent key = false

instance (isSpent : NoiseLeafKey → Bool) (seen fresh : List NoiseLeafKey) :
    Decidable (Claimable isSpent seen fresh) :=
  inferInstanceAs (Decidable (_ ∧ _))

theorem claimable_append {isSpent : NoiseLeafKey → Bool} {seen first second : List NoiseLeafKey} :
    Claimable isSpent seen (first ++ second) ↔
      Claimable isSpent seen first ∧ Claimable isSpent (seen ++ first) second := by
  simp only [Claimable, List.append_assoc, List.mem_append]
  constructor
  · rintro ⟨nodup, free⟩
    refine ⟨⟨nodup.sublist ?_, fun key mem => free key (.inl mem)⟩, nodup,
      fun key mem => free key (.inr mem)⟩
    exact (List.Sublist.refl seen).append (List.sublist_append_left first second)
  · rintro ⟨⟨-, free⟩, nodup, free'⟩
    exact ⟨nodup, fun key mem => mem.elim (free key) (free' key)⟩

theorem claimLeaves_eq {isSpent : NoiseLeafKey → Bool} {keys : List NoiseLeafKey} :
    ∀ {seen : List NoiseLeafKey}, seen.Nodup → claimLeaves isSpent seen keys =
      if Claimable isSpent seen keys then some (seen ++ keys) else none := by
  induction keys with
  | nil =>
      intro seen distinct
      simp [claimLeaves, Claimable, distinct]
  | cons key keys ih =>
      intro seen distinct
      have split : Claimable isSpent seen (key :: keys) ↔
          (isSpent key = false ∧ key ∉ seen) ∧ Claimable isSpent (seen ++ [key]) keys := by
        rw [← List.singleton_append, claimable_append]
        refine and_congr_left fun _ => ?_
        simp only [Claimable, List.nodup_append, distinct, List.mem_singleton, forall_eq]
        grind
      rw [claimLeaves]
      by_cases spent : isSpent key = true
      · simp [spent, split]
      · by_cases before : key ∈ seen
        · simp [spent, before, split]
        · have grown : (seen ++ [key]).Nodup := by
            refine List.nodup_append.mpr ⟨distinct, by simp, ?_⟩
            intro a mem b hb
            rw [List.mem_singleton.mp hb]
            rintro rfl
            exact before mem
          simp [spent, before, split, ih grown]

/-- Reading succeeds exactly when the proofs parse, the leaves they reveal can
be claimed and every input names a coin. -/
theorem gatherInputs_eq {view : CoinsView} {inputs : List TxInput} :
    ∀ {seen : List NoiseLeafKey}, seen.Nodup → gatherInputs view seen inputs =
      if ProofsParse inputs ∧ Claimable view.isNoiseLeafSpent seen (leavesOf inputs) then
        (view.coinsOf inputs).map fun coins =>
          ((inputs.map (·.outpoint)).zip coins, seen ++ leavesOf inputs)
      else none := by
  induction inputs with
  | nil =>
      intro seen distinct
      simp [gatherInputs, ProofsParse, Claimable, leavesOf, distinct, CoinsView.coinsOf]
  | cons input inputs ih =>
      intro seen distinct
      simp only [gatherInputs, CoinsView.coinsOf, proofsParse_cons, leavesOf_cons,
        claimable_append]
      cases view.getCoin input.outpoint with
      | none => simp
      | some coin =>
          by_cases empty : input.noiseProof = []
          · simp [empty]
          · dsimp only
            rw [claimLeaves_eq distinct]
            by_cases claimed : Claimable view.isNoiseLeafSpent seen input.leaves.1
            · cases parses : input.leaves.2 with
              | false => simp [claimed]
              | true =>
                  simp only [claimed, if_true, ih claimed.1]
                  by_cases rest : ProofsParse inputs ∧
                      Claimable view.isNoiseLeafSpent (seen ++ input.leaves.1) (leavesOf inputs)
                  · cases view.coinsOf inputs <;> simp [rest, empty]
                  · simp only [rest, if_false, List.isEmpty_iff, empty]
                    rw [if_neg fun whole => rest ⟨whole.1.2, whole.2.2⟩]
            · simp [claimed]

/-! ### What a transaction adds -/

/-- The coin an output becomes, if it becomes one: it must be spendable, worth
something and follow the payment template. -/
def TxOutput.toCoin (out : TxOutput) (height : UInt32) (isCoinbase : Bool) : Option Coin :=
  if out.isUnspendable then none
  else if out.value ≤ 0 then none
  else
    match extractPubkeyHash out.scriptPubKey with
    | none => none
    | some pubkeyHash => some (Coin.ofOutput out.value pubkeyHash height isCoinbase)

/-- The coins a connected transaction adds, in order. -/
def Transaction.newCoins (tx : Transaction) (height : UInt32) (isCoinbase : Bool) :
    List (OutPoint × Coin) :=
  tx.outputs.zipIdx.filterMap fun out =>
    (out.1.toCoin height isCoinbase).map fun coin => (tx.outpoint out.2, coin)

/-- The coin a transaction adds under an outpoint, if it adds one there. -/
def Transaction.newCoinAt (tx : Transaction) (height : UInt32) (isCoinbase : Bool)
    (outpoint : OutPoint) : Option Coin :=
  if outpoint.txHash = tx.hash then
    tx.outputs[outpoint.index.toNat]?.bind fun out => out.toCoin height isCoinbase
  else none

/-- The outpoints of all outputs of a transaction, whether or not they became coins. -/
def Transaction.outpoints (tx : Transaction) : List OutPoint :=
  (List.range tx.outputs.length).map tx.outpoint

/-- An output that becomes a coin is worth something and keeps its value. -/
theorem TxOutput.toCoin_eq_some {out : TxOutput} {height : UInt32} {isCoinbase : Bool} {coin : Coin}
    (becomes : out.toCoin height isCoinbase = some coin) :
    0 < out.value ∧ ∃ pubkeyHash, extractPubkeyHash out.scriptPubKey = some pubkeyHash ∧
      coin = Coin.ofOutput out.value pubkeyHash height isCoinbase := by
  unfold TxOutput.toCoin at becomes
  split at becomes
  · cases becomes
  · split at becomes
    · cases becomes
    · rename_i worth
      split at becomes
      · cases becomes
      · rename_i pubkeyHash paid
        cases becomes
        exact ⟨Int64.not_le.mp worth, pubkeyHash, paid, rfl⟩

theorem Transaction.isSpent_newCoinAt {tx : Transaction} {height : UInt32} {isCoinbase : Bool}
    {outpoint : OutPoint} {coin : Coin}
    (new : tx.newCoinAt height isCoinbase outpoint = some coin) : coin.isSpent = false := by
  unfold Transaction.newCoinAt at new
  split at new
  · obtain ⟨out, -, becomes⟩ := Option.bind_eq_some_iff.mp new
    obtain ⟨-, _, -, rfl⟩ := TxOutput.toCoin_eq_some becomes
    rfl
  · cases new

theorem Transaction.mem_outpoints {tx : Transaction} {outpoint : OutPoint} :
    outpoint ∈ tx.outpoints ↔
      outpoint.txHash = tx.hash ∧ outpoint.index.toNat < tx.outputs.length := by
  simp only [Transaction.outpoints, List.mem_map, List.mem_range]
  constructor
  · rintro ⟨i, lt, rfl⟩
    exact ⟨rfl, by rw [Transaction.outpoint, tx.toNat_outputIndex lt]; exact lt⟩
  · rintro ⟨hash, lt⟩
    refine ⟨outpoint.index.toNat, lt, ?_⟩
    cases outpoint
    simp_all [Transaction.outpoint]

/-- A transaction adds coins under its own outpoints only. -/
theorem Transaction.mem_outpoints_of_newCoinAt {tx : Transaction} {height : UInt32}
    {isCoinbase : Bool} {outpoint : OutPoint} {coin : Coin}
    (new : tx.newCoinAt height isCoinbase outpoint = some coin) : outpoint ∈ tx.outpoints := by
  unfold Transaction.newCoinAt at new
  split at new
  · rename_i hash
    obtain ⟨out, found, -⟩ := Option.bind_eq_some_iff.mp new
    exact Transaction.mem_outpoints.mpr ⟨hash, (List.getElem?_eq_some_iff.mp found).1⟩
  · cases new

/-- The list of added coins and the coin added at one outpoint say the same. -/
theorem Transaction.mem_newCoins {tx : Transaction} {height : UInt32} {isCoinbase : Bool}
    {outpoint : OutPoint} {coin : Coin} :
    (outpoint, coin) ∈ tx.newCoins height isCoinbase ↔
      tx.newCoinAt height isCoinbase outpoint = some coin := by
  simp only [Transaction.newCoins, List.mem_filterMap, Prod.exists, Option.map_eq_some_iff,
    Prod.mk.injEq, List.mem_zipIdx_iff_getElem?]
  constructor
  · rintro ⟨out, i, found, c, becomes, rfl, rfl⟩
    have index := tx.toNat_outputIndex (List.getElem?_eq_some_iff.mp found).1
    simp [Transaction.newCoinAt, Transaction.outpoint, index, found, becomes]
  · intro new
    obtain ⟨hash, lt⟩ := Transaction.mem_outpoints.mp (Transaction.mem_outpoints_of_newCoinAt new)
    simp only [Transaction.newCoinAt, hash, if_true] at new
    obtain ⟨out, found, becomes⟩ := Option.bind_eq_some_iff.mp new
    refine ⟨out, outpoint.index.toNat, found, coin, becomes, ?_, rfl⟩
    cases outpoint
    simp_all [Transaction.outpoint]

end QmaskCore
