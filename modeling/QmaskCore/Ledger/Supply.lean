import Mathlib.Algebra.BigOperators.Group.Finset.Piecewise
import Mathlib.Algebra.BigOperators.Intervals
import Mathlib.Algebra.Order.BigOperators.Group.Finset
import Mathlib.Order.Interval.Finset.Nat
import QmaskCore.Validation.Rules
import QmaskCore.Ledger.ActiveChain

/-!
No inflation.

`CoinStore.total` is what all coins of a store are worth. A payment that is
applied never raises it (`Payable.total_after_le`): its inputs are distinct, and
what they are worth covers its outputs. A coinbase raises it by what it pays out
at most, which validation holds to the subsidy. `coins_within_subsidies` is the
statement for the node.
-/

namespace QmaskCore

namespace CoinStore

/-- The value under an outpoint, nothing where there is no coin. -/
def worth (V : CoinStore) (o : OutPoint) : Int := (V.getCoin o).elim 0 (·.value.toInt)

def total (V : CoinStore) : Int := ∑ o ∈ V.coins.keys, V.worth o

theorem worth_of_not_mem {V : CoinStore} {o : OutPoint} (absent : o ∉ V.coins.keys) :
    V.worth o = 0 := by
  have none : V.getCoin o = none :=
    Finmap.lookup_eq_none.mpr fun mem => absent (Finmap.mem_keys.mpr mem)
  rw [worth, none]
  rfl

/-- The total can be taken over any set that holds all coins. -/
theorem total_eq_sum {V : CoinStore} {S : Finset OutPoint} (sub : V.coins.keys ⊆ S) :
    V.total = ∑ o ∈ S, V.worth o :=
  Finset.sum_subset sub fun _ _ absent => worth_of_not_mem absent

/-- A change at one outpoint changes the total by as much. -/
theorem total_change {V W : CoinStore} {o : OutPoint} {value : Int}
    (change : ∀ o', W.worth o' = if o' = o then value else V.worth o') :
    W.total = V.total - V.worth o + value := by
  let S := insert o (V.coins.keys ∪ W.coins.keys)
  have here : o ∈ S := Finset.mem_insert_self _ _
  have inV : V.coins.keys ⊆ S :=
    fun _ mem => Finset.mem_insert_of_mem (Finset.mem_union_left _ mem)
  have inW : W.coins.keys ⊆ S :=
    fun _ mem => Finset.mem_insert_of_mem (Finset.mem_union_right _ mem)
  have updated : W.worth = Function.update V.worth o value := by
    funext o'
    rw [change, Function.update_apply]
  rw [total_eq_sum inV, total_eq_sum inW, updated, Finset.sum_update_of_mem here,
    ← Finset.add_sum_erase S V.worth here, Finset.sdiff_singleton_eq_erase]
  ring

theorem worth_erase (V : CoinStore) (o o' : OutPoint) :
    (V.erase o).worth o' = if o' = o then 0 else V.worth o' := by
  rw [worth, getCoin_erase]
  split <;> rfl

theorem total_erase (V : CoinStore) (o : OutPoint) : (V.erase o).total = V.total - V.worth o := by
  rw [total_change (V.worth_erase o), add_zero]

theorem total_put {V : CoinStore} {o : OutPoint} {c : Coin} (unspent : c.isSpent = false) :
    (V.put o c).total = V.total - V.worth o + c.value.toInt := by
  refine total_change fun o' => ?_
  rw [worth, getCoin_put, unspent]
  split <;> rfl

@[simp] theorem total_markAll (V : CoinStore) (keys : List NoiseLeafKey) :
    (V.markAll keys).total = V.total := by
  have coins : ∀ (keys : List NoiseLeafKey) (V : CoinStore),
      (V.markAll keys).coins = V.coins := by
    intro keys
    induction keys with
    | nil => exact fun _ => rfl
    | cons key keys ih => exact fun V => ih (V.mark key)
  unfold total worth getCoin
  rw [coins]

/-- Taking distinct coins out takes out what they are worth. -/
theorem total_eraseAll : ∀ {os : List OutPoint} {V : CoinStore}, os.Nodup →
    (V.eraseAll os).total = V.total - (os.map V.worth).sum := by
  intro os
  induction os with
  | nil => exact fun _ => by simp [eraseAll]
  | cons o os ih =>
      intro V distinct
      obtain ⟨absent, rest⟩ := List.nodup_cons.mp distinct
      have same : os.map (V.erase o).worth = os.map V.worth := by
        refine List.map_congr_left fun o' mem => ?_
        rw [worth_erase, if_neg]
        rintro rfl
        exact absent mem
      change ((V.erase o).eraseAll os).total = _
      rw [ih rest, same, total_erase, List.map_cons, List.sum_cons]
      ring

/-- No coin is worth less than nothing. -/
def Positive (V : CoinStore) : Prop := ∀ {o c}, V.getCoin o = some c → 0 ≤ c.value.toInt

theorem Positive.worth_nonneg {V : CoinStore} (positive : V.Positive) (o : OutPoint) :
    0 ≤ V.worth o := by
  unfold worth
  cases found : V.getCoin o with
  | none => exact le_rfl
  | some c => exact positive found

theorem Positive.put {V : CoinStore} (positive : V.Positive) {o : OutPoint} {c : Coin}
    (nonneg : 0 ≤ c.value.toInt) : (V.put o c).Positive := by
  intro o' c' found
  rw [getCoin_put] at found
  split at found
  · split at found
    · cases found
    · cases found
      exact nonneg
  · exact positive found

/-- Coins put in raise the total by what they are worth at most. -/
theorem total_putAll_le : ∀ {l : List (OutPoint × Coin)} {V : CoinStore}, V.Positive →
    (∀ found ∈ l, found.2.isSpent = false ∧ 0 ≤ found.2.value.toInt) →
    (V.putAll l).total ≤ V.total + (l.map (·.2.value.toInt)).sum := by
  intro l
  induction l with
  | nil => exact fun _ _ => by simp [putAll]
  | cons found l ih =>
      intro V positive each
      obtain ⟨unspent, nonneg⟩ := each found List.mem_cons_self
      have rest := ih (positive.put (o := found.1) nonneg)
        fun f mem => each f (List.mem_cons_of_mem _ mem)
      have before := positive.worth_nonneg found.1
      change ((V.put found.1 found.2).putAll l).total ≤ _
      rw [total_put unspent] at rest
      rw [List.map_cons, List.sum_cons]
      omega

/-- A store within another is worth no more. -/
theorem Within.total_le {V W : CoinStore} (within : V.Within W) (positive : W.Positive) :
    V.total ≤ W.total := by
  let S := V.coins.keys ∪ W.coins.keys
  rw [total_eq_sum (S := S) Finset.subset_union_left,
    total_eq_sum (S := S) Finset.subset_union_right]
  refine Finset.sum_le_sum fun o _ => ?_
  cases found : V.getCoin o with
  | none =>
      rw [worth, found]
      exact positive.worth_nonneg o
  | some c => rw [worth, worth, found, within.coins found]

end CoinStore

/-! ### Transactions -/

/-- What the outputs of a transaction are worth, one below zero counting for nothing. -/
def Transaction.paidOut (tx : Transaction) : Int :=
  (tx.outputs.map fun out => max out.value.toInt 0).sum

theorem Transaction.paidOut_eq {tx : Transaction} (nonneg : ∀ out ∈ tx.outputs, 0 ≤ out.value) :
    tx.paidOut = tx.totalOut := by
  unfold paidOut totalOut
  congr 1
  refine List.map_congr_left fun out mem => max_eq_left ?_
  exact Int64.le_iff_toInt_le.mp (nonneg out mem)

/-- The coins a transaction creates are worth no more than its outputs. -/
theorem Transaction.sum_newCoins_le (tx : Transaction) (height : UInt32) (isCoinbase : Bool) :
    ((tx.newCoins height isCoinbase).map (·.2.value.toInt)).sum ≤ tx.paidOut := by
  have each : ∀ (outs : List TxOutput) (i : Nat),
      (((outs.zipIdx i).filterMap fun out =>
        (out.1.toCoin height isCoinbase).map fun coin => (tx.outpoint out.2, coin)).map
          (·.2.value.toInt)).sum ≤ (outs.map fun out => max out.value.toInt 0).sum := by
    intro outs
    induction outs with
    | nil => simp
    | cons out outs ih =>
        intro i
        have rest := ih (i + 1)
        rw [List.zipIdx_cons, List.map_cons, List.sum_cons]
        cases becomes : out.toCoin height isCoinbase with
        | none =>
            rw [List.filterMap_cons_none (by simp [becomes])]
            omega
        | some coin =>
            obtain ⟨-, _, -, rfl⟩ := TxOutput.toCoin_eq_some becomes
            rw [List.filterMap_cons_some (by rw [becomes]; rfl), List.map_cons, List.sum_cons]
            exact add_le_add (le_max_left _ _) rest
  exact each tx.outputs 0

/-- Coins found under outpoints are what the outpoints are worth. -/
theorem CoinsView.sum_worth {V : CoinStore} : ∀ {inputs : List TxInput} {coins : List Coin},
    V.view.coinsOf inputs = some coins →
    ((inputs.map (·.outpoint)).map V.worth).sum = (coins.map (·.value.toInt)).sum := by
  intro inputs
  induction inputs with
  | nil =>
      intro coins found
      cases found
      rfl
  | cons input inputs ih =>
      intro coins found
      rw [CoinsView.coinsOf] at found
      cases head : V.getCoin input.outpoint with
      | none => simp [CoinStore.view, head] at found
      | some coin =>
          simp only [CoinStore.view, head, Option.map_eq_some_iff] at found
          obtain ⟨rest, tail, rfl⟩ := found
          simp only [List.map_cons, List.sum_cons]
          rw [ih tail, CoinStore.worth, head]
          rfl

/-- A total that is reported is the sum. -/
theorem toInt_inputTotal {P : Params} : ∀ {coins : List Coin} {valueIn total : Int64},
    inputTotal P valueIn coins = some total →
    total.toInt = valueIn.toInt + (coins.map (·.value.toInt)).sum := by
  intro coins
  induction coins with
  | nil =>
      intro valueIn total sum
      cases sum
      simp
  | cons coin coins ih =>
      intro valueIn total sum
      rw [inputTotal] at sum
      split at sum
      · cases sum
      · rename_i low
        dsimp only at sum
        split at sum
        · cases sum
        · rename_i wraps
          have nonneg := Int64.le_iff_toInt_le.mp (Int64.not_lt.mp fun negative => low (.inl negative))
          have grows := Int64.le_iff_toInt_le.mp (Int64.not_lt.mp fun less => wraps (.inl less))
          -- A sum that wrapped would have come out below where it started.
          have exact : (valueIn + coin.value).toInt = valueIn.toInt + coin.value.toInt := by
            have lowIn := valueIn.le_toInt
            have highIn := valueIn.toInt_lt
            have high := coin.value.toInt_lt
            rw [Int64.toInt_zero] at nonneg
            rw [Int64.toInt_add] at grows ⊢
            by_cases fits : valueIn.toInt + coin.value.toInt < 2 ^ 63
            · exact bmod_fits (by omega) fits
            · have wrapped : (valueIn.toInt + coin.value.toInt).bmod (2 ^ 64) =
                  valueIn.toInt + coin.value.toInt - 2 ^ 64 := by
                have turn := Int.add_bmod_right (valueIn.toInt + coin.value.toInt - 2 ^ 64) (2 ^ 64)
                rw [← bmod_fits (n := valueIn.toInt + coin.value.toInt - 2 ^ 64) (by omega)
                  (by omega), ← turn]
                congr 1
                omega
              omega
          rw [ih sum, exact, List.map_cons, List.sum_cons]
          ring

theorem CoinStore.Positive.after {V : CoinStore} (positive : V.Positive) (height : UInt32)
    (tx : Transaction) : (V.after height tx).Positive := by
  intro o c found
  rw [CoinStore.getCoin_after] at found
  cases new : tx.creates height o with
  | some c' =>
      rw [new, Option.some_or] at found
      cases found
      unfold Transaction.creates Transaction.newCoinAt at new
      split at new
      · obtain ⟨out, -, becomes⟩ := Option.bind_eq_some_iff.mp new
        have worth := (TxOutput.toCoin_eq_some becomes).1
        obtain ⟨-, _, -, rfl⟩ := TxOutput.toCoin_eq_some becomes
        rw [Int64.lt_iff_toInt_lt, Int64.toInt_zero] at worth
        exact worth.le
      · cases new
  | none =>
      rw [new, Option.none_or] at found
      split at found
      · cases found
      · exact positive found

/-- Adding the coins of a transaction to what its inputs leave. -/
theorem CoinStore.total_after_le {V : CoinStore} (positive : V.Positive) (height : UInt32)
    {tx : Transaction} (distinct : tx.spends.Nodup) :
    (V.after height tx).total ≤ V.total - (tx.spends.map V.worth).sum + tx.paidOut := by
  have erased : ((V.eraseAll tx.spends).markAll tx.reveals).Positive := by
    intro o c found
    rw [getCoin_markAll, getCoin_eraseAll] at found
    split at found
    · cases found
    · exact positive found
  have added := total_putAll_le (l := tx.newCoins height tx.isCoinbase) erased (by
    rintro ⟨o, c⟩ mem
    have new := Transaction.mem_newCoins.mp mem
    have found : (V.after height tx).getCoin o = some c := by
      rw [getCoin_after, Transaction.creates, new, Option.some_or]
    exact ⟨Transaction.isSpent_newCoinAt new, positive.after height tx found⟩)
  have outs := tx.sum_newCoins_le height tx.isCoinbase
  rw [total_markAll, total_eraseAll distinct] at added
  unfold after
  omega

/-- A payment whose inputs are distinct creates no value. -/
theorem Payable.total_after_le {P : Params} (exact : P.ValueOutExact) {V : CoinStore}
    (positive : V.Positive) {tx : Transaction} {coins : List Coin} (payable : Payable P V tx coins)
    (payment : tx.isCoinbase = false) (distinct : (tx.inputs.map (·.outpoint)).Nodup)
    (height : UInt32) : (V.after height tx).total ≤ V.total := by
  obtain ⟨valueIn, total, covers⟩ := payable.covers
  obtain ⟨nonneg, value⟩ := exact.of_nonneg (Int64.not_lt.mp fun low => covers (.inl low))
  have sum := toInt_inputTotal total
  have enough := Int64.le_iff_toInt_le.mp (Int64.not_lt.mp fun hit => covers (.inr hit))
  have spends := tx.spends_payment payment
  have added := CoinStore.total_after_le positive height (spends ▸ distinct)
  have inputs := CoinsView.sum_worth payable.found
  rw [spends, inputs, Transaction.paidOut_eq nonneg] at added
  rw [Int64.toInt_zero] at sum
  omega

/-! ### Blocks and chains -/

theorem CoinStore.Positive.afterAll {height : UInt32} : ∀ {txs : List Transaction} {V : CoinStore},
    V.Positive → (V.afterAll height txs).Positive := by
  intro txs
  induction txs with
  | nil => exact fun positive => positive
  | cons tx txs ih => exact fun positive => ih (positive.after height tx)

/-- What bounds the value a block brings in, whatever the coins it is applied to. -/
structure ValueRules (P : Params) (height : Nat) (block : Block) : Prop where
  distinct : ∀ tx ∈ block.payments, (tx.inputs.map (·.outpoint)).Nodup
  reward : ∀ tx ∈ block.coinbase?, 0 ≤ P.getValueOut tx ∧
    (P.getValueOut tx).toUInt64 ≤ P.getBlockSubsidy (UInt64.ofNat height)

theorem BlockRules.value {P : Params} {view : CoinsView} {height : Nat} {block : Block}
    (rules : BlockRules P view (UInt32.ofNat height) block) (fits : height < UInt32.size) :
    ValueRules P height block where
  distinct tx mem := (rules.payments tx mem).distinct
  reward := by
    intro tx coinbase
    obtain ⟨tx', found, nonneg, limit⟩ := rules.coinbase
    rw [found] at coinbase
    cases coinbase
    have same : (UInt32.ofNat height).toUInt64 = UInt64.ofNat height := by
      apply UInt64.toNat_inj.mp
      rw [UInt32.toNat_toUInt64, UInt32.toNat_ofNat_of_lt' fits,
        UInt64.toNat_ofNat_of_lt' (fits.trans (by decide))]
    exact ⟨nonneg, same ▸ limit⟩

theorem PaysAll.total_le {P : Params} (exact : P.ValueOutExact) {height : UInt32} :
    ∀ {done : List (Transaction × List Coin)} {V : CoinStore}, V.Positive →
    PaysAll P height V done → (∀ d ∈ done, d.1.isCoinbase = false) →
    (∀ d ∈ done, (d.1.inputs.map (·.outpoint)).Nodup) →
    (V.afterAll height (done.map (·.1))).total ≤ V.total := by
  intro done
  induction done with
  | nil => exact fun _ _ _ _ => le_rfl
  | cons d done ih =>
      intro V positive pays payments distinct
      have here := pays.1.total_after_le exact positive (payments d List.mem_cons_self)
        (distinct d List.mem_cons_self) height
      exact (ih (positive.after height d.1) pays.2
        (fun e mem => payments e (List.mem_cons_of_mem _ mem))
        (fun e mem => distinct e (List.mem_cons_of_mem _ mem))).trans here

/-- A block raises the total by its subsidy at most. -/
theorem AppliesWith.total_le {P : Params} (exact : P.ValueOutExact) {height : UInt32} {n : Nat}
    {V : CoinStore} (positive : V.Positive) {block : Block} {done : List (Transaction × List Coin)}
    (applies : AppliesWith P height V block done) (rules : ValueRules P n block) :
    (V.afterAll height block.transactions).total ≤
      V.total + (P.getBlockSubsidy (UInt64.ofNat n)).toNat := by
  have pays := applies.pays
  have distinct : ∀ d ∈ done, (d.1.inputs.map (·.outpoint)).Nodup := by
    intro d mem
    exact rules.distinct d.1 (by rw [applies.all]; exact List.mem_map_of_mem mem)
  unfold BlockPays at pays
  rw [← applies.afterAll]
  refine (pays.total_le exact positive.afterAll applies.of_done distinct).trans ?_
  cases coinbase : block.coinbase? with
  | none =>
      change V.total ≤ _
      omega
  | some tx =>
      obtain ⟨nonneg, limit⟩ := rules.reward tx coinbase
      obtain ⟨outs, value⟩ := exact.of_nonneg nonneg
      have spends : tx.spends = [] := by
        simp [Transaction.spends, block.isCoinbase_of_mem coinbase]
      have added := CoinStore.total_after_le positive height (show tx.spends.Nodup by simp [spends])
      rw [spends, Transaction.paidOut_eq outs, ← value, ← toNat_toUInt64 nonneg] at added
      have capped := UInt64.le_iff_toNat_le.mp limit
      change (V.after height tx).total ≤ _
      simp only [List.map_nil, List.sum_nil] at added
      omega

/-- What the genesis outputs are worth. -/
def genesisValue (P : Params) : Int := (P.buildGenesisBlock.transactions.map (·.paidOut)).sum

/-- The subsidies of the heights from one to `n`. -/
def subsidies (P : Params) (n : Nat) : Int :=
  ∑ h ∈ Finset.Icc 1 n, ((P.getBlockSubsidy (UInt64.ofNat h)).toNat : Int)

theorem subsidies_succ (P : Params) (n : Nat) :
    subsidies P (n + 1) = subsidies P n + (P.getBlockSubsidy (UInt64.ofNat (n + 1))).toNat :=
  Finset.sum_Icc_succ_top (Nat.le_add_left 1 n) _

theorem total_genesisStore_le {P : Params} (sound : P.SoundGenesis) :
    (genesisStore P).total ≤ genesisValue P := by
  obtain ⟨tx, only, coinbase⟩ := sound.transactions
  have positive : CoinStore.empty.Positive := nofun
  have spends : tx.spends = [] := by simp [Transaction.spends, coinbase]
  have added := CoinStore.total_after_le positive 0 (show tx.spends.Nodup by simp [spends])
  have none : CoinStore.empty.total = 0 := rfl
  rw [spends, none] at added
  rw [genesisStore, genesisValue, only]
  change (CoinStore.empty.after 0 tx).total ≤ _
  simpa using added

/-- Every block of a chain keeps to the rules at its height. -/
def ChainRules (P : Params) : List Connected → Prop
  | [] => True
  | c :: rest => ValueRules P (rest.length + 1) c.block ∧ ChainRules P rest

/-- Coins that come from a chain are worth no more than genesis and the subsidies. -/
theorem Backed.total_le {P : Params} (sound : P.SoundGenesis) (exact : P.ValueOutExact)
    {chain : List Connected} {V : CoinStore} (backed : Backed P chain V) :
    ChainRules P chain → V.Positive ∧ V.total ≤ genesisValue P + subsidies P chain.length := by
  induction backed with
  | @genesis V base =>
      intro _
      have positive : (genesisStore P).Positive :=
        CoinStore.Positive.afterAll (V := CoinStore.empty) nofun
      have none : subsidies P ([] : List Connected).length = 0 := rfl
      refine ⟨fun found => positive (base.coins found), ?_⟩
      rw [none, add_zero]
      exact (base.total_le positive).trans (total_genesisStore_le sound)
  | @block c rest V₀ V _ applies base ih =>
      rintro ⟨rules, below⟩
      obtain ⟨positive, bound⟩ := ih below
      have added := applies.total_le exact positive rules
      refine ⟨fun found => positive.afterAll (base.coins found), ?_⟩
      rw [List.length_cons, subsidies_succ]
      have less := base.total_le positive.afterAll
      omega

/-! ### The node -/

theorem UTXOSet.total_toCoinStore (u : UTXOSet) :
    u.toCoinStore.total = ((u.walkCoins fun _ => true).map (·.2.value.toInt)).sum := by
  have all : u.toCoinStore.coins.keys ⊆ ((u.walkCoins fun _ => true).map (·.1)).toFinset := by
    intro o mem
    obtain ⟨c, found⟩ := Finmap.mem_iff.mp (Finmap.mem_keys.mp mem)
    have walked : (o, c) ∈ u.walkCoins fun _ => true :=
      mem_walkCoins.mpr ⟨(u.getCoin_toCoinStore o).symm.trans found, rfl⟩
    exact List.mem_toFinset.mpr (List.mem_map.mpr ⟨_, walked, rfl⟩)
  rw [CoinStore.total_eq_sum all, List.sum_toFinset _ (u.nodup_walkCoins _), List.map_map]
  congr 1
  refine List.map_congr_left ?_
  rintro ⟨o, c⟩ mem
  simp [CoinStore.worth, (mem_walkCoins.mp mem).1]

/-- A chain of stored blocks keeps to the rules: each block was admitted at its height. -/
theorem Ledger.Moves.chainRules {P : Params} {given : Block → Prop} {L : Ledger}
    (start : (initial P).Valid P) (moves : Moves P given (fun _ => False) (initial P) L) :
    ChainRules P L.chain := by
  have valid := Moves.valid moves (fun _ => nofun) start
  have each : ∀ {chain : List Connected}, Linked P L.tree (chain.map (·.block)) →
      ChainRules P chain := by
    intro chain
    induction chain with
    | nil => exact fun _ => trivial
    | cons c rest ih =>
        rintro ⟨stored, -, below⟩
        refine ⟨?_, ih below⟩
        have above : c.block.getHash P.sha256 ≠ P.genesisHash := by
          intro genesis
          have zero := (valid.height_eq_zero stored).mpr genesis
          rw [height_topBlock] at zero
          cases zero
        obtain ⟨now, L₀, parent, -, -, -, -, admitted, grown⟩ := moves.admitted start stored above
        have height : rest.length + 1 = parent.height + 1 := by
          have same := congrArg StoredBlock.height grown
          rw [height_topBlock, List.length_cons, List.length_map] at same
          exact same
        rw [height]
        refine (rules_of_admits admitted).value ?_
        rw [← height_of_admits admitted]
        exact UInt32.toNat_lt _
  exact each valid.linked

/-- **No inflation.** Whatever is delivered to a node, its unspent coins together
are worth no more than the genesis outputs and the subsidies up to its tip. -/
theorem coins_within_subsidies {P : Params} (sound : P.SoundGenesis) (exact : P.ValueOutExact)
    {s₀ : ChainState} (opened : ChainState.initializeState P (.ofDisk .empty) = .ok s₀)
    (deliveries : List (UInt64 × Block)) :
    (((s₀.acceptAll P deliveries).mUTXOSet.walkCoins fun _ => true).map
        (·.2.value.toInt)).sum ≤
      genesisValue P + subsidies P (s₀.acceptAll P deliveries).mBestChain.height := by
  obtain ⟨L, rep, moves⟩ := accepted deliveries sound opened
  have start := (represents_initial sound opened).valid
  rw [← UTXOSet.total_toCoinStore, rep.coins, rep.height]
  exact (rep.valid.backed.total_le sound exact (moves.chainRules start)).2

open SmallNetwork in
theorem coins_within_subsidies_blockOne :
    (((node.acceptAll smallNetwork [(20, blockOne)]).mUTXOSet.walkCoins fun _ => true).map
        (·.2.value.toInt)).sum ≤
      genesisValue smallNetwork +
        subsidies smallNetwork (node.acceptAll smallNetwork [(20, blockOne)]).mBestChain.height :=
  coins_within_subsidies soundGenesis_smallNetwork valueOutExact_smallNetwork node_opened _

end QmaskCore
