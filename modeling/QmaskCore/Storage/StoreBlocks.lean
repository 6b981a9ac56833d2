import QmaskCore.Storage.BlockApply
import QmaskCore.Storage.CachedStore

/-!
What blocks do to a store of coins.

`CoinStore.after` is the effect of one transaction once it is applied: its
inputs' coins go, its leaves are spent, its outputs become coins.
`applyBlockTwoPhase_eq_some` says a block that is applied has the effect of its
transactions one after the other, and `Undone` what undoing them gives back:
every coin, except where an output was stored over a coin no earlier
transaction of the block had spent. `toCoinStore_hom` carries all of it to the
cached set.
-/

namespace QmaskCore

theorem UTXOSet.toCoinStore_hom : CoinDB.Hom UTXOSet.toCoinStore where
  view := UTXOSet.view_toCoinStore
  applyTransaction tx height isCoinbase u :=
    (u.toCoinStore_applyTransaction tx height isCoinbase).symm
  undoTransaction tx spentCoins u := (u.toCoinStore_undoTransaction tx spentCoins).symm
  applyTransactionForReplay tx height isCoinbase u :=
    (u.toCoinStore_applyTransactionForReplay tx height isCoinbase).symm

theorem UTXOSet.Steady.keeps {holds : UTXOSet → Prop} (steady : UTXOSet.Steady holds) :
    CoinDB.Keeps holds where
  applyTransaction tx height isCoinbase now := steady.applyTransaction tx height isCoinbase now
  undoTransaction tx spentCoins now := steady.undoTransaction tx spentCoins now
  applyTransactionForReplay tx height isCoinbase now :=
    steady.applyTransactionForReplay tx height isCoinbase now

theorem UTXOSet.wf_keeps : CoinDB.Keeps UTXOSet.WF := UTXOSet.WF.steady.keeps

/-- The outpoints an applied transaction takes away. -/
def Transaction.spends (tx : Transaction) : List OutPoint :=
  if tx.isCoinbase then [] else tx.inputs.map (·.outpoint)

/-- The leaves an applied transaction marks. -/
def Transaction.reveals (tx : Transaction) : List NoiseLeafKey :=
  if tx.isCoinbase then [] else leavesOf tx.inputs

/-- The coin an applied transaction adds under an outpoint. -/
abbrev Transaction.creates (tx : Transaction) (height : UInt32) (outpoint : OutPoint) :
    Option Coin :=
  tx.newCoinAt height tx.isCoinbase outpoint

namespace CoinStore

/-- The store after a transaction, whether or not it could be applied. -/
def after (height : UInt32) (V : CoinStore) (tx : Transaction) : CoinStore :=
  ((V.eraseAll tx.spends).markAll tx.reveals).putAll (tx.newCoins height tx.isCoinbase)

theorem getCoin_after (height : UInt32) (V : CoinStore) (tx : Transaction) (o : OutPoint) :
    (V.after height tx).getCoin o =
      (tx.creates height o).or (if o ∈ tx.spends then none else V.getCoin o) := by
  rw [after, getCoin_putAll_newCoins, getCoin_markAll, getCoin_eraseAll]

@[simp] theorem leaves_after (height : UInt32) (V : CoinStore) (tx : Transaction) :
    (V.after height tx).leaves = tx.reveals.toFinset ∪ V.leaves := by
  simp [after]

/-- What a transaction does not touch stays. -/
theorem getCoin_after_of_untouched {height : UInt32} {V : CoinStore} {tx : Transaction}
    {o : OutPoint} (kept : o ∉ tx.spends) (notOwn : o ∉ tx.outpoints) :
    (V.after height tx).getCoin o = V.getCoin o := by
  have new : tx.creates height o = none := by
    by_contra some
    obtain ⟨c, new⟩ := Option.ne_none_iff_exists'.mp some
    exact notOwn (Transaction.mem_outpoints_of_newCoinAt new)
  rw [getCoin_after, new, if_neg kept, Option.none_or]

/-- No coin lies under the index a coinbase names. -/
def NullFree (V : CoinStore) : Prop := ∀ o, o.index = 0xFFFFFFFF → V.getCoin o = none

theorem nullFree_empty : empty.NullFree := fun _ _ => rfl

theorem NullFree.after {V : CoinStore} (free : V.NullFree) (height : UInt32) (tx : Transaction) :
    (V.after height tx).NullFree := by
  intro o null
  rw [getCoin_after, free o null, ite_self, Option.or_none]
  by_contra created
  obtain ⟨c, new⟩ := Option.ne_none_iff_exists'.mp created
  have bound := (Transaction.mem_outpoints.mp (Transaction.mem_outpoints_of_newCoinAt new)).2
  have few := tx.outputs_le
  rw [null] at bound
  have large : Transaction.maxOutputs < (0xFFFFFFFF : UInt32).toNat := by decide
  omega

/-- A coinbase never finds its inputs. -/
theorem NullFree.coinsOf_eq_none {V : CoinStore} (free : V.NullFree) {tx : Transaction}
    (shape : tx.CoinbaseShape) (coinbase : tx.isCoinbase = true) :
    V.view.coinsOf tx.inputs = none := by
  obtain ⟨input, mem, null⟩ := shape coinbase
  by_contra complete
  obtain ⟨coins, found⟩ := Option.ne_none_iff_exists'.mp complete
  obtain ⟨i, lt, rfl⟩ := List.mem_iff_getElem.mp mem
  have len := CoinsView.length_coinsOf found
  have pair : (tx.inputs[i], coins[i]) ∈ tx.inputs.zip coins := by
    rw [List.mem_iff_getElem]
    exact ⟨i, by simp [len, lt], by simp⟩
  have coin : V.getCoin tx.inputs[i].outpoint = some coins[i] :=
    CoinsView.getCoin_of_mem_zip found _ pair
  rw [free _ null] at coin
  cases coin

end CoinStore

/-! ### One payment -/

/-- Everything `applyPayment` asks of a payment that spends `coins`. -/
structure Payable (P : Params) (V : CoinStore) (tx : Transaction) (coins : List Coin) : Prop where
  found : V.view.coinsOf tx.inputs = some coins
  covers : ∃ valueIn, inputTotal P 0 coins = some valueIn ∧
    ¬ (P.getValueOut tx < 0 ∨ valueIn < P.getValueOut tx)
  parse : ProofsParse tx.inputs
  claim : Claimable V.isNoiseLeafSpent [] (leavesOf tx.inputs)

theorem applyPayment_eq_some {P : Params} {height : UInt32} {tx : Transaction}
    {coins : List Coin} {V V' : CoinStore} (payment : tx.isCoinbase = false) :
    applyPayment P height tx V = (some coins, V') ↔
      Payable P V tx coins ∧ V' = V.after height tx := by
  have effect : ((V.eraseAll (tx.inputs.map (·.outpoint))).markAll (leavesOf tx.inputs)).putAll
      (tx.newCoins height false) = V.after height tx := by
    simp [CoinStore.after, Transaction.spends, Transaction.reveals, payment]
  have view : CoinDB.view V = V.view := rfl
  have applies : CoinDB.applyTransaction tx height false V = V.applyTransaction tx height false :=
    rfl
  simp only [applyPayment, view, applies]
  constructor
  · intro applied
    split at applied
    · cases applied
    · rename_i cs found
      split at applied
      · cases applied
      · rename_i valueIn total
        split at applied
        · cases applied
        · rename_i covers
          simp only [CoinStore.applyTransaction, Bool.false_eq_true, if_false, found] at applied
          split at applied
          · rename_i ok
            cases applied
            exact ⟨⟨found, ⟨valueIn, total, covers⟩, ok.1, ok.2⟩, effect⟩
          · cases applied
  · rintro ⟨⟨found, ⟨valueIn, total, covers⟩, parse, claim⟩, rfl⟩
    simp only [found, total, covers, if_false, CoinStore.applyTransaction, Bool.false_eq_true,
      parse, claim, and_self, if_true, effect]

/-- A refused payment changes nothing. -/
theorem applyPayment_eq_none {P : Params} {height : UInt32} {tx : Transaction}
    {V V' : CoinStore} (refused : applyPayment P height tx V = (none, V')) : V' = V := by
  unfold applyPayment at refused
  split at refused
  · cases refused; rfl
  · split at refused
    · cases refused; rfl
    · split at refused
      · cases refused; rfl
      · change V.applyTransaction tx height false = _ at refused
        simp only [CoinStore.applyTransaction, Bool.false_eq_true, if_false] at refused
        split at refused
        · cases refused; rfl
        · split at refused
          · cases refused
          · cases refused; rfl

/-! ### Several payments -/

/-- The store after several transactions. -/
def CoinStore.afterAll (height : UInt32) (V : CoinStore) (txs : List Transaction) : CoinStore :=
  txs.foldl (CoinStore.after height) V

/-- The leaves of several transactions join those spent before. -/
theorem CoinStore.leaves_afterAll {height : UInt32} : ∀ (txs : List Transaction) (V : CoinStore),
    (V.afterAll height txs).leaves = (txs.flatMap (·.reveals)).toFinset ∪ V.leaves := by
  intro txs
  induction txs with
  | nil => exact fun V => by simp [afterAll]
  | cons tx txs ih =>
      intro V
      have rest := ih (V.after height tx)
      rw [afterAll, List.foldl_cons, ← afterAll, rest, leaves_after]
      ext key
      simp only [List.flatMap_cons, List.toFinset_append, Finset.mem_union]
      tauto

/-- Each payment is payable in the store the ones before it leave. -/
def PaysAll (P : Params) (height : UInt32) : CoinStore → List (Transaction × List Coin) → Prop
  | _, [] => True
  | V, (tx, coins) :: rest =>
      Payable P V tx coins ∧ PaysAll P height (V.after height tx) rest

/-- A coinbase out of place is refused. -/
theorem applyPayment_of_coinbase {P : Params} {height : UInt32} {tx : Transaction} {V : CoinStore}
    (free : V.NullFree) (shape : tx.CoinbaseShape) (coinbase : tx.isCoinbase = true) :
    applyPayment P height tx V = (none, V) := by
  have missing : (CoinDB.view V).coinsOf tx.inputs = none := free.coinsOf_eq_none shape coinbase
  rw [applyPayment, missing]

/-- The payments that go through are a payable start of the list, all of it when the flag says so. -/
theorem applyPayments_spec {P : Params} {height : UInt32} : ∀ {txs : List Transaction}
    {applied out : List (Transaction × List Coin)} {V V' : CoinStore} {ok : Bool},
    V.NullFree → (∀ tx ∈ txs, tx.CoinbaseShape) →
    applyPayments P height applied txs V = (ok, out, V') →
    ∃ done rest, txs = done.map (·.1) ++ rest ∧ (∀ d ∈ done, d.1.isCoinbase = false) ∧
      PaysAll P height V done ∧ V' = V.afterAll height (done.map (·.1)) ∧
      out = done.reverse ++ applied ∧ (ok = true ↔ rest = []) := by
  intro txs
  induction txs with
  | nil =>
      intro applied out V V' ok _ _ ran
      cases ran
      exact ⟨[], [], rfl, by simp, trivial, rfl, rfl, by simp⟩
  | cons tx txs ih =>
      intro applied out V V' ok free shape ran
      have here := shape tx List.mem_cons_self
      rw [applyPayments] at ran
      rcases step : applyPayment P height tx V with ⟨_ | spent, W⟩
      · have same := applyPayment_eq_none step
        rw [step] at ran
        cases ran
        exact ⟨[], tx :: txs, rfl, by simp, trivial, same, rfl, by simp⟩
      · cases coinbase : tx.isCoinbase with
        | true =>
            rw [applyPayment_of_coinbase free here coinbase] at step
            cases step
        | false =>
            obtain ⟨payable, rfl⟩ := (applyPayment_eq_some coinbase).mp step
            rw [step] at ran
            obtain ⟨done, rest, rfl, payments, pays, rfl, rfl, all⟩ :=
              ih (free.after height tx) (fun t mem => shape t (List.mem_cons_of_mem _ mem)) ran
            refine ⟨(tx, spent) :: done, rest, rfl, ?_, ⟨payable, pays⟩, rfl, by simp, all⟩
            intro d mem
            rcases List.mem_cons.mp mem with rfl | mem
            · exact coinbase
            · exact payments d mem

/-- Payments each payable in turn all go through. -/
theorem applyPayments_of_paysAll {P : Params} {height : UInt32} :
    ∀ {done applied : List (Transaction × List Coin)} {V : CoinStore},
    (∀ d ∈ done, d.1.isCoinbase = false) → PaysAll P height V done →
    applyPayments P height applied (done.map (·.1)) V =
      (true, done.reverse ++ applied, V.afterAll height (done.map (·.1))) := by
  intro done
  induction done with
  | nil => exact fun _ _ => rfl
  | cons d done ih =>
      intro applied V payments pays
      obtain ⟨payable, pays⟩ := pays
      have step := (applyPayment_eq_some (payments d List.mem_cons_self)).mpr
        (show Payable P V d.1 d.2 ∧ V.after height d.1 = _ from ⟨payable, rfl⟩)
      rw [List.map_cons, applyPayments, step]
      refine (ih (fun t mem => payments t (List.mem_cons_of_mem _ mem)) pays).trans ?_
      simp [CoinStore.afterAll]

/-! ### Undoing -/

/-- The store after a transaction is taken back, its inputs getting `coins`. -/
def CoinStore.undone (tx : Transaction) (coins : List Coin) (U : CoinStore) : CoinStore :=
  if tx.isCoinbase then U.eraseAll tx.outpoints
  else ((U.eraseAll tx.outpoints).putAll
    ((tx.inputs.map (·.outpoint)).zip (coins.map Coin.restored))).unmarkAll (leavesOf tx.inputs)

theorem restoreInputs_eq : ∀ {l : List (TxInput × Coin)} {V : CoinStore},
    (∀ found ∈ l, found.1.leaves.2 = true) →
    CoinStore.restoreInputs l V =
      (true, (V.putAll (l.map fun f => (f.1.outpoint, f.2.restored))).unmarkAll
        (leavesOf (l.map (·.1)))) := by
  intro l
  induction l with
  | nil => exact fun _ => rfl
  | cons found l ih =>
      intro V parse
      rw [CoinStore.restoreInputs, if_pos (parse found List.mem_cons_self),
        ih fun f mem => parse f (List.mem_cons_of_mem _ mem)]
      refine Prod.ext rfl (CoinStore.ext_view (fun o => ?_) fun k => ?_)
      · have coins : ∀ (l : List (OutPoint × Coin)) (V W : CoinStore),
            (∀ o, V.getCoin o = W.getCoin o) →
            (V.putAll l).getCoin o = (W.putAll l).getCoin o := by
          intro l
          induction l with
          | nil => exact fun V W same => same o
          | cons f l ihl =>
              intro V W same
              refine ihl _ _ fun o' => ?_
              rw [CoinStore.getCoin_put, CoinStore.getCoin_put, same]
        rw [CoinStore.getCoin_unmarkAll, CoinStore.getCoin_unmarkAll]
        exact coins _ _ _ fun o' => CoinStore.getCoin_unmarkAll _ _ _
      · simp only [List.map_cons, leavesOf_cons, CoinStore.leaves_unmarkAll,
          CoinStore.leaves_putAll, Finset.mem_sdiff, List.mem_toFinset, List.mem_append,
          CoinStore.leaves_put]
        tauto

/-- A coinbase is always taken back; another transaction is when there is a coin
for each input and its proofs parse. -/
theorem undoTransaction_eq {tx : Transaction} {coins : List Coin} (U : CoinStore)
    (fits : tx.isCoinbase = false → coins.length = tx.inputs.length ∧ ProofsParse tx.inputs) :
    CoinDB.undoTransaction tx coins U = (true, U.undone tx coins) := by
  change U.undoTransaction tx coins = _
  unfold CoinStore.undoTransaction CoinStore.undone
  cases coinbase : tx.isCoinbase with
  | true => rfl
  | false =>
      obtain ⟨len, parse⟩ := fits coinbase
      have each : ∀ found ∈ tx.inputs.zip coins, found.1.leaves.2 = true :=
        fun found mem => (parse found.1 (List.of_mem_zip mem).1).2
      simp only [Bool.false_eq_true, if_false, len, ne_eq, not_true_eq_false,
        restoreInputs_eq each]
      rw [List.map_fst_zip len.ge, List.zip_map]
      rfl

/-- A payment taken back: its inputs' coins are those of the store it was
applied to, its own outpoints are empty, the rest stays. -/
theorem getCoin_undone {tx : Transaction} {coins : List Coin} {V : CoinStore} (U : CoinStore)
    (found : tx.isCoinbase = false → V.view.coinsOf tx.inputs = some coins) (o : OutPoint) :
    (U.undone tx coins).getCoin o =
      if o ∈ tx.spends then V.getCoin o
      else if o ∈ tx.outpoints then none else U.getCoin o := by
  unfold CoinStore.undone Transaction.spends
  cases coinbase : tx.isCoinbase with
  | true => simp [CoinStore.getCoin_eraseAll]
  | false =>
      have found := found coinbase
      have len := CoinsView.length_coinsOf found
      have pairs : (tx.inputs.map (·.outpoint)).zip
          (coins.map Coin.restored) =
          (tx.inputs.zip coins).map fun f => (f.1.outpoint, f.2.restored) :=
        List.zip_map
      have own : ∀ f ∈ (tx.inputs.zip coins).map fun f =>
          (f.1.outpoint, f.2.restored), V.getCoin f.1 = some f.2 := by
        intro f mem
        obtain ⟨g, memg, rfl⟩ := List.mem_map.mp mem
        have coin : V.getCoin g.1.outpoint = some g.2 := CoinsView.getCoin_of_mem_zip found g memg
        rw [coin, Coin.restored_of_unspent (CoinStore.isSpent_eq_false coin)]
      simp only [Bool.false_eq_true, if_false, CoinStore.getCoin_unmarkAll, pairs]
      by_cases mem : o ∈ tx.inputs.map (·.outpoint)
      · obtain ⟨input, memInput, rfl⟩ := List.mem_map.mp mem
        obtain ⟨i, lt, rfl⟩ := List.mem_iff_getElem.mp memInput
        have pair : (tx.inputs[i], coins[i]) ∈ tx.inputs.zip coins := by
          rw [List.mem_iff_getElem]
          exact ⟨i, by simp [len, lt], by simp⟩
        have listed := List.mem_map_of_mem (f := fun f : TxInput × Coin =>
          (f.1.outpoint, f.2.restored)) pair
        have value := own _ listed
        rw [if_pos mem, value, CoinStore.getCoin_putAll_of_mem listed]
        · rfl
        · intro f memf same
          have other := own f memf
          rw [same, value] at other
          exact (Option.some.inj other).symm
      · rw [if_neg mem, CoinStore.getCoin_putAll_of_not_mem, CoinStore.getCoin_eraseAll]
        intro f memf same
        obtain ⟨g, memg, rfl⟩ := List.mem_map.mp memf
        exact mem (List.mem_map.mpr ⟨g.1, (List.of_mem_zip memg).1, same⟩)

@[simp] theorem leaves_undone (tx : Transaction) (coins : List Coin) (U : CoinStore) :
    (U.undone tx coins).leaves = U.leaves \ tx.reveals.toFinset := by
  unfold CoinStore.undone Transaction.reveals
  cases tx.isCoinbase <;> simp

/-- What a transaction needs so that it can be taken back: the coins kept are
those it spent, and its leaves were free. -/
structure Revertible (V : CoinStore) (tx : Transaction) (coins : List Coin) : Prop where
  found : tx.isCoinbase = false → V.view.coinsOf tx.inputs = some coins
  parse : tx.isCoinbase = false → ProofsParse tx.inputs
  free : ∀ key ∈ tx.reveals, key ∉ V.leaves

theorem Payable.revertible {P : Params} {V : CoinStore} {tx : Transaction} {coins : List Coin}
    (payable : Payable P V tx coins) : Revertible V tx coins where
  found := fun _ => payable.found
  parse := fun _ => payable.parse
  free := by
    intro key mem
    unfold Transaction.reveals at mem
    split at mem
    · cases mem
    · simpa [CoinStore.isNoiseLeafSpent] using payable.claim.2 key mem

theorem revertible_coinbase {V : CoinStore} {tx : Transaction} (coinbase : tx.isCoinbase = true)
    (coins : List Coin) : Revertible V tx coins where
  found := by simp [coinbase]
  parse := by simp [coinbase]
  free := by simp [Transaction.reveals, coinbase]

/-- A transaction that can be taken back is. -/
theorem Revertible.undoTransaction {V : CoinStore} {tx : Transaction} {coins : List Coin}
    (back : Revertible V tx coins) (U : CoinStore) :
    CoinDB.undoTransaction tx coins U = (true, U.undone tx coins) :=
  undoTransaction_eq U fun payment =>
    ⟨CoinsView.length_coinsOf (back.found payment), back.parse payment⟩

/-- Each transaction can be taken back from the store it is applied to. -/
def RevertibleAll (height : UInt32) : CoinStore → List (Transaction × List Coin) → Prop
  | _, [] => True
  | V, (tx, coins) :: rest => Revertible V tx coins ∧ RevertibleAll height (V.after height tx) rest

theorem PaysAll.revertibleAll {P : Params} {height : UInt32} :
    ∀ {done : List (Transaction × List Coin)} {V : CoinStore}, PaysAll P height V done →
    RevertibleAll height V done := by
  intro done
  induction done with
  | nil => exact fun _ => trivial
  | cons d done ih => exact fun pays => ⟨pays.1.revertible, ih pays.2⟩

/-- The outpoint's first use among the transactions is as an output, so a coin
that was there before is stored over and taking the output back loses it. -/
def clobbers (o : OutPoint) : List Transaction → Bool
  | [] => false
  | tx :: txs => if o ∈ tx.spends then false else if o ∈ tx.outpoints then true else clobbers o txs

/-- Take transactions back, the last first. -/
def CoinStore.undoneAll (done : List (Transaction × List Coin)) (U : CoinStore) : CoinStore :=
  done.foldr (fun d U => U.undone d.1 d.2) U

/-- One of the transactions spends the outpoint or has it among its outputs. -/
def touches (o : OutPoint) (txs : List Transaction) : Bool :=
  txs.any fun tx => o ∈ tx.spends || o ∈ tx.outpoints

@[simp] theorem touches_cons (o : OutPoint) (tx : Transaction) (txs : List Transaction) :
    touches o (tx :: txs) = (decide (o ∈ tx.spends) || decide (o ∈ tx.outpoints) || touches o txs) :=
  List.any_cons

theorem CoinStore.getCoin_afterAll_of_not_touches {height : UInt32} {o : OutPoint} :
    ∀ {txs : List Transaction} {V : CoinStore}, touches o txs = false →
    (V.afterAll height txs).getCoin o = V.getCoin o := by
  intro txs
  induction txs with
  | nil => exact fun _ => rfl
  | cons tx txs ih =>
      intro V apart
      simp only [touches_cons, Bool.or_eq_false_iff, decide_eq_false_iff_not] at apart
      exact (ih apart.2).trans (CoinStore.getCoin_after_of_untouched apart.1.1 apart.1.2)

/-- Taking transactions back from any store: what they touched is as before them. -/
theorem getCoin_undoneAll_of {height : UInt32} {o : OutPoint} :
    ∀ {done : List (Transaction × List Coin)} {V : CoinStore} (U : CoinStore),
    RevertibleAll height V done →
    (U.undoneAll done).getCoin o =
      if clobbers o (done.map (·.1)) then none
      else if touches o (done.map (·.1)) then V.getCoin o else U.getCoin o := by
  intro done
  induction done with
  | nil => exact fun _ _ => rfl
  | cons d done ih =>
      rintro V U ⟨here, later⟩
      refine (getCoin_undone _ here.found o).trans ?_
      rw [List.map_cons, clobbers, touches_cons]
      by_cases spent : o ∈ d.1.spends
      · simp [spent]
      · by_cases own : o ∈ d.1.outpoints
        · simp [spent, own]
        · simp only [spent, own, if_false, decide_false, Bool.false_or]
          refine (ih U later).trans ?_
          rw [CoinStore.getCoin_after_of_untouched spent own]

/-- Applying and taking back gives every coin back but those stored over. -/
theorem getCoin_undoneAll {height : UInt32} {done : List (Transaction × List Coin)}
    {V : CoinStore} (back : RevertibleAll height V done) (o : OutPoint) :
    ((V.afterAll height (done.map (·.1))).undoneAll done).getCoin o =
      if clobbers o (done.map (·.1)) then none else V.getCoin o := by
  rw [getCoin_undoneAll_of _ back]
  cases touched : touches o (done.map (·.1)) with
  | true => rw [if_pos rfl]
  | false => rw [if_neg Bool.false_ne_true, CoinStore.getCoin_afterAll_of_not_touches touched]

/-- Applying and taking back leaves the leaves as they were. -/
theorem leaves_undoneAll {height : UInt32} : ∀ {done : List (Transaction × List Coin)}
    {V : CoinStore}, RevertibleAll height V done →
    ((V.afterAll height (done.map (·.1))).undoneAll done).leaves = V.leaves := by
  intro done
  induction done with
  | nil => exact fun _ => rfl
  | cons d done ih =>
      rintro V ⟨here, later⟩
      refine (leaves_undone _ _ _).trans ?_
      have rest : (((V.after height d.1).afterAll height (done.map (·.1))).undoneAll done).leaves =
          (V.after height d.1).leaves := ih later
      change (((V.after height d.1).afterAll height (done.map (·.1))).undoneAll done).leaves \ _ = _
      rw [rest, CoinStore.leaves_after]
      ext key
      have free := here.free key
      simp only [Finset.mem_sdiff, Finset.mem_union, List.mem_toFinset]
      tauto

/-! ### Whole blocks -/

/-- Only the first transaction of the block may be a coinbase. -/
def Block.OneCoinbase (block : Block) : Prop := ∀ tx ∈ block.payments, tx.isCoinbase = false

/-- A coinbase among the payments is still one that spends nothing. -/
def Block.Shaped (block : Block) : Prop := ∀ tx ∈ block.payments, tx.CoinbaseShape

theorem Block.isCoinbase_of_mem {block : Block} {tx : Transaction}
    (mem : tx ∈ block.coinbase?) : tx.isCoinbase = true := by
  unfold Block.coinbase? at mem
  split at mem
  · split at mem
    · cases mem
      assumption
    · cases mem
  · cases mem

theorem Block.transactions_eq (block : Block) :
    block.transactions = block.coinbase?.toList ++ block.payments := by
  unfold Block.coinbase? Block.payments
  cases block.transactions with
  | nil => rfl
  | cons tx txs => cases coinbase : tx.isCoinbase <;> simp [coinbase]

/-- The coinbase as something applied, with no coins spent. -/
def Block.coinbaseDone (block : Block) : List (Transaction × List Coin) :=
  block.coinbase?.toList.map fun tx => (tx, [])

@[simp] theorem Block.map_fst_coinbaseDone (block : Block) :
    block.coinbaseDone.map (·.1) = block.coinbase?.toList := by
  rw [Block.coinbaseDone, List.map_map]
  exact List.map_id _

theorem applyCoinbase_eq (height : UInt32) (block : Block) (V : CoinStore) :
    applyCoinbase height block.coinbase? V = (true, V.afterAll height block.coinbase?.toList) := by
  cases found : block.coinbase? with
  | none => rfl
  | some tx =>
      have coinbase : tx.isCoinbase = true := block.isCoinbase_of_mem found
      have applied : CoinDB.applyTransaction tx height true V = (some [], V.after height tx) := by
        simp [CoinDB.applyTransaction, CoinStore.applyTransaction, CoinStore.after,
          Transaction.spends, Transaction.reveals, coinbase, CoinStore.eraseAll, CoinStore.markAll]
      simp [applyCoinbase, applied, CoinStore.afterAll]

/-- A block of which every payment is payable in turn, after its coinbase. -/
def BlockPays (P : Params) (height : UInt32) (V : CoinStore) (block : Block)
    (done : List (Transaction × List Coin)) : Prop :=
  PaysAll P height (V.afterAll height block.coinbase?.toList) done

theorem BlockPays.revertibleAll {P : Params} {height : UInt32} {V : CoinStore} {block : Block}
    {done : List (Transaction × List Coin)} (pays : BlockPays P height V block done) :
    RevertibleAll height V (block.coinbaseDone ++ done) := by
  unfold BlockPays at pays
  unfold Block.coinbaseDone
  cases found : block.coinbase? with
  | none =>
      rw [found] at pays
      exact pays.revertibleAll
  | some tx =>
      rw [found] at pays
      exact ⟨revertible_coinbase (block.isCoinbase_of_mem found) [], pays.revertibleAll⟩

/-- The payments of a block that go through, with the coins each spent. -/
def Block.paid (P : Params) (height : UInt32) (V : CoinStore) (block : Block) :
    List (Transaction × List Coin) :=
  (applyPayments P height [] block.payments
    (V.afterAll height block.coinbase?.toList)).2.1.reverse

/-- Everything of a block that goes through. -/
def Block.attempted (P : Params) (height : UInt32) (V : CoinStore) (block : Block) :
    List (Transaction × List Coin) :=
  block.coinbaseDone ++ block.paid P height V

/-- The undo record of a block whose payments spent these coins. -/
def undoRecord (done : List (Transaction × List Coin)) : BlockUndo := ⟨done.map fun d => ⟨d.2⟩⟩

/-- The first payments of a block, with the coins they spend, are payable in turn. -/
structure Attempts (P : Params) (height : UInt32) (V : CoinStore) (block : Block)
    (done : List (Transaction × List Coin)) : Prop where
  part : done.map (·.1) <+: block.payments
  payments : ∀ d ∈ done, d.1.isCoinbase = false
  pays : BlockPays P height V block done

/-- A block whose payments, with the coins they spend, are payable in turn. -/
structure AppliesWith (P : Params) (height : UInt32) (V : CoinStore) (block : Block)
    (done : List (Transaction × List Coin)) : Prop where
  all : block.payments = done.map (·.1)
  one : block.OneCoinbase
  pays : BlockPays P height V block done

theorem AppliesWith.of_done {P : Params} {height : UInt32} {V : CoinStore} {block : Block}
    {done : List (Transaction × List Coin)} (applies : AppliesWith P height V block done) :
    ∀ d ∈ done, d.1.isCoinbase = false := by
  intro d mem
  exact applies.one d.1 (by rw [applies.all]; exact List.mem_map_of_mem mem)

theorem AppliesWith.attempts {P : Params} {height : UInt32} {V : CoinStore} {block : Block}
    {done : List (Transaction × List Coin)} (applies : AppliesWith P height V block done) :
    Attempts P height V block done :=
  ⟨applies.all ▸ List.prefix_rfl, applies.of_done, applies.pays⟩

/-- The coinbase and then the payments are the whole block. -/
theorem AppliesWith.afterAll {P : Params} {height : UInt32} {V : CoinStore} {block : Block}
    {done : List (Transaction × List Coin)} (applies : AppliesWith P height V block done) :
    (V.afterAll height block.coinbase?.toList).afterAll height (done.map (·.1)) =
      V.afterAll height block.transactions := by
  rw [← applies.all, CoinStore.afterAll, CoinStore.afterAll, ← List.foldl_append,
    ← block.transactions_eq]
  rfl

/-- A block whose payments are payable in turn is applied, with the effect of
its transactions one after the other. -/
theorem AppliesWith.apply {P : Params} {height : UInt32} {V : CoinStore} {block : Block}
    {done : List (Transaction × List Coin)} (applies : AppliesWith P height V block done) :
    applyBlockTwoPhase P block height V =
      (some (undoRecord done), V.afterAll height block.transactions) := by
  rw [applyBlockTwoPhase, applyCoinbase_eq]
  dsimp only
  rw [applies.all, applyPayments_of_paysAll applies.of_done applies.pays, applies.afterAll]
  simp [undoOf, undoRecord]

theorem PaysAll.length_coins {P : Params} {height : UInt32} :
    ∀ {done : List (Transaction × List Coin)} {V : CoinStore}, PaysAll P height V done →
    ∀ d ∈ done, d.2.length = d.1.inputs.length := by
  intro done
  induction done with
  | nil => simp
  | cons d done ih =>
      intro V pays e mem
      rcases List.mem_cons.mp mem with rfl | mem
      · exact CoinsView.length_coinsOf pays.1.found
      · exact ih pays.2 e mem

/-- The undo record of a block that was applied can be read back. -/
theorem AppliesWith.readable {P : Params} {height : UInt32} {V : CoinStore} {block : Block}
    {done : List (Transaction × List Coin)} (applies : AppliesWith P height V block done) :
    (undoRecord done).Readable where
  transactions := by
    have part : block.payments.length ≤ block.transactions.length := by
      rw [block.transactions_eq, List.length_append]
      omega
    rw [applies.all, List.length_map] at part
    rw [undoRecord, List.length_map]
    exact part.trans block.transactions_le
  coins := by
    intro tu mem
    obtain ⟨d, memDone, rfl⟩ := List.mem_map.mp mem
    have few : Transaction.maxInputs ≤ Block.maxTransactions := by decide
    rw [applies.pays.length_coins d memDone]
    exact d.1.inputs_le.trans few

/-- A rollback takes back what was applied. -/
theorem rollbackPayments_eq {height : UInt32} : ∀ {done : List (Transaction × List Coin)}
    {V : CoinStore}, RevertibleAll height V done → ∀ U : CoinStore,
    rollbackPayments done.reverse U = U.undoneAll done := by
  intro done
  induction done with
  | nil => exact fun _ _ => rfl
  | cons d done ih =>
      rintro V ⟨here, later⟩ U
      have rest := ih later U
      rw [rollbackPayments] at rest
      rw [rollbackPayments, List.reverse_cons, List.foldl_append, rest, List.foldl_cons,
        List.foldl_nil, here.undoTransaction]
      rfl

theorem rollbackCoinbase_eq (block : Block) (U : CoinStore) :
    rollbackCoinbase block.coinbase? U = U.undoneAll block.coinbaseDone := by
  unfold Block.coinbaseDone
  cases found : block.coinbase? with
  | none => rfl
  | some tx =>
      have back : Revertible U tx [] := revertible_coinbase (block.isCoinbase_of_mem found) []
      rw [rollbackCoinbase, back.undoTransaction]
      rfl

theorem undoneAll_append (first second : List (Transaction × List Coin)) (U : CoinStore) :
    U.undoneAll (first ++ second) = (U.undoneAll second).undoneAll first := by
  simp [CoinStore.undoneAll]

theorem RevertibleAll.of_append {height : UInt32} {second : List (Transaction × List Coin)} :
    ∀ {first : List (Transaction × List Coin)} {V : CoinStore},
    RevertibleAll height V (first ++ second) →
    RevertibleAll height (V.afterAll height (first.map (·.1))) second := by
  intro first
  induction first with
  | nil => exact fun back => back
  | cons d first ih => exact fun back => ih back.2

/-- What applying a block comes to: either every payment goes through, or what
went through is taken back. -/
theorem applyBlockTwoPhase_eq {P : Params} {block : Block} {height : UInt32} {V : CoinStore}
    (free : V.NullFree) (shape : block.Shaped) :
    (AppliesWith P height V block (block.paid P height V) ∧
      applyBlockTwoPhase P block height V =
        (some (undoRecord (block.paid P height V)), V.afterAll height block.transactions)) ∨
    (Attempts P height V block (block.paid P height V) ∧
      applyBlockTwoPhase P block height V =
        (none, (V.afterAll height ((block.attempted P height V).map (·.1))).undoneAll
          (block.attempted P height V))) := by
  have free' : (V.afterAll height block.coinbase?.toList).NullFree := by
    cases block.coinbase? with
    | none => exact free
    | some tx => exact free.after height tx
  rcases step : applyPayments P height [] block.payments
    (V.afterAll height block.coinbase?.toList) with ⟨ok, applied, W⟩
  have paid : block.paid P height V = applied.reverse := by rw [Block.paid, step]
  obtain ⟨done, rest, split, payments, pays, rfl, rfl, ended⟩ := applyPayments_spec free' shape step
  rw [List.append_nil, List.reverse_reverse] at paid
  rw [Block.attempted, paid]
  cases ok with
  | true =>
      obtain rfl := ended.mp rfl
      rw [List.append_nil] at split
      have one : block.OneCoinbase := by
        intro tx mem
        rw [split] at mem
        obtain ⟨d, memDone, rfl⟩ := List.mem_map.mp mem
        exact payments d memDone
      have applies : AppliesWith P height V block done := ⟨split, one, pays⟩
      exact .inl ⟨applies, applies.apply⟩
  | false =>
      have whole : BlockPays P height V block done := pays
      refine .inr ⟨⟨⟨rest, split.symm⟩, payments, pays⟩, ?_⟩
      have states : (V.afterAll height block.coinbase?.toList).afterAll height (done.map (·.1)) =
          V.afterAll height ((block.coinbaseDone ++ done).map (·.1)) := by
        rw [List.map_append, block.map_fst_coinbaseDone]
        simp [CoinStore.afterAll]
      rw [applyBlockTwoPhase, applyCoinbase_eq]
      dsimp only
      rw [step]
      dsimp only
      rw [List.append_nil, rollbackPayments_eq whole.revertibleAll.of_append, rollbackCoinbase_eq,
        ← undoneAll_append, states]

theorem undoPayments_eq {height : UInt32} : ∀ {done : List (Transaction × List Coin)}
    {V : CoinStore}, RevertibleAll height V done → ∀ (rest : List (Transaction × TxUndo))
    (U : CoinStore),
    undoPayments ((done.map fun d => (d.1, (⟨d.2⟩ : TxUndo))).reverse ++ rest) U =
      undoPayments rest (U.undoneAll done) := by
  intro done
  induction done with
  | nil => exact fun _ _ _ => rfl
  | cons d done ih =>
      rintro V ⟨here, later⟩ rest U
      rw [List.map_cons, List.reverse_cons, List.append_assoc, ih later, List.singleton_append,
        undoPayments, here.undoTransaction]
      rfl

/-- A block taken back with the record of its own application. -/
theorem AppliesWith.undo {P : Params} {block : Block} {height : UInt32} {V : CoinStore}
    {done : List (Transaction × List Coin)} (applies : AppliesWith P height V block done)
    (U : CoinStore) :
    undoBlockTwoPhase block (undoRecord done) U =
      (true, U.undoneAll (block.coinbaseDone ++ done)) := by
  have back := applies.pays.revertibleAll.of_append
  have pairs : block.payments.zip (done.map fun d => (⟨d.2⟩ : TxUndo)) =
      done.map fun d => (d.1, (⟨d.2⟩ : TxUndo)) := by
    rw [applies.all, List.zip_map']
  have undone := undoPayments_eq back [] U
  rw [List.append_nil] at undone
  have coinbase := rollbackCoinbase_eq block (U.undoneAll done)
  rw [undoBlockTwoPhase, undoRecord, pairs, undone, if_neg (by simp [applies.all]),
    undoneAll_append]
  dsimp only [undoPayments]
  rw [← coinbase]
  cases found : block.coinbase? with
  | none => rfl
  | some tx =>
      have back : Revertible (U.undoneAll done) tx [] :=
        revertible_coinbase (block.isCoinbase_of_mem found) []
      dsimp only [rollbackCoinbase]
      rw [back.undoTransaction]

end QmaskCore
