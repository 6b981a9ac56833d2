import QmaskCore.Storage.BlockUndo

/-!
Applying and undoing a block on a store of coins.

`applyBlockTwoPhase` applies the coinbase and then every other transaction,
each after its own value checks, and rolls back what it applied when one is
refused; `undoBlockTwoPhase` takes a block back with its undo record. Both are
written against `CoinDB`, so they run on the cached set and on the plain store
alike. `CoinDB.Hom` says two stores behave alike under a map between them, and
`applyBlockTwoPhase_hom`, `undoBlockTwoPhase_hom` carry that to whole blocks.
-/

namespace QmaskCore

/-- The coinbase in first place, if the first transaction is one. -/
def Block.coinbase? (block : Block) : Option Transaction :=
  match block.transactions with
  | tx :: _ => if tx.isCoinbase then some tx else none
  | [] => none

/-- The transactions that are applied as payments. -/
def Block.payments (block : Block) : List Transaction :=
  match block.transactions with
  | tx :: txs => if tx.isCoinbase then txs else tx :: txs
  | [] => []

/-- The total of the input coins, each coin and each partial sum in range. -/
def inputTotal (P : Params) : Int64 → List Coin → Option Int64
  | valueIn, [] => some valueIn
  | valueIn, coin :: coins =>
      if coin.value < 0 ∨ P.checkMoneyRange coin.value.toUInt64 = false then none
      else
        let next := valueIn + coin.value
        if next < valueIn ∨ P.checkMoneyRange next.toUInt64 = false then none
        else inputTotal P next coins

section

variable {σ : Type} [CoinDB σ]

/-- One payment: its inputs are there and in range, they cover the outputs, and
the store applies it. -/
def applyPayment (P : Params) (height : UInt32) (tx : Transaction) (s : σ) :
    Option (List Coin) × σ :=
  match (CoinDB.view s).coinsOf tx.inputs with
  | none => (none, s)
  | some coins =>
      match inputTotal P 0 coins with
      | none => (none, s)
      | some valueIn =>
          if P.getValueOut tx < 0 ∨ valueIn < P.getValueOut tx then (none, s)
          else CoinDB.applyTransaction tx height false s

/-- The payments in order. `applied` lists those applied so far, the newest
first; the flag says whether all were. -/
def applyPayments (P : Params) (height : UInt32) :
    List (Transaction × List Coin) → List Transaction → σ →
      Bool × List (Transaction × List Coin) × σ
  | applied, [], s => (true, applied, s)
  | applied, tx :: txs, s =>
      match applyPayment P height tx s with
      | (none, s) => (false, applied, s)
      | (some spent, s) => applyPayments P height ((tx, spent) :: applied) txs s

/-- Undo what was applied, the newest first; the results are not looked at. -/
def rollbackPayments (applied : List (Transaction × List Coin)) (s : σ) : σ :=
  applied.foldl (fun s done => (CoinDB.undoTransaction done.1 done.2 s).2) s

def rollbackCoinbase (coinbase : Option Transaction) (s : σ) : σ :=
  match coinbase with
  | none => s
  | some tx => (CoinDB.undoTransaction tx [] s).2

/-- The first phase: the coinbase. -/
def applyCoinbase (height : UInt32) (coinbase : Option Transaction) (s : σ) : Bool × σ :=
  match coinbase with
  | none => (true, s)
  | some tx =>
      match CoinDB.applyTransaction tx height true s with
      | (none, s) => (false, s)
      | (some _, s) => (true, s)

/-- The undo record of the payments applied, the newest first. -/
def undoOf (applied : List (Transaction × List Coin)) : BlockUndo :=
  ⟨applied.reverse.map fun done => ⟨done.2⟩⟩

def applyBlockTwoPhase (P : Params) (block : Block) (height : UInt32) (s : σ) :
    Option BlockUndo × σ :=
  match applyCoinbase height block.coinbase? s with
  | (false, s) => (none, s)
  | (true, s) =>
      match applyPayments P height [] block.payments s with
      | (true, applied, s) => (some (undoOf applied), s)
      | (false, applied, s) =>
          (none, rollbackCoinbase block.coinbase? (rollbackPayments applied s))

/-- Undo payments, the newest first, stopping at the first that cannot be undone. -/
def undoPayments : List (Transaction × TxUndo) → σ → Bool × σ
  | [], s => (true, s)
  | (tx, undo) :: rest, s =>
      match CoinDB.undoTransaction tx undo.spentCoins s with
      | (false, s) => (false, s)
      | (true, s) => undoPayments rest s

def undoBlockTwoPhase (block : Block) (undo : BlockUndo) (s : σ) : Bool × σ :=
  if undo.txUndo.length ≠ block.payments.length then (false, s)
  else
    match undoPayments (block.payments.zip undo.txUndo).reverse s with
    | (false, s) => (false, s)
    | (true, s) =>
        match block.coinbase? with
        | none => (true, s)
        | some tx => CoinDB.undoTransaction tx [] s

/-- Replaying a block: every transaction is applied again, whatever of it is
there already. -/
def replayTransactions (height : UInt32) : Bool → List Transaction → σ → Bool × σ
  | _, [], s => (true, s)
  | first, tx :: txs, s =>
      match CoinDB.applyTransactionForReplay tx height (first && tx.isCoinbase) s with
      | (false, s) => (false, s)
      | (true, s) => replayTransactions height false txs s

end

/-! ### Stores that behave alike -/

/-- `f` turns every operation of one store into that of the other. -/
structure CoinDB.Hom {σ τ : Type} [CoinDB σ] [CoinDB τ] (f : σ → τ) : Prop where
  view : ∀ s, CoinDB.view (f s) = CoinDB.view s
  applyTransaction : ∀ tx height isCoinbase s,
    CoinDB.applyTransaction tx height isCoinbase (f s) =
      Prod.map id f (CoinDB.applyTransaction tx height isCoinbase s)
  undoTransaction : ∀ tx spentCoins s,
    CoinDB.undoTransaction tx spentCoins (f s) =
      Prod.map id f (CoinDB.undoTransaction tx spentCoins s)
  applyTransactionForReplay : ∀ tx height isCoinbase s,
    CoinDB.applyTransactionForReplay tx height isCoinbase (f s) =
      Prod.map id f (CoinDB.applyTransactionForReplay tx height isCoinbase s)

section

variable {σ τ : Type} [CoinDB σ] [CoinDB τ] {f : σ → τ}

theorem applyPayment_hom (hom : CoinDB.Hom f) (P : Params) (height : UInt32) (tx : Transaction)
    (s : σ) : applyPayment P height tx (f s) = Prod.map id f (applyPayment P height tx s) := by
  unfold applyPayment
  rw [hom.view]
  split
  · rfl
  · split
    · rfl
    · split
      · rfl
      · exact hom.applyTransaction tx height false s

theorem applyPayments_hom (hom : CoinDB.Hom f) (P : Params) (height : UInt32)
    (txs : List Transaction) : ∀ (applied : List (Transaction × List Coin)) (s : σ),
    applyPayments P height applied txs (f s) =
      Prod.map id (Prod.map id f) (applyPayments P height applied txs s) := by
  induction txs with
  | nil => exact fun _ _ => rfl
  | cons tx txs ih =>
      intro applied s
      rw [applyPayments, applyPayments, applyPayment_hom hom]
      rcases applyPayment P height tx s with ⟨_ | spent, s'⟩
      · rfl
      · exact ih _ s'

theorem rollbackPayments_hom (hom : CoinDB.Hom f) (applied : List (Transaction × List Coin)) :
    ∀ s : σ, rollbackPayments applied (f s) = f (rollbackPayments applied s) := by
  induction applied with
  | nil => exact fun _ => rfl
  | cons done applied ih =>
      intro s
      refine Eq.trans ?_ (ih (CoinDB.undoTransaction done.1 done.2 s).2)
      rw [rollbackPayments, List.foldl_cons, hom.undoTransaction]
      rfl

theorem rollbackCoinbase_hom (hom : CoinDB.Hom f) (coinbase : Option Transaction) (s : σ) :
    rollbackCoinbase coinbase (f s) = f (rollbackCoinbase coinbase s) := by
  cases coinbase with
  | none => rfl
  | some tx =>
      rw [rollbackCoinbase, hom.undoTransaction]
      rfl

theorem applyCoinbase_hom (hom : CoinDB.Hom f) (height : UInt32) (coinbase : Option Transaction)
    (s : σ) :
    applyCoinbase height coinbase (f s) = Prod.map id f (applyCoinbase height coinbase s) := by
  cases coinbase with
  | none => rfl
  | some tx =>
      rw [applyCoinbase, applyCoinbase, hom.applyTransaction]
      rcases CoinDB.applyTransaction tx height true s with ⟨_ | spent, s'⟩ <;> rfl

theorem applyBlockTwoPhase_hom (hom : CoinDB.Hom f) (P : Params) (block : Block) (height : UInt32)
    (s : σ) :
    applyBlockTwoPhase P block height (f s) =
      Prod.map id f (applyBlockTwoPhase P block height s) := by
  rw [applyBlockTwoPhase, applyBlockTwoPhase, applyCoinbase_hom hom]
  rcases applyCoinbase height block.coinbase? s with ⟨_ | _, s⟩
  · rfl
  · dsimp only [Prod.map_apply, id]
    rw [applyPayments_hom hom]
    rcases applyPayments P height [] block.payments s with ⟨_ | _, applied, s⟩
    · dsimp only [Prod.map_apply, id]
      rw [rollbackPayments_hom hom, rollbackCoinbase_hom hom]
    · rfl

theorem undoPayments_hom (hom : CoinDB.Hom f) (l : List (Transaction × TxUndo)) :
    ∀ s : σ, undoPayments l (f s) = Prod.map id f (undoPayments l s) := by
  induction l with
  | nil => exact fun _ => rfl
  | cons done l ih =>
      intro s
      rw [undoPayments, undoPayments, hom.undoTransaction]
      rcases CoinDB.undoTransaction done.1 done.2.spentCoins s with ⟨_ | _, s'⟩
      · rfl
      · exact ih s'

theorem undoBlockTwoPhase_hom (hom : CoinDB.Hom f) (block : Block) (undo : BlockUndo) (s : σ) :
    undoBlockTwoPhase block undo (f s) = Prod.map id f (undoBlockTwoPhase block undo s) := by
  unfold undoBlockTwoPhase
  split
  · rfl
  · rw [undoPayments_hom hom]
    rcases undoPayments (block.payments.zip undo.txUndo).reverse s with ⟨_ | _, s'⟩
    · rfl
    · dsimp only [Prod.map_apply, id]
      cases block.coinbase? with
      | none => rfl
      | some tx => exact hom.undoTransaction tx [] s'

end

/-! ### What every operation keeps -/

/-- A property that every operation of the store keeps. -/
structure CoinDB.Keeps {σ : Type} [CoinDB σ] (holds : σ → Prop) : Prop where
  applyTransaction : ∀ {s} tx height isCoinbase, holds s →
    holds (CoinDB.applyTransaction tx height isCoinbase s).2
  undoTransaction : ∀ {s} tx spentCoins, holds s →
    holds (CoinDB.undoTransaction tx spentCoins s).2
  applyTransactionForReplay : ∀ {s} tx height isCoinbase, holds s →
    holds (CoinDB.applyTransactionForReplay tx height isCoinbase s).2

namespace CoinDB.Keeps

variable {σ : Type} [CoinDB σ] {holds : σ → Prop}

theorem applyPayment (keeps : Keeps holds) (P : Params) (height : UInt32) (tx : Transaction) {s : σ}
    (now : holds s) : holds (applyPayment P height tx s).2 := by
  unfold QmaskCore.applyPayment
  split
  · exact now
  · split
    · exact now
    · split
      · exact now
      · exact keeps.applyTransaction tx height false now

theorem applyPayments (keeps : Keeps holds) (P : Params) (height : UInt32) (txs : List Transaction) :
    ∀ {applied : List (Transaction × List Coin)} {s : σ}, holds s →
    holds (applyPayments P height applied txs s).2.2 := by
  induction txs with
  | nil => exact fun now => now
  | cons tx txs ih =>
      intro applied s now
      have next := keeps.applyPayment P height tx now
      rw [QmaskCore.applyPayments]
      generalize QmaskCore.applyPayment P height tx s = out at next ⊢
      rcases out with ⟨_ | spent, s'⟩
      · exact next
      · exact ih next

theorem rollbackPayments (keeps : Keeps holds) (applied : List (Transaction × List Coin)) :
    ∀ {s : σ}, holds s → holds (rollbackPayments applied s) := by
  induction applied with
  | nil => exact fun now => now
  | cons done applied ih => exact fun now => ih (keeps.undoTransaction done.1 done.2 now)

theorem applyBlockTwoPhase (keeps : Keeps holds) (P : Params) (block : Block) (height : UInt32)
    {s : σ} (now : holds s) : holds (applyBlockTwoPhase P block height s).2 := by
  have coinbase : holds (applyCoinbase height block.coinbase? s).2 := by
    cases block.coinbase? with
    | none => exact now
    | some tx =>
        have next := keeps.applyTransaction tx height true now
        rw [applyCoinbase]
        generalize CoinDB.applyTransaction tx height true s = out at next ⊢
        rcases out with ⟨_ | spent, s'⟩ <;> exact next
  rw [QmaskCore.applyBlockTwoPhase]
  generalize applyCoinbase height block.coinbase? s = out at coinbase ⊢
  rcases out with ⟨_ | _, s⟩
  · exact coinbase
  · have payments : holds (QmaskCore.applyPayments P height [] block.payments s).2.2 :=
      keeps.applyPayments P height block.payments coinbase
    dsimp only at payments ⊢
    generalize QmaskCore.applyPayments P height [] block.payments s = out at payments ⊢
    rcases out with ⟨_ | _, applied, s⟩
    · have back := keeps.rollbackPayments applied payments
      cases block.coinbase? with
      | none => exact back
      | some tx => exact keeps.undoTransaction tx [] back
    · exact payments

theorem undoPayments (keeps : Keeps holds) (l : List (Transaction × TxUndo)) :
    ∀ {s : σ}, holds s → holds (undoPayments l s).2 := by
  induction l with
  | nil => exact fun now => now
  | cons done l ih =>
      intro s now
      have next := keeps.undoTransaction done.1 done.2.spentCoins now
      rw [QmaskCore.undoPayments]
      generalize CoinDB.undoTransaction done.1 done.2.spentCoins s = out at next ⊢
      rcases out with ⟨_ | _, s'⟩
      · exact next
      · exact ih next

theorem undoBlockTwoPhase (keeps : Keeps holds) (block : Block) (undo : BlockUndo) {s : σ}
    (now : holds s) : holds (undoBlockTwoPhase block undo s).2 := by
  have payments := keeps.undoPayments (block.payments.zip undo.txUndo).reverse now
  unfold QmaskCore.undoBlockTwoPhase
  split
  · exact now
  · generalize QmaskCore.undoPayments (block.payments.zip undo.txUndo).reverse s = out
      at payments ⊢
    rcases out with ⟨_ | _, s'⟩
    · exact payments
    · cases block.coinbase? with
      | none => exact payments
      | some tx => exact keeps.undoTransaction tx [] payments

theorem replayTransactions (keeps : Keeps holds) (height : UInt32) (txs : List Transaction) :
    ∀ {first : Bool} {s : σ}, holds s → holds (replayTransactions height first txs s).2 := by
  induction txs with
  | nil => exact fun now => now
  | cons tx txs ih =>
      intro first s now
      have next := keeps.applyTransactionForReplay tx height (first && tx.isCoinbase) now
      rw [QmaskCore.replayTransactions]
      generalize CoinDB.applyTransactionForReplay tx height (first && tx.isCoinbase) s = out
        at next ⊢
      rcases out with ⟨_ | _, s'⟩
      · exact next
      · exact ih next

end CoinDB.Keeps

end QmaskCore
