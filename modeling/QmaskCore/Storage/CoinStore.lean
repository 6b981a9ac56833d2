import QmaskCore.Storage.UtxoSet
import Mathlib.Data.Finmap
import Mathlib.Data.Multiset.Fold

/-!
The coin store as it is meant: one map and one set.

A `CoinStore` holds the unspent coins by outpoint and the spent leaves, and
nothing else: no cache, no dirty flags, no database. That every coin it holds
is unspent is part of the value. Its transactions are stated by what they
require and what they leave, not by loops. The lemmas read the effect of each
operation off at one outpoint and one leaf; `CoinStore.ext_view` says a store is
determined by those answers.
-/

namespace QmaskCore

structure CoinStore where
  coins : Finmap fun _ : OutPoint => Coin
  leaves : Finset NoiseLeafKey
  unspent : ∀ {outpoint : OutPoint} {coin : Coin},
    coins.lookup outpoint = some coin → coin.isSpent = false

namespace CoinStore

def empty : CoinStore := ⟨∅, ∅, by simp⟩

instance : DecidableEq CoinStore := fun V W =>
  decidable_of_iff (V.coins = W.coins ∧ V.leaves = W.leaves) (by cases V; cases W; simp)

def getCoin (V : CoinStore) (outpoint : OutPoint) : Option Coin := V.coins.lookup outpoint

def haveCoin (V : CoinStore) (outpoint : OutPoint) : Bool := (V.getCoin outpoint).isSome

def isNoiseLeafSpent (V : CoinStore) (key : NoiseLeafKey) : Bool := key ∈ V.leaves

def view (V : CoinStore) : CoinsView := ⟨V.getCoin, V.isNoiseLeafSpent⟩

/-- Two stores that answer alike are the same store. -/
theorem ext_view {V W : CoinStore} (coins : ∀ outpoint, V.getCoin outpoint = W.getCoin outpoint)
    (leaves : ∀ key, key ∈ V.leaves ↔ key ∈ W.leaves) : V = W := by
  cases V
  cases W
  simp only [mk.injEq]
  exact ⟨Finmap.ext_lookup coins, Finset.ext leaves⟩

theorem isSpent_eq_false {V : CoinStore} {outpoint : OutPoint} {coin : Coin}
    (found : V.getCoin outpoint = some coin) : coin.isSpent = false :=
  V.unspent found

/-! ### One coin, one leaf -/

def erase (V : CoinStore) (outpoint : OutPoint) : CoinStore where
  coins := V.coins.erase outpoint
  leaves := V.leaves
  unspent := by
    intro o coin found
    by_cases same : o = outpoint
    · rw [same, Finmap.lookup_erase] at found
      cases found
    · rw [Finmap.lookup_erase_ne same] at found
      exact V.unspent found

/-- The coin replaces whatever is under the outpoint; a spent coin is no coin. -/
def put (V : CoinStore) (outpoint : OutPoint) (coin : Coin) : CoinStore :=
  if unspent : coin.isSpent = false then
    { coins := V.coins.insert outpoint coin
      leaves := V.leaves
      unspent := by
        intro o c found
        by_cases same : o = outpoint
        · rw [same, Finmap.lookup_insert] at found
          cases found
          exact unspent
        · rw [Finmap.lookup_insert_of_ne _ same] at found
          exact V.unspent found }
  else V.erase outpoint

def mark (V : CoinStore) (key : NoiseLeafKey) : CoinStore :=
  { V with leaves := insert key V.leaves }

def unmark (V : CoinStore) (key : NoiseLeafKey) : CoinStore :=
  { V with leaves := V.leaves.erase key }

def spendCoin (V : CoinStore) (outpoint : OutPoint) : Bool × CoinStore :=
  match V.getCoin outpoint with
  | none => (false, V)
  | some _ => (true, V.erase outpoint)

/-- A coin is added where there is none. -/
def addCoin (V : CoinStore) (outpoint : OutPoint) (coin : Coin) : Bool × CoinStore :=
  if V.haveCoin outpoint then (false, V) else (true, V.put outpoint coin)

@[simp] theorem leaves_erase (V : CoinStore) (o : OutPoint) : (V.erase o).leaves = V.leaves := rfl

@[simp] theorem leaves_put (V : CoinStore) (o : OutPoint) (c : Coin) :
    (V.put o c).leaves = V.leaves := by
  unfold put
  split <;> rfl

@[simp] theorem leaves_mark (V : CoinStore) (k : NoiseLeafKey) :
    (V.mark k).leaves = insert k V.leaves := rfl

@[simp] theorem leaves_unmark (V : CoinStore) (k : NoiseLeafKey) :
    (V.unmark k).leaves = V.leaves.erase k := rfl

@[simp] theorem getCoin_mark (V : CoinStore) (k : NoiseLeafKey) (o : OutPoint) :
    (V.mark k).getCoin o = V.getCoin o := rfl

@[simp] theorem getCoin_unmark (V : CoinStore) (k : NoiseLeafKey) (o : OutPoint) :
    (V.unmark k).getCoin o = V.getCoin o := rfl

theorem getCoin_erase (V : CoinStore) (o o' : OutPoint) :
    (V.erase o).getCoin o' = if o' = o then none else V.getCoin o' := by
  unfold erase getCoin
  split
  · rename_i same
    rw [same, Finmap.lookup_erase]
  · rename_i differ
    rw [Finmap.lookup_erase_ne differ]

theorem getCoin_put (V : CoinStore) (o o' : OutPoint) (c : Coin) :
    (V.put o c).getCoin o' =
      if o' = o then (if c.isSpent then none else some c) else V.getCoin o' := by
  unfold put
  by_cases unspent : c.isSpent = false
  · simp only [unspent, dite_true, getCoin]
    split
    · rename_i same
      rw [same, Finmap.lookup_insert]
      rfl
    · rename_i differ
      rw [Finmap.lookup_insert_of_ne _ differ]
  · rw [dif_neg unspent, getCoin_erase]
    simp [unspent]

/-! ### Many coins, many leaves -/

def eraseAll (V : CoinStore) (outpoints : List OutPoint) : CoinStore := outpoints.foldl erase V

def putAll (V : CoinStore) (coins : List (OutPoint × Coin)) : CoinStore :=
  coins.foldl (fun V found => V.put found.1 found.2) V

def markAll (V : CoinStore) (keys : List NoiseLeafKey) : CoinStore := keys.foldl mark V

def unmarkAll (V : CoinStore) (keys : List NoiseLeafKey) : CoinStore := keys.foldl unmark V

@[simp] theorem leaves_eraseAll (V : CoinStore) (l : List OutPoint) :
    (V.eraseAll l).leaves = V.leaves := by
  induction l generalizing V with
  | nil => rfl
  | cons o l ih => exact ih (V.erase o)

@[simp] theorem leaves_putAll (V : CoinStore) (l : List (OutPoint × Coin)) :
    (V.putAll l).leaves = V.leaves := by
  induction l generalizing V with
  | nil => rfl
  | cons found l ih => exact (ih (V.put found.1 found.2)).trans (leaves_put V _ _)

@[simp] theorem leaves_markAll (V : CoinStore) (l : List NoiseLeafKey) :
    (V.markAll l).leaves = l.toFinset ∪ V.leaves := by
  induction l generalizing V with
  | nil => simp [markAll]
  | cons k l ih =>
      refine (ih (V.mark k)).trans ?_
      ext key
      simp only [leaves_mark, List.toFinset_cons, Finset.mem_union, Finset.mem_insert]
      tauto

@[simp] theorem leaves_unmarkAll (V : CoinStore) (l : List NoiseLeafKey) :
    (V.unmarkAll l).leaves = V.leaves \ l.toFinset := by
  induction l generalizing V with
  | nil => simp [unmarkAll]
  | cons k l ih =>
      refine (ih (V.unmark k)).trans ?_
      ext key
      simp only [leaves_unmark, List.toFinset_cons, Finset.mem_sdiff, Finset.mem_erase,
        Finset.mem_insert]
      tauto

@[simp] theorem getCoin_markAll (V : CoinStore) (l : List NoiseLeafKey) (o : OutPoint) :
    (V.markAll l).getCoin o = V.getCoin o := by
  induction l generalizing V with
  | nil => rfl
  | cons k l ih => exact ih (V.mark k)

@[simp] theorem getCoin_unmarkAll (V : CoinStore) (l : List NoiseLeafKey) (o : OutPoint) :
    (V.unmarkAll l).getCoin o = V.getCoin o := by
  induction l generalizing V with
  | nil => rfl
  | cons k l ih => exact ih (V.unmark k)

theorem getCoin_eraseAll (V : CoinStore) (l : List OutPoint) (o : OutPoint) :
    (V.eraseAll l).getCoin o = if o ∈ l then none else V.getCoin o := by
  induction l generalizing V with
  | nil => rfl
  | cons o' l ih =>
      refine (ih (V.erase o')).trans ?_
      rw [getCoin_erase]
      by_cases mem : o ∈ l
      · simp [mem]
      · simp [mem]

/-- Where no coin of the list goes, nothing changes. -/
theorem getCoin_putAll_of_not_mem {V : CoinStore} {l : List (OutPoint × Coin)} {o : OutPoint}
    (absent : ∀ found ∈ l, found.1 ≠ o) : (V.putAll l).getCoin o = V.getCoin o := by
  induction l generalizing V with
  | nil => rfl
  | cons found l ih =>
      refine (ih fun f mem => absent f (List.mem_cons_of_mem _ mem)).trans ?_
      rw [getCoin_put, if_neg (absent found List.mem_cons_self).symm]

/-- Where every coin of the list that goes under `o` is the same, that coin is found. -/
theorem getCoin_putAll_of_mem {V : CoinStore} {l : List (OutPoint × Coin)} {o : OutPoint}
    {c : Coin} (mem : (o, c) ∈ l) (agree : ∀ found ∈ l, found.1 = o → found.2 = c) :
    (V.putAll l).getCoin o = if c.isSpent then none else some c := by
  induction l generalizing V with
  | nil => cases mem
  | cons found l ih =>
      by_cases later : (o, c) ∈ l
      · exact ih later fun f mem => agree f (List.mem_cons_of_mem _ mem)
      · have head : found = (o, c) := ((List.mem_cons.mp mem).resolve_right later).symm
        have absent : ∀ f ∈ l, f.1 ≠ o := by
          intro f memf same
          have value := agree f (List.mem_cons_of_mem _ memf) same
          exact later (by rw [← same, ← value]; exact memf)
        refine (getCoin_putAll_of_not_mem absent).trans ?_
        rw [head, getCoin_put, if_pos rfl]

/-- The coins of a transaction go over what was there. -/
theorem getCoin_putAll_newCoins (V : CoinStore) (tx : Transaction) (height : UInt32)
    (isCoinbase : Bool) (o : OutPoint) :
    (V.putAll (tx.newCoins height isCoinbase)).getCoin o =
      (tx.newCoinAt height isCoinbase o).or (V.getCoin o) := by
  cases new : tx.newCoinAt height isCoinbase o with
  | none =>
      refine getCoin_putAll_of_not_mem ?_
      rintro ⟨o', c⟩ mem rfl
      rw [Transaction.mem_newCoins.mp mem] at new
      cases new
  | some coin =>
      have agree : ∀ found ∈ tx.newCoins height isCoinbase, found.1 = o → found.2 = coin := by
        rintro ⟨o', c⟩ mem rfl
        rw [Transaction.mem_newCoins.mp mem] at new
        exact Option.some.inj new
      rw [getCoin_putAll_of_mem (Transaction.mem_newCoins.mpr new) agree,
        Transaction.isSpent_newCoinAt new]
      rfl

/-! ### Transactions -/

/-- A transaction is applied when it is a coinbase, or when every input names a
coin, the proofs parse and the leaves can be claimed. Its inputs' coins go, its
leaves are marked, its outputs become coins. -/
def applyTransaction (tx : Transaction) (height : UInt32) (isCoinbase : Bool) (V : CoinStore) :
    Option (List Coin) × CoinStore :=
  if isCoinbase then (some [], V.putAll (tx.newCoins height isCoinbase))
  else
    match V.view.coinsOf tx.inputs with
    | none => (none, V)
    | some coins =>
        if ProofsParse tx.inputs ∧ Claimable V.isNoiseLeafSpent [] (leavesOf tx.inputs) then
          (some coins, ((V.eraseAll (tx.inputs.map (·.outpoint))).markAll
            (leavesOf tx.inputs)).putAll (tx.newCoins height isCoinbase))
        else (none, V)

/-- Input by input, up to the first whose proofs do not parse, the coin comes
back and the leaves are free again. -/
def restoreInputs : List (TxInput × Coin) → CoinStore → Bool × CoinStore
  | [], V => (true, V)
  | (input, coin) :: rest, V =>
      let V := (V.put input.outpoint coin.restored).unmarkAll input.leaves.1
      if input.leaves.2 then restoreInputs rest V else (false, V)

def undoTransaction (tx : Transaction) (spentCoins : List Coin) (V : CoinStore) :
    Bool × CoinStore :=
  let V := V.eraseAll tx.outpoints
  if tx.isCoinbase then (true, V)
  else if spentCoins.length ≠ tx.inputs.length then (false, V)
  else restoreInputs (tx.inputs.zip spentCoins) V

/-- Marking stops at a leaf that was seen before. -/
def replayLeaves :
    List NoiseLeafKey → List NoiseLeafKey → CoinStore → Option (List NoiseLeafKey) × CoinStore
  | seen, [], V => (some seen, V)
  | seen, key :: keys, V =>
      if key ∈ seen then (none, V) else replayLeaves (seen ++ [key]) keys (V.mark key)

def replayInputs : List NoiseLeafKey → List TxInput → CoinStore → Bool × CoinStore
  | _, [], V => (true, V)
  | seen, input :: inputs, V =>
      let V := V.erase input.outpoint
      if input.noiseProof.isEmpty then replayInputs seen inputs V
      else
        match replayLeaves seen input.leaves.1 V with
        | (none, V) => (false, V)
        | (some seen, V) => if input.leaves.2 then replayInputs seen inputs V else (false, V)

/-- Applying again what may have been applied before: nothing is required of
the inputs' coins. -/
def applyTransactionForReplay (tx : Transaction) (height : UInt32) (isCoinbase : Bool)
    (V : CoinStore) : Bool × CoinStore :=
  match if isCoinbase then (true, V) else replayInputs [] tx.inputs V with
  | (false, V) => (false, V)
  | (true, V) => (true, V.putAll (tx.newCoins height isCoinbase))

instance : CoinDB CoinStore where
  view := view
  applyTransaction := applyTransaction
  undoTransaction := undoTransaction
  applyTransactionForReplay := applyTransactionForReplay

/-! ### Queries -/

/-- The coins that satisfy a condition, with their outpoints. -/
def coinsWhere (V : CoinStore) (wanted : Coin → Bool) : Finset (OutPoint × Coin) :=
  (V.coins.entries.filterMap fun e => if wanted e.2 then some (e.1, e.2) else none).toFinset

def getBalance (V : CoinStore) (pubkeyHash : Bytes32) : Int64 :=
  ((V.coinsWhere fun coin => coin.pubkeyHash = pubkeyHash).val.map (·.2.value)).fold (· + ·) 0

def getUTXOsForAddress (V : CoinStore) (pubkeyHash : Bytes32) : Finset (OutPoint × Coin) :=
  V.coinsWhere fun coin => coin.pubkeyHash = pubkeyHash

def getUTXOsForAddresses (V : CoinStore) (pubkeyHashes : List Bytes32) :
    Finset (OutPoint × Coin) :=
  V.coinsWhere fun coin => coin.pubkeyHash ∈ pubkeyHashes

@[simp] theorem mem_coinsWhere {V : CoinStore} {wanted : Coin → Bool} {o : OutPoint} {c : Coin} :
    (o, c) ∈ V.coinsWhere wanted ↔ V.getCoin o = some c ∧ wanted c = true := by
  simp only [coinsWhere, Multiset.mem_toFinset, Multiset.mem_filterMap, getCoin,
    Finmap.lookup_eq_some_iff]
  constructor
  · rintro ⟨⟨o', c'⟩, mem, found⟩
    split at found
    · rename_i ok
      cases found
      exact ⟨mem, ok⟩
    · cases found
  · rintro ⟨mem, ok⟩
    exact ⟨⟨o, c⟩, mem, by simp [ok]⟩

end CoinStore

end QmaskCore
