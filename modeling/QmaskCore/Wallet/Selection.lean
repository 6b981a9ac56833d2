import QmaskCore.Lib.FoldUntil
import QmaskCore.Storage.Refinement
import QmaskCore.Validation.Rules
import QmaskCore.Wallet.Created
import QmaskCore.Wallet.LeafUse

/-!
Does a payment that was built account for what it spends?

`createTransaction` draws on the coin set and on what transactions of the pool
pay. An output of the pool that was confirmed since the pool was read is on both
lists, and a coin that a transaction of the pool spends is still in the set.
`Accounts` is what a payment should be, and `Clear` says that the selection comes
to neither kind before it has enough.
-/

namespace QmaskCore

/-- The amounts `chainparams.h` sets: none is negative, and twice as much as there
can be of the coin is still a number. -/
structure Params.Amounts (P : Params) : Prop where
  minTxFee : 0 ≤ P.minTxFee
  dustThreshold : 0 ≤ P.dustThreshold
  maxMoney : 2 * P.maxMoney.toInt < 2 ^ 63

namespace WalletManager

open SmallNetwork

/-- What outputs are worth, as a number that cannot overflow. -/
def worth (coins : List (OutPoint × Coin)) : Int := (coins.map (·.2.value.toInt)).sum

/-- What the selection has counted after it took some outputs. -/
def gathered (coins : List (OutPoint × Coin)) : Int64 :=
  coins.foldl (fun collected u => collected + u.2.value) 0

/-- What some transactions spend. -/
def spentBy (txs : List Transaction) : List OutPoint :=
  txs.flatMap fun p => p.inputs.map (·.outpoint)

/-- The output is one a transaction pays. -/
def PaidBy (p : Transaction) (u : OutPoint × Coin) : Prop :=
  ∃ o out, p.outputs[o]? = some out ∧ u.1 = p.outpoint o ∧ u.2.value = out.value ∧
    u.2.pubkeyHash = out.getPubkeyHash

/-- A payment accounts for what it spends: distinct outputs of the wallet, ready to
spend and free, worth what it pays and a fee. -/
structure Accounts (P : Params) (K : WalletParams) (toAddress : List UInt8) (amount fee : Int64)
    (utxoSet : UTXOSet) (chainHeight : UInt32) (poolTxs : List Transaction) (w w' : WalletManager)
    (selected : List (OutPoint × Coin)) (built : Transaction) : Prop where
  spends : built.inputs.map (·.outpoint) = selected.map (·.1)
  distinct : (built.inputs.map (·.outpoint)).Nodup
  free : ∀ o ∈ built.inputs.map (·.outpoint), w.mHeldOutpoints.lookup o = none
  mature : ∀ o ∈ built.inputs.map (·.outpoint), ∀ c, utxoSet.getCoin o = some c →
    isSpendableNow P c chainHeight = true
  unspent : ∀ o ∈ built.inputs.map (·.outpoint), o ∉ spentBy poolTxs
  source : ∀ u ∈ selected, utxoSet.getCoin u.1 = some u.2 ∨ ∃ p ∈ poolTxs, PaidBy p u
  own : ∀ u ∈ selected, u.2.pubkeyHash ∈ w.mAddresses.map (·.pubkeyHash)
  pays : ∃ hash, decodeAddress P K toAddress = .ok hash ∧
    built.outputs.head? = some (.payTo amount hash)
  atLeast : fee.toInt ≤ worth selected - built.totalOut
  atMost : worth selected - built.totalOut ≤ fee.toInt + P.dustThreshold.toInt
  held : ∀ o, w'.mHeldOutpoints.lookup o =
    if o ∈ built.inputs.map (·.outpoint) then some built.hash else w.mHeldOutpoints.lookup o

/-- The selection comes to an output: no front of those before it is enough. -/
structure Reached (needed : Int64) (coins front : List (OutPoint × Coin)) (u : OutPoint × Coin) :
    Prop where
  listed : front ++ [u] <+: coins
  short : ∀ f, f <+: front → gathered f < needed

/-- No output that the selection comes to is one it has taken already, one that a
transaction of the pool spends, or one of the set that is not mature; and where it
has enough it counted right. -/
structure Clear (P : Params) (utxoSet : UTXOSet) (chainHeight : UInt32)
    (poolTxs : List Transaction) (needed : Int64) (coins : List (OutPoint × Coin)) : Prop where
  once : ∀ front u, Reached needed coins front u → u.1 ∉ front.map (·.1)
  unspent : ∀ front u, Reached needed coins front u → u.1 ∉ spentBy poolTxs
  mature : ∀ front u, Reached needed coins front u → ∀ c, utxoSet.getCoin u.1 = some c →
    isSpendableNow P c chainHeight = true
  counted : ∀ front u, Reached needed coins front u → needed ≤ gathered (front ++ [u]) →
    (gathered (front ++ [u])).toInt = worth (front ++ [u])

section

variable {P : Params} {K : WalletParams} {w w' : WalletManager} {needed : Int64}
  {coins front : List (OutPoint × Coin)} {u : OutPoint × Coin}

/-! ### The selection -/

theorem selectCoins_eq : ∀ {coins : List (OutPoint × Coin)} {collected : Int64},
    selectCoins needed collected coins =
      FoldUntil.foldUntil (fun collected u => collected + u.2.value) (needed ≤ ·) collected
        coins := by
  intro coins
  induction coins with
  | nil => exact rfl
  | cons u coins ih =>
      intro collected
      rw [selectCoins, FoldUntil.foldUntil, ih]

theorem selectCoins_snd :
    (selectCoins needed 0 coins).2 = gathered (selectCoins needed 0 coins).1 := by
  rw [selectCoins_eq, FoldUntil.foldUntil_snd, gathered]

theorem selectCoins_front : (selectCoins needed 0 coins).1 <+: coins := by
  rw [selectCoins_eq]
  exact FoldUntil.foldUntil_front

/-- What is selected is what the selection comes to. -/
theorem prefix_selectCoins_iff :
    front ++ [u] <+: (selectCoins needed 0 coins).1 ↔ Reached needed coins front u := by
  rw [selectCoins_eq, FoldUntil.prefix_foldUntil_iff]
  constructor
  · rintro ⟨listed, never⟩
    exact ⟨listed, fun f isFront => Int64.not_le.mp (never f isFront)⟩
  · rintro ⟨listed, short⟩
    exact ⟨listed, fun f isFront => Int64.not_le.mpr (short f isFront)⟩

/-- Every selected output was come to. -/
theorem reached_of_mem (mem : u ∈ (selectCoins needed 0 coins).1) :
    ∃ front, Reached needed coins front u := by
  obtain ⟨front, rest, split⟩ := List.append_of_mem mem
  refine ⟨front, prefix_selectCoins_iff.mp ?_⟩
  rw [split]
  exact ⟨rest, by simp⟩

theorem Reached.mem (reached : Reached needed coins front u) :
    u ∈ (selectCoins needed 0 coins).1 :=
  (prefix_selectCoins_iff.mpr reached).subset (by simp)

/-- The selection ends where it has enough. -/
theorem Reached.selected (reached : Reached needed coins front u)
    (enough : needed ≤ gathered (front ++ [u])) :
    (selectCoins needed 0 coins).1 = front ++ [u] := by
  obtain ⟨rest, split⟩ := prefix_selectCoins_iff.mpr reached
  cases rest with
  | nil => rw [← split, List.append_nil]
  | cons v rest =>
      have next : front ++ [u] ++ [v] <+: (selectCoins needed 0 coins).1 := ⟨rest, by simp [← split]⟩
      have short := (prefix_selectCoins_iff.mp next).short _ List.prefix_rfl
      exact absurd enough (Int64.not_le.mpr short)

/-- The counter may have wrapped around. -/
theorem toInt_gathered_dvd (coins : List (OutPoint × Coin)) :
    ((2 : Int) ^ 64) ∣ (gathered coins).toInt - worth coins := by
  induction coins using List.reverseRecOn with
  | nil => simp [gathered, worth]
  | append_singleton coins u ih =>
      have more : gathered (coins ++ [u]) = gathered coins + u.2.value := by
        simp [gathered]
      have wrapped := Int.dvd_bmod_sub_self
        (x := (gathered coins).toInt + u.2.value.toInt) (m := 2 ^ 64)
      rw [more, Int64.toInt_add]
      simp only [worth, List.map_append, List.sum_append, List.map_singleton,
        List.sum_singleton] at ih ⊢
      omega

/-! ### What a payment may spend -/

section

variable {utxoSet : UTXOSet} {chainHeight : UInt32} {poolTxs : List Transaction}

theorem of_mem_spendableCoins (mem : u ∈ (spendableCoins P utxoSet chainHeight w).1) :
    utxoSet.getCoin u.1 = some u.2 ∧ u.2.pubkeyHash ∈ w.mAddresses.map (·.pubkeyHash) ∧
      isSpendableNow P u.2 chainHeight = true ∧ w.mHeldOutpoints.lookup u.1 = none := by
  obtain ⟨walked, kept⟩ := List.mem_filter.mp mem
  rw [Bool.and_eq_true, Option.isNone_iff_eq_none] at kept
  unfold UTXOSet.getUTXOsForAddresses at walked
  split at walked
  · cases walked
  · obtain ⟨found, own⟩ := UTXOSet.mem_walkCoins.mp walked
    exact ⟨found, of_decide_eq_true own, kept⟩

theorem of_mem_poolCoins (mem : u ∈ poolCoins poolTxs chainHeight w) :
    (∃ p ∈ poolTxs, PaidBy p u) ∧ u.2.pubkeyHash ∈ w.mAddresses.map (·.pubkeyHash) ∧
      u.1 ∉ spentBy poolTxs ∧ w.mHeldOutpoints.lookup u.1 = none := by
  obtain ⟨p, memP, mem⟩ := List.mem_flatMap.mp mem
  obtain ⟨⟨out, o⟩, memO, kept⟩ := List.mem_filterMap.mp mem
  have listed := List.mem_zipIdx_iff_getElem?.mp memO
  dsimp only at kept listed
  split at kept
  · cases kept
  split at kept
  · cases kept
  rename_i own
  split at kept
  · cases kept
  rename_i unspent
  split at kept
  · cases kept
  rename_i free
  cases kept
  refine ⟨⟨p, memP, o, out, listed, rfl, rfl, rfl⟩, ?_, unspent,
    Option.not_isSome_iff_eq_none.mp free⟩
  rw [List.mem_map]
  by_contra! none
  exact own (List.all_eq_true.mpr fun addr memA => decide_eq_true (none addr memA))

/-- Whatever is listed is the wallet's, somewhere to be found, and free. -/
theorem of_mem_spendable {pool : Option (List Transaction)}
    (mem : u ∈ spendable P utxoSet chainHeight pool w) :
    (utxoSet.getCoin u.1 = some u.2 ∨ ∃ p ∈ pool.getD [], PaidBy p u) ∧
      u.2.pubkeyHash ∈ w.mAddresses.map (·.pubkeyHash) ∧ w.mHeldOutpoints.lookup u.1 = none := by
  rcases List.mem_append.mp mem with confirmed | pooled
  · obtain ⟨found, own, -, free⟩ := of_mem_spendableCoins confirmed
    exact ⟨.inl found, own, free⟩
  · obtain ⟨paid, own, -, free⟩ := of_mem_poolCoins pooled
    exact ⟨.inr paid, own, free⟩

end

/-! ### What is built of it -/

theorem buildInputs_outpoints {seed : Bytes64} : ∀ {selected : List (OutPoint × Coin)}
    {inputs : List TxInput}, buildInputs K seed w selected = .ok inputs →
    inputs.map (·.outpoint) = selected.map (·.1) := by
  intro selected
  induction selected with
  | nil =>
      intro inputs made
      cases made
      rfl
  | cons u selected ih =>
      intro inputs made
      rw [buildInputs] at made
      split at made
      · cases made
      split at made
      · cases made
      · rename_i rest more
        cases made
        rw [List.map_cons, List.map_cons, ih more]
        rfl

theorem buildInputs_unsigned {seed : Bytes64} : ∀ {selected : List (OutPoint × Coin)}
    {inputs : List TxInput}, buildInputs K seed w selected = .ok inputs →
    ∀ input ∈ inputs, input.noiseProof = [] := by
  intro selected
  induction selected with
  | nil =>
      intro inputs made input mem
      cases made
      cases mem
  | cons u selected ih =>
      intro inputs made
      rw [buildInputs] at made
      split at made
      · cases made
      split at made
      · cases made
      · rename_i rest more
        cases made
        exact List.forall_mem_cons.mpr ⟨rfl, ih more⟩

theorem build_eq_ok {inputs : List TxInput} {outputs : List TxOutput} {built : Transaction}
    (made : build K inputs outputs = .ok built) :
    built.inputs = inputs ∧ built.outputs = outputs := by
  unfold build at made
  split at made
  · cases made
    exact ⟨rfl, rfl⟩
  · cases made

/-- Change is paid where it is above the threshold. -/
theorem changeOutput_eq_ok {left : Int64} {writes : Bool} {change : List TxOutput}
    (made : changeOutput P K left writes w = (.ok change, w')) :
    P.dustThreshold < left ∧ (∃ hash, change = [.payTo left hash]) ∨
      left ≤ P.dustThreshold ∧ change = [] := by
  unfold changeOutput at made
  split at made
  · rename_i above
    split at made
    · cases made
    · cases made
      exact .inl ⟨above, _, rfl⟩
  · rename_i below
    cases made
    exact .inr ⟨Int64.not_lt.mp below, rfl⟩

/-- Keys are distinct when none is in front of itself. -/
theorem nodup_keys_iff {coins : List (OutPoint × Coin)} : (coins.map (·.1)).Nodup ↔
    ∀ front u, front ++ [u] <+: coins → u.1 ∉ front.map (·.1) := by
  induction coins using List.reverseRecOn with
  | nil => simp
  | append_singleton coins u ih =>
      simp only [List.map_append, List.map_singleton, List.prefix_concat_iff]
      rw [← List.concat_eq_append, List.nodup_concat, ih]
      constructor
      · rintro ⟨new, earlier⟩ front v (whole | inside)
        · obtain ⟨rfl, same⟩ := List.append_inj' whole rfl
          cases same
          exact new
        · exact earlier front v inside
      · intro all
        exact ⟨all coins u (.inl rfl), fun front v inside => all front v (.inr inside)⟩

/-! ### A payment that was drawn from a list -/

/-- A payment that is what selecting from a list of outputs makes of an amount and a
fee, with the change it pays back. -/
structure Drawn (P : Params) (coins : List (OutPoint × Coin)) (amount fee : Int64)
    (message : Option (List UInt8)) (toPubkeyHash : Bytes32) (change : List TxOutput)
    (built : Transaction) : Prop where
  positive : 0 < amount
  floor : P.minTxFee ≤ fee
  message_le : (message.getD []).length ≤ P.maxOpReturnSize.toNat
  outpoints : built.inputs.map (·.outpoint) = (selectCoins (amount + fee) 0 coins).1.map (·.1)
  unsigned : ∀ input ∈ built.inputs, input.noiseProof = []
  outputs : built.outputs = paid amount toPubkeyHash message ++ change
  covered : amount + fee ≤ gathered (selectCoins (amount + fee) 0 coins).1
  left :
    let left := gathered (selectCoins (amount + fee) 0 coins).1 - (amount + fee)
    P.dustThreshold < left ∧ (∃ hash, change = [.payTo left hash]) ∨
      left ≤ P.dustThreshold ∧ change = []

section

variable {amount fee : Int64} {toAddress : List UInt8} {utxoSet : UTXOSet} {chainHeight : UInt32}
  {coin : Int64} {poolTxs : Option (List Transaction)} {message : Option (List UInt8)}
  {writes : Bool} {built : Transaction} {toPubkeyHash : Bytes32} {change : List TxOutput}

theorem drawn_of_created
    (created : createTransaction P K coin toAddress amount fee utxoSet chainHeight poolTxs message
      writes w = (.ok built, w')) :
    let coins := spendable P utxoSet chainHeight poolTxs w
    ∃ toPubkeyHash change, decodeAddress P K toAddress = .ok toPubkeyHash ∧
      Drawn P coins amount fee message toPubkeyHash change built ∧
      ∀ o, w'.mHeldOutpoints.lookup o =
        if o ∈ built.inputs.map (·.outpoint) then some built.hash
        else w.mHeldOutpoints.lookup o := by
  intro coins
  obtain ⟨seed, toPubkeyHash, inputs, change, w₁, short, -, -, positive, floor, decoded, covered,
    spends, left, made, rfl⟩ := createTransaction_eq_ok created
  obtain ⟨rfl, outputs⟩ := build_eq_ok made
  have outpoints := buildInputs_outpoints spends
  have paidBack := changeOutput_eq_ok left
  rw [selectCoins_snd] at covered paidBack
  refine ⟨toPubkeyHash, change, decoded, ⟨positive, floor, short, outpoints,
    buildInputs_unsigned spends, outputs, covered, paidBack⟩, fun o => ?_⟩
  have kept := held_changeOutput (P := P) (K := K)
    ((selectCoins (amount + fee) 0 coins).2 - (amount + fee)) writes w
  rw [left] at kept
  rw [lookup_hold, outpoints, kept]

theorem totalOut_paid (outputs : built.outputs = paid amount toPubkeyHash message ++ change) :
    built.totalOut = amount.toInt + (change.map (·.value.toInt)).sum := by
  have data : ((if message.getD [] = [] then [] else [⟨0, createNullData (message.getD [])⟩] :
      List TxOutput).map (·.value.toInt)).sum = 0 := by
    split
    · rfl
    · rfl
  rw [Transaction.totalOut, outputs, paid, List.cons_append, List.map_cons, List.sum_cons,
    List.map_append, List.sum_append, data, zero_add]
  rfl

namespace Drawn

/-- What was selected is the front of the list with as many outputs as the payment has inputs. -/
theorem take_eq (drawn : Drawn P coins amount fee message toPubkeyHash change built) :
    coins.take built.inputs.length = (selectCoins (amount + fee) 0 coins).1 := by
  have count := congrArg List.length drawn.outpoints
  rw [List.length_map, List.length_map] at count
  rw [count]
  exact (List.prefix_iff_eq_take.mp selectCoins_front).symm

/-- What was counted is what is paid, the fee, and what is not worth an output. -/
theorem rest (drawn : Drawn P coins amount fee message toPubkeyHash change built)
    (amounts : P.Amounts) (needed : (amount + fee).toInt = amount.toInt + fee.toInt) :
    ∃ rest : Int, 0 ≤ rest ∧ rest ≤ P.dustThreshold.toInt ∧ (change ≠ [] → rest = 0) ∧
      (gathered (coins.take built.inputs.length)).toInt = built.totalOut + fee.toInt + rest := by
  have positive := drawn.positive
  have floor := drawn.floor
  have low := amounts.minTxFee
  have dust := amounts.dustThreshold
  have covered := drawn.covered
  have left := drawn.left
  have limit := (gathered (selectCoins (amount + fee) 0 coins).1).toInt_lt
  rw [drawn.take_eq, totalOut_paid drawn.outputs]
  rw [Int64.lt_iff_toInt_lt, Int64.toInt_zero] at positive
  rw [Int64.le_iff_toInt_le] at floor low dust covered
  rw [Int64.toInt_zero] at low dust
  rw [needed] at covered
  have rest : (gathered (selectCoins (amount + fee) 0 coins).1 - (amount + fee)).toInt =
      (gathered (selectCoins (amount + fee) 0 coins).1).toInt - (amount.toInt + fee.toInt) := by
    rw [Int64.toInt_sub, needed]
    exact bmod_fits (by omega) (by omega)
  rcases left with ⟨-, hash, rfl⟩ | ⟨below, rfl⟩
  · refine ⟨0, le_rfl, dust, fun _ => rfl, ?_⟩
    have paidBack : ([TxOutput.payTo (gathered (selectCoins (amount + fee) 0 coins).1 -
        (amount + fee)) hash].map (·.value.toInt)).sum =
          (gathered (selectCoins (amount + fee) 0 coins).1 - (amount + fee)).toInt := by
      simp [TxOutput.payTo]
    rw [paidBack, rest]
    ring
  · rw [Int64.le_iff_toInt_le, rest] at below
    refine ⟨_, by omega, below, fun some => absurd rfl some, ?_⟩
    rw [List.map_nil, List.sum_nil]
    ring

end Drawn

/-- The two amounts of a payment can be added. -/
theorem toInt_needed (amounts : P.Amounts) (positive : 0 < amount) (floor : P.minTxFee ≤ fee)
    (fits : amount.toInt + fee.toInt < 2 ^ 63) :
    (amount + fee).toInt = amount.toInt + fee.toInt := by
  have low := amounts.minTxFee
  rw [Int64.lt_iff_toInt_lt, Int64.toInt_zero] at positive
  rw [Int64.le_iff_toInt_le] at floor low
  rw [Int64.toInt_zero] at low
  rw [Int64.toInt_add]
  exact bmod_fits (by omega) fits

/-- What a payment spends is worth what it pays, the fee and no more than what is
not worth an output, just where the selection counted right. -/
theorem balance_iff (amounts : P.Amounts) (small : amount ≤ P.maxMoney)
    (smallFee : fee ≤ P.maxMoney)
    (drawn : Drawn P coins amount fee message toPubkeyHash change built) :
    fee.toInt ≤ worth (coins.take built.inputs.length) - built.totalOut ∧
        worth (coins.take built.inputs.length) - built.totalOut ≤
          fee.toInt + P.dustThreshold.toInt ↔
      (gathered (coins.take built.inputs.length)).toInt =
        worth (coins.take built.inputs.length) := by
  have wrapped := toInt_gathered_dvd (coins.take built.inputs.length)
  have dustLimit := P.dustThreshold.toInt_lt
  have fits : amount.toInt + fee.toInt < 2 ^ 63 := by
    have limit := amounts.maxMoney
    rw [Int64.le_iff_toInt_le] at small smallFee
    omega
  obtain ⟨rest, low, high, -, counted⟩ := drawn.rest amounts
    (toInt_needed amounts drawn.positive drawn.floor fits)
  constructor
  · rintro ⟨atLeast, atMost⟩
    omega
  · intro right
    omega

end

end

namespace StaleSnapshot

/-- The genesis coin is paid to the wallet. -/
def received : Transaction :=
  { pay 3 1 0 50 with
    outputs := [.payTo 50 (addressHash smallNetwork smallWallet 0 0 0 false)]
    outputs_le := by decide }

/-- The set with that payment in it. -/
def utxoSet : UTXOSet :=
  let opened := ((UTXOSet.ofDisk .empty).applyTransaction (mint 1 50) 0 true).2
  (opened.applyTransaction received 1 false).2

def outside : List UInt8 := 0 :: (1 : Bytes32).toBytes ++ [0, 0, 0, 0]

/-- A payment is built with what the pool held some time ago. -/
def payment (amount : Int64) (poolTxs : List Transaction) :
    Except WalletError Transaction × WalletManager :=
  createTransaction smallNetwork smallWallet 1 outside amount 0
    utxoSet 1 (some poolTxs) none true OneLeaf.wallet

theorem amounts : smallNetwork.Amounts := ⟨by decide, by decide, by decide⟩

end StaleSnapshot

end WalletManager

end QmaskCore
