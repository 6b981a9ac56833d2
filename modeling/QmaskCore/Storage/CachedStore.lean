import QmaskCore.Storage.Commit

/-!
Any sequence of operations on the coin set.

`CoinOp` lists what a client can ask of the set; `UTXOSet.run` does it on the
cached set and `CoinStore.run` on the plain store, where a commit does nothing.
`cached_set_refines_store`: the two return the same results, and after any
sequence every query gives the same answer.
-/

namespace QmaskCore

inductive CoinOp where
  | addCoin (outpoint : OutPoint) (coin : Coin)
  | spendCoin (outpoint : OutPoint)
  | applyTransaction (tx : Transaction) (height : UInt32) (isCoinbase : Bool)
  | undoTransaction (tx : Transaction) (spentCoins : List Coin)
  | markNoiseLeafSpent (key : NoiseLeafKey)
  | unmarkNoiseLeafSpent (key : NoiseLeafKey)
  | flush
  | sync

/-- What an operation returns: a flag, or the coins a transaction spent. -/
inductive CoinResult where
  | flag (ok : Bool)
  | spent (coins : Option (List Coin))
deriving DecidableEq

/-- One operation on the cached set. -/
def UTXOSet.step (P : Params) (u : UTXOSet) : CoinOp → CoinResult × UTXOSet
  | .addCoin outpoint coin => (u.addCoin outpoint coin).map .flag id
  | .spendCoin outpoint => (u.spendCoin outpoint).map .flag id
  | .applyTransaction tx height isCoinbase =>
      (u.applyTransaction tx height isCoinbase).map .spent id
  | .undoTransaction tx spentCoins => (u.undoTransaction tx spentCoins).map .flag id
  | .markNoiseLeafSpent key => (.flag true, u.markNoiseLeafSpent key)
  | .unmarkNoiseLeafSpent key => (.flag true, u.unmarkNoiseLeafSpent key)
  | .flush => (.flag true, u.flush P)
  | .sync => (.flag true, u.sync P)

/-- One operation on the plain store. -/
def CoinStore.step (V : CoinStore) : CoinOp → CoinResult × CoinStore
  | .addCoin outpoint coin => (V.addCoin outpoint coin).map .flag id
  | .spendCoin outpoint => (V.spendCoin outpoint).map .flag id
  | .applyTransaction tx height isCoinbase =>
      (V.applyTransaction tx height isCoinbase).map .spent id
  | .undoTransaction tx spentCoins => (V.undoTransaction tx spentCoins).map .flag id
  | .markNoiseLeafSpent key => (.flag true, V.mark key)
  | .unmarkNoiseLeafSpent key => (.flag true, V.unmark key)
  | .flush => (.flag true, V)
  | .sync => (.flag true, V)

def UTXOSet.run (P : Params) (u : UTXOSet) : List CoinOp → List CoinResult × UTXOSet
  | [] => ([], u)
  | op :: ops =>
      let out := UTXOSet.run P (u.step P op).2 ops
      ((u.step P op).1 :: out.1, out.2)

def CoinStore.run (V : CoinStore) : List CoinOp → List CoinResult × CoinStore
  | [] => ([], V)
  | op :: ops =>
      let out := CoinStore.run (V.step op).2 ops
      ((V.step op).1 :: out.1, out.2)

/-- The plain store of what a database holds. -/
def CoinStore.ofDisk (db : UTXODB) : CoinStore where
  coins := (db.coins.filter fun _ coin => !coin.isSpent).toFinmap
  leaves := db.leaves.toFinset
  unspent := by
    intro o c found
    have kept := AList.lookup_filter.mp ((Finmap.lookup_toFinmap o _).symm.trans found)
    simpa using kept.2

/-- Every query of the set gives the answer the store gives, address queries
as sets of pairs that the set lists without repetition. -/
structure SameAnswers (u : UTXOSet) (V : CoinStore) : Prop where
  getCoin : ∀ outpoint, u.getCoin outpoint = V.getCoin outpoint
  haveCoin : ∀ outpoint, u.haveCoin outpoint = V.haveCoin outpoint
  isNoiseLeafSpent : ∀ key, u.isNoiseLeafSpent key = V.isNoiseLeafSpent key
  getBalance : ∀ pubkeyHash, u.getBalance pubkeyHash = V.getBalance pubkeyHash
  getUTXOsForAddress : ∀ pubkeyHash, (u.getUTXOsForAddress pubkeyHash).Nodup ∧
    (u.getUTXOsForAddress pubkeyHash).toFinset = V.getUTXOsForAddress pubkeyHash
  getUTXOsForAddresses : ∀ pubkeyHashes, (u.getUTXOsForAddresses pubkeyHashes).Nodup ∧
    (u.getUTXOsForAddresses pubkeyHashes).toFinset = V.getUTXOsForAddresses pubkeyHashes

namespace UTXOSet

/-- A set opened over a database reads as what the database holds. -/
theorem toCoinStore_ofDisk (db : UTXODB) : (ofDisk db).toCoinStore = CoinStore.ofDisk db := by
  refine CoinStore.ext_view (fun o => ?_) fun k => ?_
  · rw [getCoin_toCoinStore]
    ext c
    refine Iff.trans ?_ (AList.lookup_filter.symm.trans (by
      rw [CoinStore.getCoin, CoinStore.ofDisk, Finmap.lookup_toFinmap]))
    simp only [getCoin, ofDisk, AList.lookup_empty]
    cases db.coins.lookup o with
    | none => simp
    | some coin => grind
  · simp [mem_leaves_toCoinStore, ofDisk, CoinStore.ofDisk]

theorem toFinset_walkCoins (u : UTXOSet) (wanted : Coin → Bool) :
    (u.walkCoins wanted).Nodup ∧ (u.walkCoins wanted).toFinset = u.toCoinStore.coinsWhere wanted := by
  have distinct : (u.walkCoins wanted).Nodup := (u.nodup_walkCoins wanted).of_map
  refine ⟨distinct, Finset.val_injective ?_⟩
  rw [List.toFinset_val, List.Nodup.dedup distinct, coinsWhere_toCoinStore]

theorem sameAnswers_toCoinStore (u : UTXOSet) : SameAnswers u u.toCoinStore where
  getCoin o := (u.getCoin_toCoinStore o).symm
  haveCoin o := (u.haveCoin_toCoinStore o).symm
  isNoiseLeafSpent k := (u.isNoiseLeafSpent_toCoinStore k).symm
  getBalance a := (u.getBalance_toCoinStore a).symm
  getUTXOsForAddress a := u.toFinset_walkCoins _
  getUTXOsForAddresses as := by
    unfold getUTXOsForAddresses CoinStore.getUTXOsForAddresses
    split
    · rename_i none
      rw [List.isEmpty_iff.mp none]
      refine ⟨List.nodup_nil, (Finset.eq_empty_of_forall_notMem ?_).symm⟩
      rintro ⟨o, c⟩ mem
      simp at mem
    · exact u.toFinset_walkCoins _

/-- One operation keeps the flags true. -/
theorem WF.step {u : UTXOSet} (wf : u.WF) (P : Params) (op : CoinOp) : (u.step P op).2.WF := by
  cases op with
  | addCoin o c => exact WF.steady.addCoin o c wf
  | spendCoin o => exact WF.steady.spendCoin o wf
  | applyTransaction tx height isCoinbase => exact WF.steady.applyTransaction tx height isCoinbase wf
  | undoTransaction tx spentCoins => exact WF.steady.undoTransaction tx spentCoins wf
  | markNoiseLeafSpent k => exact wf.markNoiseLeafSpent k
  | unmarkNoiseLeafSpent k => exact wf.unmarkNoiseLeafSpent k
  | flush => exact wf.flushCache P _
  | sync =>
      have flushed : (u.flush P).WF := wf.flushCache P _
      exact ⟨flushed.clean, flushed.dirtyLeaf, flushed.cachedLeaf, flushed.erasedLeaf⟩

theorem Truthful.step {u : UTXOSet} (truthful : u.Truthful) (P : Params) (op : CoinOp) :
    (u.step P op).2.Truthful := by
  cases op with
  | addCoin o c => exact Truthful.steady.addCoin o c truthful
  | spendCoin o => exact Truthful.steady.spendCoin o truthful
  | applyTransaction tx height isCoinbase =>
      exact Truthful.steady.applyTransaction tx height isCoinbase truthful
  | undoTransaction tx spentCoins => exact Truthful.steady.undoTransaction tx spentCoins truthful
  | markNoiseLeafSpent k => exact truthful.markNoiseLeafSpent k
  | unmarkNoiseLeafSpent k => exact truthful.unmarkNoiseLeafSpent k
  | flush => exact (truthful.flushCache P _).truthful
  | sync =>
      have flushed : (u.flush P).Truthful := (truthful.flushCache P _).truthful
      exact ⟨flushed.settled, flushed.dirtyLeaf, flushed.cachedLeaf, flushed.erasedLeaf⟩

/-- One operation returns what the store returns and reads as the store does. -/
theorem toCoinStore_step {u : UTXOSet} (truthful : u.Truthful) (P : Params) (op : CoinOp) :
    Prod.map id toCoinStore (u.step P op) = u.toCoinStore.step op := by
  cases op with
  | addCoin o c => rw [CoinStore.step, ← toCoinStore_addCoin]; rfl
  | spendCoin o => rw [CoinStore.step, ← toCoinStore_spendCoin]; rfl
  | applyTransaction tx height isCoinbase =>
      rw [CoinStore.step, ← toCoinStore_applyTransaction]; rfl
  | undoTransaction tx spentCoins => rw [CoinStore.step, ← toCoinStore_undoTransaction]; rfl
  | markNoiseLeafSpent k => rw [CoinStore.step, ← toCoinStore_markNoiseLeafSpent]; rfl
  | unmarkNoiseLeafSpent k => rw [CoinStore.step, ← toCoinStore_unmarkNoiseLeafSpent]; rfl
  | flush => exact Prod.ext rfl (truthful.toCoinStore_flushCache P _)
  | sync => exact Prod.ext rfl (truthful.toCoinStore_flushCache P _)

theorem toCoinStore_step_snd {u : UTXOSet} (truthful : u.Truthful) (P : Params) (op : CoinOp) :
    (u.step P op).2.toCoinStore = (u.toCoinStore.step op).2 := by
  rw [← toCoinStore_step truthful P op, Prod.map_snd]

theorem toCoinStore_run (P : Params) (ops : List CoinOp) : ∀ {u : UTXOSet}, u.Truthful →
    Prod.map id toCoinStore (u.run P ops) = u.toCoinStore.run ops := by
  induction ops with
  | nil => exact fun _ => rfl
  | cons op ops ih =>
      intro u truthful
      have rest := ih (truthful.step P op)
      have result : (u.toCoinStore.step op).1 = (u.step P op).1 := by
        rw [← toCoinStore_step truthful P op, Prod.map_fst, id]
      rw [CoinStore.run, ← toCoinStore_step_snd truthful P op, result, ← rest, run]
      rfl

end UTXOSet

/-- The cached set refines the plain store: from any database, over any
sequence of operations, both return the same results and end giving the same
answers. -/
theorem cached_set_refines_store (P : Params) (db : UTXODB) (ops : List CoinOp) :
    ((UTXOSet.ofDisk db).run P ops).1 = ((CoinStore.ofDisk db).run ops).1 ∧
      SameAnswers ((UTXOSet.ofDisk db).run P ops).2 ((CoinStore.ofDisk db).run ops).2 := by
  have same := UTXOSet.toCoinStore_run P ops (UTXOSet.wf_ofDisk db).truthful
  rw [← UTXOSet.toCoinStore_ofDisk, ← same]
  exact ⟨rfl, UTXOSet.sameAnswers_toCoinStore _⟩

end QmaskCore
