import QmaskCore.Ledger.Runs

/-!
Undoing a block gives back the coins it was applied to.

Taking transactions back loses a coin only where an output was stored over it
(`getCoin_undoneAll`). When the ids of the block name no unspent coin there is
no such output (`undoneAll_afterAll`), so undoing a block that was applied
(`undo_inverts_apply`) and rolling back one that was refused
(`refused_block_leaves_no_trace`) both restore every answer. The sets of a node
are always such that a block with new ids may come (`awaits_after_run`).
-/

namespace QmaskCore

/-- A coin whose transaction is none of those listed is not stored over. -/
theorem clobbers_eq_false {o : OutPoint} : ∀ {txs : List Transaction},
    (∀ tx ∈ txs, tx.hash ≠ o.txHash) → clobbers o txs = false := by
  intro txs
  induction txs with
  | nil => exact fun _ => rfl
  | cons tx txs ih =>
      intro apart
      have other : o ∉ tx.outpoints := fun own =>
        apart tx List.mem_cons_self (Transaction.mem_outpoints.mp own).1.symm
      rw [clobbers, if_neg other, ih fun t mem => apart t (List.mem_cons_of_mem _ mem), ite_self]

/-- Transactions whose ids name no unspent coin are taken back without a trace. -/
theorem undoneAll_afterAll {height : UInt32} {V : CoinStore} {done : List (Transaction × List Coin)}
    (back : RevertibleAll height V done)
    (new : ∀ tx ∈ done.map (·.1), ∀ o, o.txHash = tx.hash → V.getCoin o = none) :
    (V.afterAll height (done.map (·.1))).undoneAll done = V := by
  refine back.undoneAll fun {o} hit => ?_
  by_contra found
  have apart : ∀ tx ∈ done.map (·.1), tx.hash ≠ o.txHash :=
    fun tx mem same => found (new tx mem o same.symm)
  rw [clobbers_eq_false apart] at hit
  cases hit

/-- What a set must be like for a block to come: no coin lies under the index
that only a coinbase names, and the ids of the block are new. -/
structure UTXOSet.Awaits (S : UTXOSet) (block : Block) : Prop where
  indices : ∀ o, o.index = 0xFFFFFFFF → S.getCoin o = none
  new : ∀ tx ∈ block.transactions, ∀ o, o.txHash = tx.hash → S.getCoin o = none

section

variable {P : Params} {S S' : UTXOSet} {height : UInt32} {block : Block}

theorem UTXOSet.Awaits.nullFree (awaits : S.Awaits block) : S.toCoinStore.NullFree := by
  intro o null
  rw [UTXOSet.getCoin_toCoinStore]
  exact awaits.indices o null

theorem UTXOSet.Awaits.absent (awaits : S.Awaits block) {tx : Transaction}
    (mem : tx ∈ block.transactions) {o : OutPoint} (own : o.txHash = tx.hash) :
    S.toCoinStore.getCoin o = none := by
  rw [UTXOSet.getCoin_toCoinStore]
  exact awaits.new tx mem o own

/-- Sets that stand for the same store answer alike. -/
theorem UTXOSet.same_answers (same : S'.toCoinStore = S.toCoinStore) :
    (∀ o, S'.getCoin o = S.getCoin o) ∧
      ∀ key, S'.isNoiseLeafSpent key = S.isNoiseLeafSpent key := by
  constructor
  · intro o
    rw [← UTXOSet.getCoin_toCoinStore, same, UTXOSet.getCoin_toCoinStore]
  · intro key
    rw [← UTXOSet.isNoiseLeafSpent_toCoinStore, same, UTXOSet.isNoiseLeafSpent_toCoinStore]

/-- The transactions a block has applied are transactions of the block. -/
theorem Attempts.mem {V : CoinStore} {done : List (Transaction × List Coin)}
    (attempts : Attempts P height V block done) :
    ∀ tx ∈ (block.coinbaseDone ++ done).map (·.1), tx ∈ block.transactions := by
  intro tx mem
  rw [List.map_append, block.map_fst_coinbaseDone] at mem
  rw [block.transactions_eq]
  rcases List.mem_append.mp mem with coinbase | payment
  · exact List.mem_append_left _ coinbase
  · exact List.mem_append_right _ (attempts.part.subset payment)

/-- Taking back a block whose ids name no unspent coin. -/
theorem AppliesWith.undone {V : CoinStore} {done : List (Transaction × List Coin)}
    (applies : AppliesWith P height V block done)
    (new : ∀ tx ∈ block.transactions, ∀ o, o.txHash = tx.hash → V.getCoin o = none) :
    (V.afterAll height block.transactions).undoneAll (block.coinbaseDone ++ done) = V := by
  have whole : V.afterAll height block.transactions =
      V.afterAll height ((block.coinbaseDone ++ done).map (·.1)) := by
    rw [← applies.afterAll, List.map_append, block.map_fst_coinbaseDone]
    simp [CoinStore.afterAll]
  rw [whole]
  exact undoneAll_afterAll applies.pays.revertibleAll fun tx mem =>
    new tx (applies.attempts.mem tx mem)

/-- **Undo inverts apply.** A block that was applied is undone with the record of
its application, written to bytes and read back or not, and every coin and every
leaf is again what it was. -/
theorem undo_inverts_apply {undo : BlockUndo} (shape : block.Shaped) (awaits : S.Awaits block)
    (applied : applyBlockTwoPhase P block height S = (some undo, S')) :
    BlockUndo.deserialize undo.serialize = some undo ∧
      ∃ S'', undoBlockTwoPhase block undo S' = (true, S'') ∧
        (∀ o, S''.getCoin o = S.getCoin o) ∧
        ∀ key, S''.isNoiseLeafSpent key = S.isNoiseLeafSpent key := by
  have same := applyBlockTwoPhase_hom UTXOSet.toCoinStore_hom P block height S
  rw [applied] at same
  rcases @applyBlockTwoPhase_eq P block height _ awaits.nullFree shape with
    ⟨applies, ran⟩ | ⟨-, ran⟩
  · rw [ran] at same
    obtain ⟨record, after⟩ := Prod.mk.inj same
    obtain rfl := Option.some.inj record
    have undone := undoBlockTwoPhase_hom UTXOSet.toCoinStore_hom block
      (undoRecord (block.paid P height S.toCoinStore)) S'
    rw [show S'.toCoinStore = _ from after.symm, applies.undo,
      applies.undone fun tx mem o own => awaits.absent mem own] at undone
    generalize undoBlockTwoPhase block _ S' = out at undone ⊢
    obtain ⟨ok, store⟩ := Prod.mk.inj undone
    exact ⟨BlockUndo.deserialize_serialize applies.readable, out.2, Prod.ext ok.symm rfl,
      UTXOSet.same_answers store.symm⟩
  · rw [ran] at same
    cases congrArg Prod.fst same

/-- **A refused block leaves no trace.** Whichever transaction is refused, and
why, every coin and every leaf is what it was before the block. -/
theorem refused_block_leaves_no_trace (shape : block.Shaped) (awaits : S.Awaits block)
    (refused : applyBlockTwoPhase P block height S = (none, S')) :
    (∀ o, S'.getCoin o = S.getCoin o) ∧
      ∀ key, S'.isNoiseLeafSpent key = S.isNoiseLeafSpent key := by
  have same := applyBlockTwoPhase_hom UTXOSet.toCoinStore_hom P block height S
  rw [refused] at same
  rcases @applyBlockTwoPhase_eq P block height _ awaits.nullFree shape with
    ⟨-, ran⟩ | ⟨attempts, ran⟩
  · rw [ran] at same
    cases congrArg Prod.fst same
  · rw [ran] at same
    refine UTXOSet.same_answers ((congrArg Prod.snd same).symm.trans ?_)
    exact undoneAll_afterAll attempts.pays.revertibleAll fun tx mem o own =>
      awaits.absent (attempts.mem tx mem) own

end

/-- After any run of the node a block whose ids name no unspent coin may come. -/
theorem awaits_after_run {P : Params} (sound : P.SoundGenesis) {s₀ : ChainState}
    (opened : ChainState.initializeState P (.ofDisk .empty) = .ok s₀) {ops : List ChainOp}
    (fine : Deliverable P ops) {block : Block}
    (new : ∀ tx ∈ block.transactions, ∀ o, o.txHash = tx.hash → (s₀.run P ops).getCoin o = none) :
    (s₀.run P ops).mUTXOSet.Awaits block where
  indices o null := by
    have rep := (reached sound opened fine).1
    rw [← UTXOSet.getCoin_toCoinStore, rep.coins]
    exact rep.valid.backed.nullFree o null
  new := new

namespace SmallNetwork

/-- A set with one coin. -/
def purse : UTXOSet := .ofDisk { UTXODB.empty with coins := .insert ⟨1, 0⟩ (.ofOutput 50 1 0 true) ∅ }

theorem getCoin_purse {o : OutPoint} (other : o ≠ ⟨1, 0⟩) : purse.getCoin o = none := by
  have absent : purse.mDB.coins.lookup o = none := AList.lookup_insert_ne other
  rw [UTXOSet.getCoin, absent]
  rfl

/-- A block that spends the coin of `purse` for an output of some value. -/
def purchase (value : Int64) : Block :=
  mine 0 1 0 [mint 2 10, pay 4 1 8 value] (by simp [Block.maxTransactions])

theorem awaits_purchase (value : Int64) : purse.Awaits (purchase value) where
  indices o null := by
    apply getCoin_purse
    rintro rfl
    cases null
  new tx mem o own := by
    apply getCoin_purse
    rintro rfl
    rcases List.mem_cons.mp mem with rfl | mem
    · cases own
    · rw [List.mem_singleton.mp mem] at own
      cases own

theorem shaped_purchase (value : Int64) : (purchase value).Shaped := by
  intro tx mem coinbase
  rw [List.mem_singleton.mp mem] at coinbase
  cases coinbase

end SmallNetwork

open SmallNetwork in
theorem undo_inverts_apply_purchase :
    ∃ undo S', applyBlockTwoPhase smallNetwork (purchase 50) 1 purse = (some undo, S') ∧
      BlockUndo.deserialize undo.serialize = some undo ∧
      ∃ S'', undoBlockTwoPhase (purchase 50) undo S' = (true, S'') ∧
        (∀ o, S''.getCoin o = purse.getCoin o) ∧
        ∀ key, S''.isNoiseLeafSpent key = purse.isNoiseLeafSpent key := by
  have goes : (applyBlockTwoPhase smallNetwork (purchase 50) 1 purse).1.isSome = true := by
    decide +kernel
  obtain ⟨undo, ok⟩ := Option.isSome_iff_exists.mp goes
  have applied : applyBlockTwoPhase smallNetwork (purchase 50) 1 purse = (some undo, _) :=
    Prod.ext ok rfl
  exact ⟨undo, _, applied, undo_inverts_apply (shaped_purchase 50) (awaits_purchase 50) applied⟩

open SmallNetwork in
theorem refused_block_leaves_no_trace_purchase :
    ∃ S', applyBlockTwoPhase smallNetwork (purchase 51) 1 purse = (none, S') ∧
      (∀ o, S'.getCoin o = purse.getCoin o) ∧
      ∀ key, S'.isNoiseLeafSpent key = purse.isNoiseLeafSpent key := by
  have stops : (applyBlockTwoPhase smallNetwork (purchase 51) 1 purse).1 = none := by
    decide +kernel
  have refused : applyBlockTwoPhase smallNetwork (purchase 51) 1 purse = (none, _) :=
    Prod.ext stops rfl
  exact ⟨_, refused, refused_block_leaves_no_trace (shaped_purchase 51) (awaits_purchase 51) refused⟩

end QmaskCore
