import QmaskCore.Ledger.Inverse
import QmaskCore.Ledger.Reopened
import QmaskCore.Storage.CutShort

/-!
`ConnectBlock` when a store fails.

A call of `ConnectBlock` that does not return true should leave the tip, the
coins and the leaves as they were. The coins change first, and nothing takes
them back once a store has failed: `connectBlock_allOrNothing_iff` says exactly
which failures do no harm, for every state a node reaches. The tip itself moves
before it is written, so from then on every failure shows.
-/

namespace QmaskCore

theorem Block.reverse_coinbaseDone (block : Block) :
    block.coinbaseDone.reverse = block.coinbaseDone := by
  unfold coinbaseDone
  cases block.coinbase? <;> rfl

namespace UTXOSet

/-- How the payments of a block come to an end, and those before. -/
def stopBlock (P : Params) (failures : Failures) (block : Block) (height : UInt32) (u : UTXOSet) :
    Stop × List Transaction :=
  (applyCoinbase height block.coinbase? u).2.stop P height failures.payment 0 block.payments

section

variable {P : Params} {failures : Failures} {block : Block} {height : UInt32} {u : UTXOSet}

theorem Rolling.start {V : CoinStore} {done : List (Transaction × List Coin)} {w : UTXOSet}
    (coins : w.toCoinStore = V.afterAll height (done.map (·.1))) (db : w.mDB = u.mDB) :
    Rolling height V u.dbCoin done [] w where
  coins o := by
    rw [← getCoin_toCoinStore, coins]
    rfl
  leaves := by rw [coins]
  db o := by
    rw [dbCoin, db]
    rfl

/-- What applying a block on a database that may throw comes to. -/
theorem applyBlockFailing_spec (free : u.toCoinStore.NullFree) (shape : block.Shaped) :
    let out := u.applyBlockFailing P failures block height
    match u.stopBlock P failures block height with
    | (.thrown, paid) => out.1 = none ∧ (out.2.toCoinStore = u.toCoinStore ↔
        LeavesAlone height u.getCoin (block.coinbase?.toList ++ paid))
    | (.refused, paid) => (∀ undo, out.1 ≠ some (some undo)) ∧
        (out.2.toCoinStore = u.toCoinStore ↔ u.GivesBack height failures.rollback
          (block.coinbase?.toList ++ paid).reverse [])
    | (.whole, _) => (∃ undo, out.1 = some (some undo)) ∧
        (out.2.toCoinStore = u.toCoinStore ↔
          LeavesAlone height u.getCoin block.transactions) := by
  have coinbase := applyCoinbase_hom toCoinStore_hom height block.coinbase? u
  have db := u.mDB_applyCoinbase height block.coinbase?
  rw [applyCoinbase_eq] at coinbase
  rw [stopBlock, applyBlockFailing]
  generalize applyCoinbase height block.coinbase? u = first at coinbase db ⊢
  obtain ⟨ok, w⟩ := first
  obtain ⟨ok', after⟩ := Prod.mk.inj coinbase
  obtain rfl : true = ok := ok'
  have after : w.toCoinStore = u.toCoinStore.afterAll height block.coinbase?.toList := after.symm
  have free' : w.toCoinStore.NullFree := by
    rw [after]
    cases block.coinbase? with
    | none => exact free
    | some tx => exact free.after height tx
  obtain ⟨done, paid⟩ := @applyPaymentsFailing_spec P height failures.payment block.payments 0 [] w
    free' shape
  have pays : BlockPays P height u.toCoinStore block done := by
    rw [BlockPays, ← after]
    exact paid.pays
  have back := pays.revertibleAll
  have listed : (block.coinbaseDone ++ done).map (·.1) =
      block.coinbase?.toList ++ (w.stop P height failures.payment 0 block.payments).2 := by
    rw [List.map_append, block.map_fst_coinbaseDone, paid.listed]
  have coins : (w.applyPaymentsFailing P height failures.payment 0 [] block.payments).2.2.toCoinStore =
      u.toCoinStore.afterAll height ((block.coinbaseDone ++ done).map (·.1)) := by
    rw [paid.coins, after, List.map_append, block.map_fst_coinbaseDone]
    simp [CoinStore.afterAll]
  have alone := afterAll_eq_iff back
  have result := paid.result
  have applied := paid.applied
  have sameDb := paid.db.trans db
  have whole := paid.whole
  rw [listed] at alone
  dsimp only
  generalize w.applyPaymentsFailing P height failures.payment 0 [] block.payments = out
    at coins result applied sameDb ⊢
  generalize w.stop P height failures.payment 0 block.payments = stopped
    at listed result whole alone ⊢
  obtain ⟨how, before⟩ := stopped
  obtain ⟨answer, list, w'⟩ := out
  dsimp only at coins result applied sameDb listed whole alone ⊢
  subst result
  have store : u.toCoinStore.getCoin = u.getCoin := funext u.getCoin_toCoinStore
  rw [store] at alone
  cases how with
  | thrown =>
      refine ⟨rfl, ?_⟩
      dsimp only [Stop.result]
      rw [coins, listed]
      exact alone
  | refused =>
      have order : list ++ block.coinbase?.toList.map (fun tx => (tx, [])) =
          (block.coinbaseDone ++ done).reverse := by
        rw [applied, List.append_nil, List.reverse_append, block.reverse_coinbaseDone]
        rfl
      have restores := @rollbackFailing_restores_iff height u _ failures.rollback [] w'
        (Rolling.start coins sameDb) back
      rw [List.map_reverse, listed] at restores
      dsimp only [Stop.result]
      rw [order]
      generalize w'.rollbackFailing failures.rollback _ = rolled at restores ⊢
      rcases rolled with ⟨_ | _, w''⟩
      · exact ⟨by simp, restores⟩
      · exact ⟨by simp, restores⟩
  | whole =>
      refine ⟨⟨_, rfl⟩, ?_⟩
      dsimp only [Stop.result]
      have all : block.coinbase?.toList ++ before = block.transactions := by
        rw [block.transactions_eq, whole rfl, ← listed, List.map_append,
          block.map_fst_coinbaseDone]
      rw [coins, listed, ← all]
      exact alone

end

end UTXOSet

theorem WriteFailure.result_ne (how : WriteFailure) : how.result ≠ some true := by
  cases how <;> nofun

theorem UTXOSet.flushFailing_fst (P : Params) (failure : Option Nat) (u : UTXOSet) :
    (u.flushFailing P failure).1 = failure.isNone := by
  rcases failure with _ | _ | _ | n <;> rfl

namespace ChainState

/-- The tip, the coins and the leaves are as before. -/
structure Unchanged (s s' : ChainState) : Prop where
  tip : s'.mBestChain = s.mBestChain
  coins : ∀ o, s'.getCoin o = s.getCoin o
  leaves : ∀ key, s'.mUTXOSet.isNoiseLeafSpent key = s.mUTXOSet.isNoiseLeafSpent key

/-- What `ConnectBlock` comes to: it returns true, or nothing has changed. -/
def AllOrNothing (s : ChainState) (out : Option Bool × ChainState) : Prop :=
  out.1 = some true ∨ s.Unchanged out.2

/-- The coins a call of the node works on. -/
def coins (s : ChainState) : UTXOSet := { s.mUTXOSet with mHistory := [] }

/-- Failures under which connecting a block changes all or nothing. The header is
not read or is refused, or the transactions applied when a store fails leave the
coins alone, or a refused block is rolled back without a loss. Once the block is
recorded nothing may fail. -/
def Harmless (P : Params) (failures : Failures) (block : Block) (s : ChainState) : Prop :=
  let height := UInt32.ofNat (s.mBestChain.height + 1)
  (failures.header && s.readsIndex block) = true ∨ s.extendsTip P block = false ∨
    match s.coins.stopBlock P failures block height with
    | (.thrown, paid) => LeavesAlone height s.getCoin (block.coinbase?.toList ++ paid)
    | (.refused, paid) =>
        s.coins.GivesBack height failures.rollback (block.coinbase?.toList ++ paid).reverse []
    | (.whole, _) =>
        if failures.record.isSome then LeavesAlone height s.getCoin block.transactions
        else failures.best = none ∧ failures.commit = none ∧
          ¬ (s.mBestChain.height = 0 ∧ failures.genesis = true)

theorem unchanged_iff {s s' : ChainState} (tip : s'.mBestChain = s.mBestChain) :
    s.Unchanged s' ↔ s'.mUTXOSet.toCoinStore = s.coins.toCoinStore := by
  constructor
  · intro same
    refine CoinStore.ext_view (fun o => ?_) fun key => ?_
    · rw [UTXOSet.getCoin_toCoinStore, UTXOSet.getCoin_toCoinStore]
      exact same.coins o
    · have leaf := same.leaves key
      rw [← UTXOSet.isNoiseLeafSpent_toCoinStore, ← UTXOSet.isNoiseLeafSpent_toCoinStore] at leaf
      exact decide_eq_decide.mp leaf
  · intro same
    obtain ⟨coins, leaves⟩ := UTXOSet.same_answers same
    exact ⟨tip, coins, leaves⟩

/-- Once the tip has moved only success will do. -/
theorem allOrNothing_of_moved {s : ChainState} {out : Option Bool × ChainState}
    (moved : out.2.mBestChain.height = s.mBestChain.height + 1) :
    s.AllOrNothing out ↔ out.1 = some true := by
  refine or_iff_left fun same => ?_
  have height := congrArg ChainTip.height same.tip
  omega

/-- Once the block is recorded the tip moves, whatever fails. -/
theorem moveTipFailing_spec (P : Params) (failures : Failures) (block : Block) (newHeight : Nat)
    (chainWork : Bytes32) (s : ChainState) :
    let out := s.moveTipFailing P failures block newHeight chainWork
    out.2.mBestChain.height = newHeight ∧
      (out.1 = some true ↔ failures.best = none ∧ failures.commit = none ∧
        ¬ (newHeight = 1 ∧ failures.genesis = true)) := by
  rw [moveTipFailing]
  cases best : failures.best with
  | some how => exact ⟨rfl, by simp [how.result_ne]⟩
  | none =>
      obtain ⟨history, ran⟩ := (s.setTip P block newHeight chainWork).writeBest.onUTXOSet_eq
        fun u => (u.setBestBlock (block.getHash P.sha256)).flushFailing P failures.commit
      dsimp only
      rw [ran, UTXOSet.flushFailing_fst]
      cases commit : failures.commit with
      | some n => exact ⟨rfl, by simp⟩
      | none =>
          dsimp only [Option.isNone]
          by_cases first : newHeight = 1
          · cases failures.genesis <;> simp [first, queueConnectedLocked, writeDB, setTip, writeBest]
          · simp [first, queueConnectedLocked, setTip, writeBest, writeDB]

/-- An operation on the coins leaves the tip alone. -/
theorem onUTXOSet_coins {α : Type} (s : ChainState) (f : UTXOSet → α × UTXOSet) :
    ∃ s', s.onUTXOSet f = ((f s.coins).1, s') ∧ s'.mBestChain = s.mBestChain ∧
      s'.mUTXOSet.toCoinStore = (f s.coins).2.toCoinStore :=
  ⟨_, rfl, rfl, rfl⟩

/-- What does not return true must leave the coins alone. -/
theorem allOrNothing_iff_coins {s s' : ChainState} {answer : Option Bool}
    (failed : answer ≠ some true) (tip : s'.mBestChain = s.mBestChain) :
    s.AllOrNothing (answer, s') ↔ s'.mUTXOSet.toCoinStore = s.coins.toCoinStore :=
  (or_iff_right failed).trans (unchanged_iff tip)

/-- From a state that stands for a ledger. -/
theorem allOrNothing_iff {P : Params} {s : ChainState} {L : Ledger} (rep : Represents P s L)
    {block : Block} (shape : block.Shaped) (failures : Failures) :
    s.AllOrNothing (s.connectBlockFailing P failures block) ↔ s.Harmless P failures block := by
  have free : s.coins.toCoinStore.NullFree := by
    rw [show s.coins.toCoinStore = L.coins from rep.coins]
    exact rep.valid.backed.nullFree
  have untouched : s.Unchanged s := ⟨rfl, fun _ => rfl, fun _ => rfl⟩
  rw [connectBlockFailing, if_neg (by simp [rep.ready]), connectBlockLockedFailing, Harmless]
  dsimp only
  by_cases header : (failures.header && s.readsIndex block) = true
  · rw [if_pos header]
    exact iff_of_true (.inr untouched) (.inl header)
  · rw [if_neg header, or_iff_right header]
    by_cases refused : s.extendsTip P block = false
    · rw [if_pos refused]
      exact iff_of_true (.inr untouched) (.inl refused)
    · rw [if_neg refused, or_iff_right refused]
      have spec := @UTXOSet.applyBlockFailing_spec P failures block
        (UInt32.ofNat (s.mBestChain.height + 1)) s.coins free shape
      obtain ⟨s', ran, tip, coins⟩ := s.onUTXOSet_coins (UTXOSet.applyBlockFailing P failures block
        (UInt32.ofNat (s.mBestChain.height + 1)))
      rw [ran]
      dsimp only at spec
      generalize s.coins.applyBlockFailing P failures block _ = out at spec coins ⊢
      obtain ⟨answer, u⟩ := out
      generalize s.coins.stopBlock P failures block _ = stopped at spec ⊢
      obtain ⟨how, paid⟩ := stopped
      dsimp only at spec coins ⊢
      cases how with
      | thrown =>
          obtain ⟨rfl, alone⟩ := spec
          rw [← coins] at alone
          exact (@allOrNothing_iff_coins s s' none (by simp) tip).trans alone
      | refused =>
          obtain ⟨stopped, back⟩ := spec
          rw [← coins] at back
          rcases answer with _ | _ | undo
          · exact (@allOrNothing_iff_coins s s' none (by simp) tip).trans back
          · exact (@allOrNothing_iff_coins s s' (some false) (by simp) tip).trans back
          · exact absurd rfl (stopped undo)
      | whole =>
          obtain ⟨⟨undo, rfl⟩, alone⟩ := spec
          rw [← coins] at alone
          dsimp only
          cases failures.record with
          | some failure =>
              have same : s.AllOrNothing (failure.2.result, s'.onBlockData
                  (BlockData.writeBlockFailing P block failure.1)) ↔ _ :=
                allOrNothing_iff_coins failure.2.result_ne tip
              rw [if_pos (by rfl)]
              exact same.trans alone
          | none =>
              rw [if_neg (by simp)]
              obtain ⟨height, returns⟩ := moveTipFailing_spec P failures block
                (s.mBestChain.height + 1) (P.addChainWork s'.mBestChain.chainWork block.header.bits)
                (s'.onBlockData (BlockData.writeBlockConnected P block (s.mBestChain.height + 1)
                  (P.addChainWork s'.mBestChain.chainWork block.header.bits) undo))
              rw [allOrNothing_of_moved height, returns]
              simp

end ChainState

/-- **When `ConnectBlock` is all or nothing.** In every state a node reaches, and
whichever calls into the stores fail, a call that does not return true leaves
the tip, every coin and every leaf as they were exactly when the failures are
harmless. -/
theorem connectBlock_allOrNothing_iff {P : Params} (sound : P.SoundGenesis) {s₀ s : ChainState}
    (opened : ChainState.initializeState P (.ofDisk .empty) = .ok s₀) {ops : List NodeOp}
    (fine : Deliverable P (calls ops)) (reached : s₀.life P ops = .ok s) {block : Block}
    (shape : block.Shaped) (failures : Failures) :
    s.AllOrNothing (s.connectBlockFailing P failures block) ↔ s.Harmless P failures block := by
  obtain ⟨s', ran, rep, -⟩ := lived sound opened fine
  obtain rfl := Except.ok.inj (reached.symm.trans ran)
  exact ChainState.allOrNothing_iff rep shape failures

namespace SmallNetwork

/-- Everything works but the batch that records a block. -/
def unrecorded : Failures := { Failures.none with record := some (.index, .refused) }

theorem shaped_blockOne : blockOne.Shaped := by
  intro tx mem
  cases mem

end SmallNetwork

open SmallNetwork in
theorem connectBlock_allOrNothing_iff_blockOne :
    node.AllOrNothing (node.connectBlockFailing smallNetwork unrecorded blockOne) ↔
      node.Harmless smallNetwork unrecorded blockOne :=
  connectBlock_allOrNothing_iff soundGenesis_smallNetwork node_opened
    (show Deliverable smallNetwork (calls []) from deliverable_accepts smallNetwork []) rfl
    shaped_blockOne unrecorded

open SmallNetwork in
/-- A block that can not be recorded is reported as not connected, and its coin stays. -/
theorem coin_of_unrecorded_block :
    node.life smallNetwork [] = .ok node ∧
      let out := node.connectBlockFailing smallNetwork unrecorded blockOne
      out.1 = some false ∧ out.2.mBestChain = node.mBestChain ∧
        node.getCoin ⟨2, 0⟩ = none ∧ (out.2.getCoin ⟨2, 0⟩).isSome = true ∧
        ¬ node.AllOrNothing out := by
  have failed : (node.connectBlockFailing smallNetwork unrecorded blockOne).1 = some false ∧
      (node.connectBlockFailing smallNetwork unrecorded blockOne).2.mBestChain = node.mBestChain ∧
      node.getCoin ⟨2, 0⟩ = none ∧
      ((node.connectBlockFailing smallNetwork unrecorded blockOne).2.getCoin
        ⟨2, 0⟩).isSome = true := by
    decide +kernel
  obtain ⟨answer, tip, absent, found⟩ := failed
  refine ⟨rfl, answer, tip, absent, found, ?_⟩
  rintro (returned | same)
  · rw [answer] at returned
    cases returned
  · rw [same.coins, absent] at found
    cases found

end QmaskCore
