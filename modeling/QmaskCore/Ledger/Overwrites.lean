import QmaskCore.Ledger.Exact

/-!
What is stored over a coin.

`ChainState.connectCalls` lists the calls of `ConnectBlockLocked` that one
`AcceptBlock` makes, each with the state it is made in; `connectCall_reached`
says that state is one a ledger reaches. A payment never stores an output over
a coin (`PaysAll.not_overwrites`). A coinbase does exactly when its id is that
of an unspent coin, and only then is a block taken back with a loss:
`overwrites_iff_coinbase_id`.
-/

namespace QmaskCore

namespace ChainState

/-- The calls of `ConnectBlockLocked` along a branch, each with the state before it. -/
def branchCalls (P : Params) : List Bytes32 → ChainState → List (ChainState × Block)
  | [], _ => []
  | blockHash :: branch, s =>
      match s.readBlockIndex blockHash with
      | none => []
      | some e =>
          match s.mBlockData.readBlock P e.blockPos with
          | none => []
          | some block =>
              (s, block) ::
                match s.connectBlockLocked P block with
                | (false, _) => []
                | (true, s) => branchCalls P branch s

def activateCalls (P : Params) (newTipHash : Bytes32) (s : ChainState) :
    List (ChainState × Block) :=
  match s.newBranch P (s.branchFuel newTipHash) newTipHash with
  | none => []
  | some (branch, fork) =>
      match s.disconnectToFork P fork (s.mBestChain.height + 1) with
      | (false, _) => []
      | (true, s) => s.branchCalls P branch.reverse

/-- The calls of `ConnectBlockLocked` that `acceptBlock` makes, in order. -/
def connectCalls (P : Params) (now : UInt64) (block : Block) (s : ChainState) :
    List (ChainState × Block) :=
  let blockHash := block.getHash P.sha256
  if s.mInitialized = false then []
  else if s.mBlockData.hasBlock blockHash then []
  else
    match s.readBlockIndex block.header.prevBlockHash with
    | none => []
    | some parent =>
        if s.admits P now block parent = false then []
        else
          let blockWork := P.addChainWork parent.nChainWork block.header.bits
          let s := s.onBlockData (BlockData.writeBlock P block (parent.nHeight + 1) blockWork)
          if P.compareWork blockWork s.mBestChain.chainWork ≤ 0 then []
          else s.activateCalls P blockHash

end ChainState

/-- Some output of the transactions, applied one after the other, is stored
under an outpoint where there is a coin at that moment. -/
def CoinStore.Overwrites (height : UInt32) : CoinStore → List Transaction → Prop
  | _, [] => False
  | V, tx :: txs =>
      (∃ o ∈ tx.outpoints,
        (tx.creates height o).isSome = true ∧ o ∉ tx.spends ∧ (V.getCoin o).isSome = true) ∨
        (V.after height tx).Overwrites height txs

instance CoinStore.decidableOverwrites (height : UInt32) : ∀ (V : CoinStore)
    (txs : List Transaction), Decidable (V.Overwrites height txs)
  | _, [] => inferInstanceAs (Decidable False)
  | V, tx :: txs =>
      let _ := decidableOverwrites height (V.after height tx) txs
      inferInstanceAs (Decidable (_ ∨ _))

/-! ### One block -/

/-- Payments that are payable in turn store nothing over a coin at any moment. -/
theorem PaysAll.not_overwrites {P : Params} {height : UInt32} :
    ∀ {done : List (Transaction × List Coin)} {V : CoinStore} {made : List (Transaction × UInt32)},
    Sourced V made → PaysAll P height V done → (∀ d ∈ done, d.1.isCoinbase = false) →
    (∀ d ∈ done, d.1.Active) → HashInjective (done.map (·.1) ++ made.map (·.1)) →
    ¬ V.Overwrites height (done.map (·.1)) := by
  intro done
  induction done with
  | nil => exact fun _ _ _ _ _ => id
  | cons d done ih =>
      intro V made sourced pays payments active injective
      rintro (⟨o, own, new, -, held⟩ | later)
      · have free : V.getCoin o = none := by
          refine pays.1.fresh sourced (payments d List.mem_cons_self)
            (active d List.mem_cons_self) (injective.mono fun tx mem => ?_) own
          simp only [List.map_cons, List.cons_append, List.mem_cons, List.mem_append] at mem ⊢
          tauto
        rw [free] at held
        cases held
      · refine ih (sourced.after height d.1) pays.2
          (fun e mem => payments e (List.mem_cons_of_mem _ mem))
          (fun e mem => active e (List.mem_cons_of_mem _ mem))
          (injective.mono fun tx mem => ?_) later
        simp only [List.map_cons, List.cons_append, List.mem_cons, List.mem_append] at mem ⊢
        tauto

/-- Whether a transaction creates a coin does not depend on the height. -/
theorem Transaction.isSome_creates {tx : Transaction} {height height' : UInt32} {o : OutPoint}
    (new : (tx.creates height o).isSome = true) : (tx.creates height' o).isSome = true := by
  unfold creates newCoinAt at new ⊢
  split at new
  · rename_i own
    rw [if_pos own]
    cases listed : tx.outputs[o.index.toNat]? with
    | none => rw [listed] at new; cases new
    | some out =>
        rw [listed] at new
        simp only [Option.bind_some] at new ⊢
        unfold TxOutput.toCoin at new ⊢
        grind
  · cases new

section

variable {P : Params} {height : UInt32} {V : CoinStore} {block : Block}
  {done : List (Transaction × List Coin)} {made : List (Transaction × UInt32)}

/-- A block that applies stores an output over a coin exactly when its coinbase
has the id of one. -/
theorem AppliesWith.overwrites_iff (applies : AppliesWith P height V block done)
    (sourced : Sourced V made) (active : ∀ d ∈ done, d.1.Active)
    (injective : HashInjective (block.transactions ++ made.map (·.1))) :
    V.Overwrites height block.transactions ↔ block.CoinbaseIdHeld V := by
  have pays := applies.pays
  unfold BlockPays at pays
  have listed : ∀ tx ∈ done.map (·.1), tx ∈ block.transactions := by
    intro tx mem
    rw [block.transactions_eq, applies.all]
    exact List.mem_append_right _ mem
  rw [block.transactions_eq, applies.all]
  unfold Block.CoinbaseIdHeld
  cases coinbase : block.coinbase? with
  | none =>
      rw [coinbase] at pays
      refine iff_of_false ?_ (by simp)
      refine pays.not_overwrites sourced applies.of_done active (injective.mono fun tx mem => ?_)
      exact (List.mem_append.mp mem).imp (listed tx) id |>.elim (List.mem_append_left _)
        (List.mem_append_right _)
  | some tx =>
      rw [coinbase] at pays
      have here : tx ∈ block.transactions := by simp [block.transactions_eq, coinbase]
      have spends : tx.spends = [] := by
        simp [Transaction.spends, block.isCoinbase_of_mem coinbase]
      have later : ¬ (V.after height tx).Overwrites height (done.map (·.1)) := by
        refine PaysAll.not_overwrites (sourced.after height tx) pays applies.of_done active
          (injective.mono fun t mem => ?_)
        simp only [List.map_cons, List.mem_append, List.mem_cons] at mem ⊢
        rcases mem with mem | rfl | mem
        · exact .inl (listed t mem)
        · exact .inl here
        · exact .inr mem
      constructor
      · rintro (⟨o, own, -, -, held⟩ | hit)
        · exact ⟨tx, rfl, o, (Transaction.mem_outpoints.mp own).1, held⟩
        · exact absurd hit later
      · rintro ⟨tx', same, o, id, held⟩
        obtain rfl : tx = tx' := Option.some_inj.mp same
        -- The coin was made by a transaction with this id, which is the coinbase itself.
        obtain ⟨c, found⟩ := Option.isSome_iff_exists.mp held
        obtain ⟨m, mem, created⟩ := sourced.coins found
        have hash : m.1.hash = tx.hash :=
          (Transaction.mem_outpoints.mp
            (Transaction.mem_outpoints_of_newCoinAt created)).1.symm.trans id
        have same : m.1 = tx := injective m.1
          (List.mem_append_right _ (List.mem_map_of_mem mem)) tx (List.mem_append_left _ here) hash
        rw [same] at created
        refine .inl ⟨o, Transaction.mem_outpoints_of_newCoinAt created, ?_, by simp [spends], held⟩
        exact Transaction.isSome_creates (Option.isSome_iff_exists.mpr ⟨c, created⟩)

/-- A block whose coinbase has the id of no coin is taken back without a trace. -/
theorem AppliesWith.undoneAll (applies : AppliesWith P height V block done)
    (sourced : Sourced V made) (active : ∀ d ∈ done, d.1.Active)
    (injective : HashInjective (block.transactions ++ made.map (·.1)))
    (free : ¬ block.CoinbaseIdHeld V) :
    (V.afterAll height block.transactions).undoneAll (block.coinbaseDone ++ done) = V := by
  rw [← applies.map_fst]
  exact applies.pays.revertibleAll.undoneAll fun hit =>
    applies.attempts.kept sourced active injective free hit

end

/-! ### The calls of one delivery -/

/-- A call of `ConnectBlockLocked` that a node makes while it represents ledgers
reached from `L`: its state stands for one, and its block is stored there. -/
structure CallReached (P : Params) (given : Block → Prop) (L : Ledger) (s : ChainState)
    (block : Block) (L' : Ledger) : Prop where
  moves : Ledger.Moves P given (fun _ => False) L L'
  represents : Represents P s L'
  stored : ∃ st, L'.tree (block.getHash P.sha256) = some st ∧ st.block = block

section

variable {P : Params} {given : Block → Prop} {s s₁ : ChainState} {L : Ledger} {b : Block}

theorem branchCall_reached : ∀ {branch : List Bytes32} {s : ChainState} {L : Ledger},
    Represents P s L → (s₁, b) ∈ s.branchCalls P branch → ∃ L', CallReached P given L s₁ b L' := by
  intro branch
  induction branch with
  | nil => exact fun _ mem => nomatch mem
  | cons blockHash branch ih =>
      intro s L rep mem
      rw [ChainState.branchCalls] at mem
      cases stored : L.tree blockHash with
      | none =>
          rw [rep.absent stored] at mem
          cases mem
      | some st =>
          obtain ⟨pos, read, record⟩ := rep.stored stored
          have block := BlockData.readBlock_of_record record
          have keyed := (rep.valid.planted stored).keyed
          obtain ⟨ok, s', L', ran, ranL, next⟩ :=
            (rep.connectBlockLocked_sim (rep.valid.agrees stored) (rep.valid.shape stored)).split
          have move : Ledger.Move P given (fun _ => False) L (L.connect P st.block).2 :=
            .connect stored
          rw [ranL] at move
          rw [read] at mem
          dsimp only at mem
          rw [show s.mBlockData.readBlock P (BlockData.indexEntry _ _ _ pos).blockPos = _ from block]
            at mem
          by_cases readable : st.block.Readable P
          · rw [if_pos readable] at mem
            dsimp only at mem
            rw [ran] at mem
            rcases List.mem_cons.mp mem with here | later
            · cases here
              exact ⟨L, .refl, rep, st, keyed.symm ▸ stored, rfl⟩
            · cases ok with
              | false => cases later
              | true =>
                  obtain ⟨L'', reached⟩ := ih next later
                  exact ⟨L'', .head move reached.moves, reached.represents, reached.stored⟩
          · rw [if_neg readable] at mem
            cases mem

theorem activateCall_reached (rep : Represents P s L) {newTip : Bytes32}
    (mem : (s₁, b) ∈ s.activateCalls P newTip) : ∃ L', CallReached P given L s₁ b L' := by
  rw [ChainState.activateCalls, rep.branchFuel_eq, rep.newBranch_eq, rep.height] at mem
  generalize L.branch P (L.branchFuel newTip) newTip = found at mem
  rcases found with _ | ⟨branch, fork⟩
  · cases mem
  · obtain ⟨ok, s', L', ran, ranL, next⟩ :=
      (Represents.disconnectToFork_sim fork (L.chain.length + 1) rep).split
    have back : Ledger.Moves P given (fun _ => False) L
        (L.disconnectToFork P fork (L.chain.length + 1)).2 :=
      Ledger.disconnectToFork_moves fork _ L
    rw [ranL] at back
    dsimp only at mem
    rw [ran] at mem
    cases ok with
    | false => cases mem
    | true =>
        obtain ⟨L'', reached⟩ := branchCall_reached next mem
        exact ⟨L'', back.trans reached.moves, reached.represents, reached.stored⟩

/-- Every state in which `AcceptBlock` connects a block is one a ledger reaches. -/
theorem connectCall_reached (rep : Represents P s L) {now : UInt64} {block : Block}
    (known : given block) (mem : (s₁, b) ∈ s.connectCalls P now block) :
    ∃ L', CallReached P given L s₁ b L' := by
  unfold ChainState.connectCalls at mem
  dsimp only at mem
  rw [rep.ready, rep.hasBlock_eq, if_neg (by simp)] at mem
  split at mem
  · cases mem
  · rename_i new
    have new : L.tree (block.getHash P.sha256) = none := by simpa using new
    cases stored : L.tree block.header.prevBlockHash with
    | none =>
        rw [rep.absent stored] at mem
        cases mem
    | some parent =>
        obtain ⟨pos, read, -⟩ := rep.stored stored
        rw [read] at mem
        dsimp only at mem
        rw [rep.admits_eq] at mem
        split at mem
        · cases mem
        · rename_i admitted
          have admitted : L.admits P now block parent = true := by simpa using admitted
          have move : Ledger.Move P given (fun _ => False) L (L.put P (Ledger.childOf P parent block)) :=
            .store known new stored admitted
          have next := rep.store (rep.valid.store new stored (Ledger.height_of_admits admitted)
            (Ledger.rules_of_admits admitted).shaped)
          split at mem
          · cases mem
          · obtain ⟨L', reached⟩ : ∃ L', CallReached P given _ s₁ b L' :=
              activateCall_reached next mem
            exact ⟨L', .head move reached.moves, reached.represents, reached.stored⟩

end

/-! ### The node -/

namespace Ledger

variable {P : Params} {L : Ledger} {given : Block → Prop}

theorem Moves.mono {less : Block → Prop} {direct : Block → Prop} {L₀ : Ledger}
    (moves : Moves P less direct L₀ L) (sub : ∀ block, less block → given block) :
    Moves P given direct L₀ L := by
  refine Relation.ReflTransGen.mono (fun L L' move => ?_) _ _ moves
  cases move with
  | store mem new found admitted => exact .store (sub _ mem) new found admitted
  | connect stored => exact .connect stored
  | connectDirect mem agrees => exact .connectDirect mem agrees
  | disconnect => exact .disconnect

/-- The transactions of a block that follows the chain and those the chain is
made of come from the blocks delivered. -/
theorem Moves.transactions (start : (initial P).Valid P)
    (moves : Moves P given (fun _ => False) (initial P) L) {block : Block} (came : given block)
    {blocks : List Block} (sub : ∀ b, given b → b ∈ blocks) :
    ∀ tx ∈ block.transactions ++ (madeBy P L.chain).map (·.1),
      tx ∈ (P.buildGenesisBlock :: blocks).flatMap (·.transactions) := by
  have valid := Moves.valid moves (fun _ => nofun) start
  have chained : ChainOf P blocks L.blocks :=
    Linked.chainOf valid (Moves.holds moves (fun _ => nofun) start holds_initial)
      (fun b known => sub b (known.resolve_right id)) valid.linked
  intro tx mem
  rw [List.flatMap_cons, List.mem_append]
  rcases List.mem_append.mp mem with own | made
  · exact .inr (List.mem_flatMap.mpr ⟨block, sub block came, own⟩)
  · obtain ⟨m, memM, rfl⟩ := List.mem_map.mp made
    rcases mem_madeBy memM with ⟨c, memC, listed⟩ | genesis
    · exact .inr (List.mem_flatMap.mpr
        ⟨c.block, chained.mem _ (List.mem_map_of_mem memC), listed⟩)
    · exact .inl genesis

/-- A block that connects leaves this behind. -/
theorem connect_eq_true (valid : L.Valid P) {block : Block} (shape : block.Shaped)
    (connected : (L.connect P block).1 = true) :
    follows P L.blocks block = true ∧
      AppliesWith P (nextHeight L.chain) L.coins block (block.paid P (nextHeight L.chain) L.coins) ∧
      (L.connect P block).2 = { L.put P (topBlock P (block :: L.blocks)) with
        chain := ⟨block, block.paid P (nextHeight L.chain) L.coins⟩ :: L.chain
        coins := L.coins.afterAll (nextHeight L.chain) block.transactions } := by
  rw [connect] at connected ⊢
  dsimp only at connected ⊢
  split at connected
  · cases connected
  · rename_i next
    rw [if_neg next]
    rcases applyBlockTwoPhase_eq valid.backed.nullFree shape with ⟨applies, ran⟩ | ⟨-, ran⟩
    · rw [ran]
      exact ⟨by simpa using next, applies, rfl⟩
    · rw [ran] at connected
      cases connected

end Ledger

/-- **When a block stores over a coin.** Whatever was delivered before, each
block `AcceptBlock` connects can be disconnected again, and it stores nothing
over an unspent coin and is taken back without a change of any coin exactly when
no unspent coin has the id of its coinbase. -/
theorem overwrites_iff_coinbase_id {P : Params} (sound : P.SoundGenesis) {s₀ : ChainState}
    (opened : ChainState.initializeState P (.ofDisk .empty) = .ok s₀)
    (deliveries : List (UInt64 × Block)) (now : UInt64) (block : Block)
    (injective : HashInjective
      ((P.buildGenesisBlock :: block :: deliveries.map (·.2)).flatMap (·.transactions)))
    {s : ChainState} {b : Block}
    (called : (s, b) ∈ (s₀.acceptAll P deliveries).connectCalls P now block)
    (connected : (s.connectBlockLocked P b).1 = true) :
    ((s.connectBlockLocked P b).2.disconnectBlock P (b.getHash P.sha256)).1 = true ∧
      ((¬ s.mUTXOSet.toCoinStore.Overwrites (UInt32.ofNat (s.mBestChain.height + 1))
          b.transactions ∧
        ∀ o, ((s.connectBlockLocked P b).2.disconnectBlock P (b.getHash P.sha256)).2.getCoin o =
          s.getCoin o) ↔
      ¬ b.CoinbaseIdHeld s.mUTXOSet.toCoinStore) := by
  obtain ⟨L₀, rep₀, moves₀⟩ := accepted deliveries sound opened
  have start := (represents_initial sound opened).valid
  let given : Block → Prop := fun b => b = block ∨ Delivered deliveries b
  have sub : ∀ b, given b → b ∈ block :: deliveries.map (·.2) := by
    rintro b (rfl | ⟨at', mem⟩)
    · exact List.mem_cons_self
    · exact List.mem_cons_of_mem _ (List.mem_map.mpr ⟨_, mem, rfl⟩)
  obtain ⟨L, reached⟩ : ∃ L, CallReached P given L₀ s b L :=
    connectCall_reached rep₀ (.inl rfl) called
  obtain ⟨st, stored, same⟩ := reached.stored
  have rep := reached.represents
  have before : Ledger.Moves P given (fun _ => False) (.initial P) L₀ := moves₀.mono fun _ => .inr
  have moves := before.trans reached.moves
  have shape : b.Shaped := same ▸ rep.valid.shape stored
  have agrees : L.Agrees P b := same ▸ rep.valid.agrees stored
  obtain ⟨ok, s', L', ran, ranL, next⟩ := (rep.connectBlockLocked_sim agrees shape).split
  rw [ran] at connected ⊢
  obtain rfl : ok = true := connected
  have went := Ledger.connect_eq_true rep.valid shape (by rw [ranL])
  rw [ranL] at went
  obtain ⟨follows, applies, rfl⟩ := went
  -- The block was admitted when it came, so its payments spend and it can be read.
  have above : b.getHash P.sha256 ≠ P.genesisHash := by
    intro genesis
    have zero := (rep.valid.height_eq_zero stored).mpr genesis
    have height := rep.valid.height_of_tree stored
    rw [same, (height_of_follows follows).1] at height
    omega
  obtain ⟨at', L₁, parent, -, -, -, -, admitted, -⟩ := Ledger.Moves.admitted start moves stored above
  rw [same] at admitted
  have rules := Ledger.rules_of_admits admitted
  have active : ∀ d ∈ b.paid P (nextHeight L.chain) L.coins, d.1.Active := by
    intro d mem
    refine .inl (rules.payments d.1 ?_).spendsSome
    rw [applies.all]
    exact List.mem_map_of_mem mem
  have came : given b := by
    have holds := Ledger.Moves.holds moves (fun _ => nofun) start Ledger.holds_initial _ _ stored
    rw [same] at holds
    rcases holds with genesis | given | none
    · have height := (height_of_follows follows).1
      rw [genesis, sound.header.2] at height
      cases height
    · exact given
    · exact none.elim
  have sourced := rep.valid.backed.sourced
  have injective := injective.mono (Ledger.Moves.transactions start moves came sub)
  have hit := applies.overwrites_iff sourced active injective
  dsimp only
  -- Taking the block back.
  have back := next.disconnectBlock_sim (b.getHash P.sha256)
  have readable : b.Readable P := rules.size
  have undone : ({ L.put P (topBlock P (b :: L.blocks)) with
      chain := ⟨b, b.paid P (nextHeight L.chain) L.coins⟩ :: L.chain
      coins := L.coins.afterAll (nextHeight L.chain) b.transactions } : Ledger).disconnectBlock P
        (b.getHash P.sha256) = (true, { L.put P (topBlock P (b :: L.blocks)) with
          chain := L.chain
          coins := (L.coins.afterAll (nextHeight L.chain) b.transactions).undoneAll
            (b.coinbaseDone ++ b.paid P (nextHeight L.chain) L.coins) }) := by
    rw [Ledger.disconnectBlock, if_neg (by simp [Ledger.tip, Ledger.blocks, chainTip, topBlock,
      StoredBlock.toTip]), Ledger.disconnect]
    dsimp only
    rw [if_pos readable]
  rw [undone] at back
  refine ⟨back.answer, ?_⟩
  rw [rep.coins, show UInt32.ofNat (s.mBestChain.height + 1) = nextHeight L.chain by
    rw [rep.height, nextHeight], hit]
  constructor
  · exact fun both => both.1
  · refine fun free => ⟨free, fun o => ?_⟩
    have coins := back.state.coins
    dsimp only at coins
    rw [applies.undoneAll sourced active injective free, ← rep.coins] at coins
    have view := congrArg (CoinStore.getCoin · o) coins
    change (ChainState.disconnectBlock P _ s').2.mUTXOSet.getCoin o = s.mUTXOSet.getCoin o
    simpa using view

open SmallNetwork in
theorem overwrites_iff_coinbase_id_blockOne :
    ∃ s, (s, blockOne) ∈ node.connectCalls smallNetwork 20 blockOne ∧
      ((s.connectBlockLocked smallNetwork blockOne).2.disconnectBlock smallNetwork
        (blockOne.getHash smallNetwork.sha256)).1 = true ∧
      ((¬ s.mUTXOSet.toCoinStore.Overwrites (UInt32.ofNat (s.mBestChain.height + 1))
          blockOne.transactions ∧
        ∀ o, ((s.connectBlockLocked smallNetwork blockOne).2.disconnectBlock smallNetwork
          (blockOne.getHash smallNetwork.sha256)).2.getCoin o = s.getCoin o) ↔
      ¬ blockOne.CoinbaseIdHeld s.mUTXOSet.toCoinStore) := by
  have only : (node.connectCalls smallNetwork 20 blockOne).map (·.2) = [blockOne] := by
    decide +kernel
  have connected : ∀ call ∈ node.connectCalls smallNetwork 20 blockOne,
      (call.1.connectBlockLocked smallNetwork call.2).1 = true := by
    decide +kernel
  obtain ⟨call, called⟩ := List.exists_mem_of_length_pos
    (l := node.connectCalls smallNetwork 20 blockOne) (by
      rw [← List.length_map (·.2), only]
      decide)
  obtain ⟨s, b⟩ := call
  have same : b ∈ [blockOne] := only ▸ List.mem_map_of_mem called
  obtain rfl := List.mem_singleton.mp same
  have injective : HashInjective ((smallNetwork.buildGenesisBlock :: blockOne ::
      ([] : List (UInt64 × Block)).map (·.2)).flatMap (·.transactions)) := by
    unfold HashInjective
    decide +kernel
  have reached : (s, blockOne) ∈
      (node.acceptAll smallNetwork []).connectCalls smallNetwork 20 blockOne := by
    rw [ChainState.acceptAll_nil]
    exact called
  have connected := connected _ called
  dsimp only at connected
  exact ⟨s, called, overwrites_iff_coinbase_id soundGenesis_smallNetwork node_opened [] 20 blockOne
    injective reached connected⟩

namespace SmallNetwork

/-- A block with the coinbase of the block below it. -/
def blockTwo : Block :=
  mine (blockOne.getHash smallNetwork.sha256) 2 2 [mint 2 10] fits_two

def nodeOne : ChainState := node.acceptAll smallNetwork [(20, blockOne)]

end SmallNetwork

open SmallNetwork in
/-- The coin of a coinbase is overwritten by that of the next block, which has
the same id, and is gone when the next block is taken back. -/
theorem coinbase_overwritten :
    (nodeOne.acceptBlock smallNetwork 20 blockTwo).1 = true ∧
      ∃ call ∈ nodeOne.connectCalls smallNetwork 20 blockTwo,
        (call.1.connectBlockLocked smallNetwork call.2).1 = true ∧
        call.1.mUTXOSet.toCoinStore.Overwrites (UInt32.ofNat (call.1.mBestChain.height + 1))
          call.2.transactions ∧
        ((call.1.connectBlockLocked smallNetwork call.2).2.disconnectBlock smallNetwork
          (call.2.getHash smallNetwork.sha256)).2.getCoin ⟨2, 0⟩ ≠ call.1.getCoin ⟨2, 0⟩ := by
  constructor <;> decide +kernel

end QmaskCore
