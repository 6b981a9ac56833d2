import Mathlib.Logic.Relation
import QmaskCore.SmallNetwork
import QmaskCore.Ledger.Simulation

/-!
Runs of the node.

`ChainState.run` does a list of operations. `run_sim` carries the simulation to
whole runs, from the state `initializeState` opens on an empty disk
(`represents_initial`). `Ledger.Move` lists the small steps a ledger makes, and
`Ledger.run_moves` says a run is made of them, so that what every small step
keeps holds after every run.
-/

namespace QmaskCore

/-- What the outside can ask of a node. -/
inductive ChainOp where
  | acceptBlock (now : UInt64) (block : Block)
  | connectBlock (block : Block)
  | disconnectBlock (blockHash : Bytes32)

def ChainState.step (P : Params) (s : ChainState) : ChainOp → Bool × ChainState
  | .acceptBlock now block => s.acceptBlock P now block
  | .connectBlock block => s.connectBlock P block
  | .disconnectBlock blockHash => s.disconnectBlock P blockHash

def ChainState.run (P : Params) (s : ChainState) (ops : List ChainOp) : ChainState :=
  ops.foldl (fun s op => (s.step P op).2) s

/-- Blocks delivered to `AcceptBlock`, each at a time of the clock. -/
def ChainState.acceptAll (P : Params) (s : ChainState) (deliveries : List (UInt64 × Block)) :
    ChainState :=
  deliveries.foldl (fun s d => (s.acceptBlock P d.1 d.2).2) s

@[simp] theorem ChainState.acceptAll_nil (P : Params) (s : ChainState) : s.acceptAll P [] = s := rfl

namespace Ledger

/-- The ledger of a new node. -/
def initial (P : Params) : Ledger where
  tree blockHash := if blockHash = P.genesisHash then some (topBlock P []) else none
  chain := []
  coins := genesisStore P

def step (P : Params) (L : Ledger) : ChainOp → Bool × Ledger
  | .acceptBlock now block => L.accept P now block
  | .connectBlock block => L.connect P block
  | .disconnectBlock blockHash => L.disconnectBlock P blockHash

def run (P : Params) (L : Ledger) (ops : List ChainOp) : Ledger :=
  ops.foldl (fun L op => (L.step P op).2) L

end Ledger

/-! ### A new node -/

/-- The genesis block is its coinbase. -/
theorem Params.SoundGenesis.transactions {P : Params} (sound : P.SoundGenesis) :
    ∃ tx, P.buildGenesisBlock.transactions = [tx] ∧ tx.isCoinbase = true := by
  have checked := sound.checked
  have single := sound.single
  unfold BlockValidation.checkGenesisBlock at checked
  unfold Block.payments at single
  cases whole : P.buildGenesisBlock.transactions with
  | nil =>
      rw [whole] at checked
      cases checked
  | cons first rest =>
      rw [whole] at checked single
      simp only [Checks.bind_eq_ok, Checks.rejectIf_eq_ok, Checks.exists_unit_iff,
        Bool.not_eq_false] at checked
      dsimp only at single
      rw [if_pos checked.1] at single
      exact ⟨first, by rw [single], checked.1⟩

theorem Ledger.valid_initial {P : Params} (sound : P.SoundGenesis)
    (genesisHash : P.buildGenesisBlock.getHash P.sha256 = P.genesisHash) :
    (Ledger.initial P).Valid P where
  sound := sound
  genesisHash := genesisHash
  genesis := if_pos rfl
  planted := by
    intro blockHash st stored
    dsimp only [initial] at stored
    split at stored
    · rename_i same
      cases stored
      exact ⟨genesisHash.trans same.symm, fun above => absurd same above⟩
    · cases stored
  linked := trivial
  backed := .genesis (.refl _)

/-- The genesis block written to an empty disk, and its coins committed. -/
theorem initializeGenesis_spec {P : Params} {s : ChainState} (sound : P.SoundGenesis)
    (made : ChainState.initializeGenesisLocked P (.ofDisk .empty) = (true, s)) :
    Represents P { s with mInitialized := true } (Ledger.initial P) ∧
      s.mUTXOSet.mDB.heads = none ∧ s.mUTXOSet.mBestBlock = P.genesisHash := by
  obtain ⟨tx, only, coinbase⟩ := sound.transactions
  let u := ((UTXOSet.ofDisk .empty).applyTransaction tx 0 true).2
  have applied : ChainState.applyGenesis true P.buildGenesisBlock.transactions
      { (ChainState.ofDisk .empty).mUTXOSet with mHistory := [] } = (true, u) := by
    change ChainState.applyGenesis true _ (UTXOSet.ofDisk .empty) = _
    simp [only, ChainState.applyGenesis, coinbase, CoinDB.applyTransaction,
      UTXOSet.applyTransaction, u]
  rw [ChainState.initializeGenesisLocked, if_neg sound.nonzero] at made
  dsimp only at made
  split at made
  · cases made
  · rename_i hash
    have genesisHash : P.buildGenesisBlock.getHash P.sha256 = P.genesisHash := not_not.mp hash
    have wf : u.WF :=
      UTXOSet.WF.steady.applyTransaction tx 0 true (UTXOSet.wf_ofDisk .empty)
    have coins : u.toCoinStore = genesisStore P := by
      have effect := congrArg Prod.snd ((UTXOSet.ofDisk .empty).toCoinStore_applyTransaction tx 0 true)
      have blank : (UTXOSet.ofDisk .empty).toCoinStore = CoinStore.empty :=
        CoinStore.ext_view (fun _ => rfl) fun key => by simp [UTXOSet.ofDisk, UTXODB.empty,
          UTXOSet.mem_leaves_toCoinStore, CoinStore.empty]
      rw [blank] at effect
      rw [genesisStore, only]
      refine effect.trans ?_
      simp [CoinStore.applyTransaction, CoinStore.afterAll, CoinStore.after, Transaction.spends,
        Transaction.reveals, coinbase, CoinStore.eraseAll, CoinStore.markAll]
    obtain ⟨history, ran⟩ := (ChainState.ofDisk .empty).onUTXOSet_eq
      (ChainState.applyGenesis true P.buildGenesisBlock.transactions)
    rw [applied] at ran
    rw [ran] at made
    have files : (BlockData.ofDisk .empty).FilesEnd := fun _ _ => rfl
    obtain ⟨written, undo⟩ := BlockData.writeBlock_spec (P := P) files P.buildGenesisBlock 0
      (P.addChainWork 0 P.buildGenesisBlock.header.bits)
    obtain ⟨pos, here, index⟩ := written.entry
    have wf' : ({ u with mHistory := [] }.setBestBlock P.genesisHash).WF :=
      (wf.withHistory []).setBestBlock P.genesisHash
    have commit := UTXOSet.flushCache_spec P P.genesisHash
      ({ u with mHistory := [] }.setBestBlock P.genesisHash)
    dsimp only at made
    cases made
    have read (blockHash : Bytes32) : (BlockData.writeBlock P P.buildGenesisBlock 0
        (P.addChainWork 0 P.buildGenesisBlock.header.bits) (.ofDisk .empty)).readBlockIndex
          blockHash = if blockHash = P.genesisHash then some (BlockData.indexEntry
            P.buildGenesisBlock 0 (P.addChainWork 0 P.buildGenesisBlock.header.bits) pos)
          else none := by
      rw [BlockData.readBlockIndex, index, genesisHash]
      split
      · rename_i same
        rw [same, AList.lookup_insert]
      · rename_i other
        rw [AList.lookup_insert_ne other]
        rfl
    refine ⟨⟨rfl, Ledger.valid_initial sound genesisHash, ?_, ?_, ?_,
      fun _ mem => absurd mem List.not_mem_nil, ?_,
      (wf'.flushCache P _).withHistory [], ?_, written.files⟩, commit.heads, commit.sameBest⟩
    · change (⟨P.genesisHash, 0, _, _, _⟩ : ChainTip) = _
      rw [← genesisHash]
      rfl
    · intro blockHash st stored
      dsimp only [Ledger.initial] at stored
      split at stored
      · rename_i genesis
        cases stored
        exact ⟨pos, (read blockHash).trans (if_pos genesis), here⟩
      · cases stored
    · intro blockHash absent
      dsimp only [Ledger.initial] at absent
      split at absent
      · cases absent
      · rename_i other
        exact (read blockHash).trans (if_neg other)
    · exact (UTXOSet.toCoinStore_flushCache wf' P _).trans coins
    · intro _
      change [P.genesisHash] = _
      rw [← genesisHash]
      rfl

/-- Opening a node on an empty disk writes genesis, and nothing is to be replayed. -/
theorem initializeState_empty {P : Params} {s : ChainState} (sound : P.SoundGenesis)
    (opened : ChainState.initializeState P (.ofDisk .empty) = .ok s) :
    ∃ s₀, ChainState.initializeGenesisLocked P (.ofDisk .empty) = (true, s₀) ∧
      s = { s₀ with mInitialized := true }.buildHeightIndexLocked := by
  have known : ChainState.verifyGenesisBlock P (.ofDisk .empty) = true := by
    simp [ChainState.verifyGenesisBlock, ChainState.ofDisk, Disk.empty]
  rw [ChainState.initializeState, if_neg (by simp [known])] at opened
  have blank : (ChainState.ofDisk .empty).loadBestChain = (false, .ofDisk .empty) := rfl
  rw [blank] at opened
  split at opened
  · cases opened
  · rename_i s₀ made
    obtain ⟨rep, heads, best⟩ := initializeGenesis_spec sound made
    have tip : s₀.mBestChain.blockHash = P.genesisHash :=
      (congrArg (·.blockHash) rep.tip).trans rep.valid.tip_nil
    have settled : ¬ (s₀.mUTXOSet.getHeadBlocks.isSome = true ∨
        s₀.mUTXOSet.getBestBlock ≠ s₀.mBestChain.blockHash) := by
      rw [UTXOSet.getHeadBlocks, heads, UTXOSet.getBestBlock, best, tip]
      simp
    dsimp only at opened
    rw [if_neg settled] at opened
    cases opened
    exact ⟨s₀, made, rfl⟩

/-- A node opened on an empty disk has the genesis block and its coins. -/
theorem represents_initial {P : Params} {s : ChainState} (sound : P.SoundGenesis)
    (opened : ChainState.initializeState P (.ofDisk .empty) = .ok s) :
    Represents P s (Ledger.initial P) := by
  obtain ⟨s₀, made, rfl⟩ := initializeState_empty sound opened
  exact (initializeGenesis_spec sound made).1.buildHeightIndex

/-! ### Small steps -/

namespace Ledger

/-- The small steps of a ledger. `given` are the blocks that come to `accept`,
`direct` those that come to `connect` itself. -/
inductive Move (P : Params) (given direct : Block → Prop) (L : Ledger) : Ledger → Prop
  | store {now : UInt64} {block : Block} {parent : StoredBlock} : given block →
      L.tree (block.getHash P.sha256) = none →
      L.tree block.header.prevBlockHash = some parent → L.admits P now block parent = true →
      Move P given direct L (L.put P (childOf P parent block))
  | connect {blockHash : Bytes32} {st : StoredBlock} : L.tree blockHash = some st →
      Move P given direct L (L.connect P st.block).2
  | connectDirect {block : Block} : direct block → L.Agrees P block →
      Move P given direct L (L.connect P block).2
  | disconnect : Move P given direct L (L.disconnect P).2

/-- Any number of small steps. -/
abbrev Moves (P : Params) (given direct : Block → Prop) : Ledger → Ledger → Prop :=
  Relation.ReflTransGen (Move P given direct)

variable {P : Params} {given direct : Block → Prop} {L L' : Ledger}

theorem Move.valid (move : Move P given direct L L') (shaped : ∀ b, direct b → b.Shaped)
    (valid : L.Valid P) : L'.Valid P := by
  cases move with
  | store _ new found admitted =>
      exact valid.store new found (height_of_admits admitted) (rules_of_admits admitted).shaped
  | connect stored => exact valid.connect (valid.agrees stored) (valid.shape stored)
  | connectDirect mem agrees => exact valid.connect agrees (shaped _ mem)
  | disconnect => exact valid.disconnect

@[simp] theorem tree_disconnect (L : Ledger) : (L.disconnect P).2.tree = L.tree := by
  rw [disconnect]
  split
  · rfl
  · split <;> rfl

/-- Connecting puts the block on top into the tree or leaves the tree as it is. -/
theorem tree_connect (L : Ledger) (block : Block) : (L.connect P block).2.tree = L.tree ∨
    follows P L.blocks block = true ∧
      (L.connect P block).2.tree = (L.put P (topBlock P (block :: L.blocks))).tree := by
  rw [connect]
  dsimp only
  split
  · exact .inl rfl
  · rename_i next
    rcases applyBlockTwoPhase P block (nextHeight L.chain) L.coins with ⟨_ | _, V⟩
    · exact .inl rfl
    · exact .inr ⟨by simpa using next, rfl⟩

/-- Connecting a block of the tree leaves the tree as it is. -/
theorem Valid.tree_connect (valid : L.Valid P) {blockHash : Bytes32} {st : StoredBlock}
    (stored : L.tree blockHash = some st) : (L.connect P st.block).2.tree = L.tree := by
  rcases Ledger.tree_connect L st.block with same | ⟨next, same⟩
  · exact same
  · have keyed := (valid.planted stored).keyed
    rw [← keyed] at stored
    obtain ⟨height, work⟩ := valid.known_top (valid.agrees stored) next stored
    have whole : topBlock P (st.block :: L.blocks) = st :=
      StoredBlock.ext rfl height.symm work.symm
    rw [same, whole]
    funext key
    rw [tree_put]
    split
    · rename_i here
      rw [here, stored]
    · rfl

/-- Every block of the tree came or is genesis. -/
def Holds (P : Params) (given direct : Block → Prop) (L : Ledger) : Prop :=
  ∀ blockHash st, L.tree blockHash = some st →
    st.block = P.buildGenesisBlock ∨ given st.block ∨ direct st.block

theorem holds_initial : (initial P).Holds P given direct := by
  intro blockHash st stored
  dsimp only [initial] at stored
  split at stored
  · cases stored
    exact .inl rfl
  · cases stored

theorem Holds.put (holds : L.Holds P given direct) {st : StoredBlock}
    (came : given st.block ∨ direct st.block) : (L.put P st).Holds P given direct := by
  intro blockHash st' stored
  rw [tree_put] at stored
  split at stored
  · cases stored
    exact .inr came
  · exact holds blockHash st' stored

theorem Holds.congr (holds : L.Holds P given direct) (same : L'.tree = L.tree) :
    L'.Holds P given direct := by
  intro blockHash st stored
  exact holds blockHash st (same ▸ stored)

theorem Move.holds (move : Move P given direct L L') (valid : L.Valid P)
    (holds : L.Holds P given direct) : L'.Holds P given direct := by
  cases move with
  | store mem _ _ _ => exact holds.put (.inl mem)
  | connect stored => exact holds.congr (valid.tree_connect stored)
  | @connectDirect block mem _ =>
      rcases tree_connect (P := P) L block with same | ⟨-, same⟩
      · exact holds.congr same
      · have top : (L.put P (topBlock P (block :: L.blocks))).Holds P given direct :=
          holds.put (.inr mem)
        exact top.congr same
  | disconnect => exact holds.congr (tree_disconnect L)

/-! ### Operations are made of small steps -/

theorem disconnectToFork_moves (fork : Option Bytes32) : ∀ (fuel : Nat) (L : Ledger),
    Moves P given direct L (L.disconnectToFork P fork fuel).2 := by
  intro fuel
  induction fuel with
  | zero => exact fun L => .refl
  | succ fuel ih =>
      intro L
      have move : Move P given direct L (L.disconnect P).2 := .disconnect
      rw [disconnectToFork]
      split
      · exact .refl
      · generalize L.disconnect P = out at move ⊢
        rcases out with ⟨_ | _, L'⟩
        · exact .single move
        · exact .head move (ih L')

theorem rollback_moves : ∀ (connected : List Bytes32) (L : Ledger),
    Moves P given direct L (L.rollback P connected) := by
  intro connected
  induction connected with
  | nil => exact fun L => .refl
  | cons blockHash connected ih =>
      intro L
      have move : Move P given direct L (L.disconnect P).2 := .disconnect
      rw [rollback]
      generalize L.disconnect P = out at move ⊢
      rcases out with ⟨_ | _, L'⟩
      · exact .single move
      · exact .head move (ih L')

theorem connectBranch_moves : ∀ (branch connected : List Bytes32) (L : Ledger),
    Moves P given direct L (L.connectBranch P branch connected).2 := by
  intro branch
  induction branch with
  | nil => exact fun _ L => .refl
  | cons blockHash branch ih =>
      intro connected L
      rw [connectBranch]
      cases stored : L.tree blockHash with
      | none => exact rollback_moves connected L
      | some st =>
          have move : Move P given direct L (L.connect P st.block).2 := .connect stored
          dsimp only
          split
          · generalize L.connect P st.block = out at move ⊢
            rcases out with ⟨_ | _, L'⟩
            · exact .head move (rollback_moves connected L')
            · exact .head move (ih _ L')
          · exact rollback_moves connected L

theorem activate_moves (newTip : Bytes32) (L : Ledger) :
    Moves P given direct L (L.activate P newTip).2 := by
  rw [activate]
  split
  · exact .refl
  · rename_i branch fork _
    have back : Moves P given direct L (L.disconnectToFork P fork (L.chain.length + 1)).2 :=
      disconnectToFork_moves fork _ L
    generalize L.disconnectToFork P fork (L.chain.length + 1) = out at back ⊢
    rcases out with ⟨_ | _, L'⟩
    · exact back
    · exact back.trans (connectBranch_moves branch.reverse [] L')

theorem accept_moves {block : Block} (now : UInt64) (mem : given block) (L : Ledger) :
    Moves P given direct L (L.accept P now block).2 := by
  rw [accept]
  split
  · exact .refl
  · rename_i new
    split
    · exact .refl
    · rename_i parent found
      split
      · exact .refl
      · rename_i admitted
        have move : Move P given direct L (L.put P (childOf P parent block)) :=
          .store mem (by simpa using new) found (by simpa using admitted)
        dsimp only
        split
        · exact .single move
        · exact .head move (activate_moves _ _)

end Ledger

/-! ### Whole runs -/

/-- The block an operation brings. -/
def ChainOp.block? : ChainOp → Option Block
  | .acceptBlock _ block => some block
  | .connectBlock block => some block
  | .disconnectBlock _ => none

/-- Every block a run brings, in the order of the run. -/
def brought (ops : List ChainOp) : List Block := ops.filterMap ChainOp.block?

/-- The blocks that come to `AcceptBlock` in a run. -/
def Given (ops : List ChainOp) (block : Block) : Prop := ∃ now, .acceptBlock now block ∈ ops

/-- The blocks that come to `ConnectBlock` in a run. -/
def Direct (ops : List ChainOp) (block : Block) : Prop := .connectBlock block ∈ ops

/-- What is assumed of the blocks that come to `ConnectBlock`, which validates
nothing: a coinbase out of place spends nothing, and the hash of the block is
that of no block with another header. -/
structure Deliverable (P : Params) (ops : List ChainOp) : Prop where
  shaped : ∀ block, Direct ops block → block.Shaped
  apart : ∀ block, Direct ops block →
    ∀ other ∈ P.buildGenesisBlock :: brought ops,
      other.getHash P.sha256 = block.getHash P.sha256 → other.header = block.header

namespace Deliverable

variable {P : Params} {ops : List ChainOp} {L : Ledger}

theorem agrees (fine : Deliverable P ops) (holds : L.Holds P (Given ops) (Direct ops))
    (valid : L.Valid P) {block : Block} (direct : Direct ops block) : L.Agrees P block := by
  intro st stored
  refine fine.apart block direct st.block ?_ (valid.planted stored).keyed
  rcases holds _ st stored with genesis | ⟨now, given⟩ | direct
  · rw [genesis]
    exact List.mem_cons_self
  · exact List.mem_cons_of_mem _ (List.mem_filterMap.mpr ⟨_, given, rfl⟩)
  · exact List.mem_cons_of_mem _ (List.mem_filterMap.mpr ⟨_, direct, rfl⟩)

end Deliverable

/-- A step of the node is small steps of the ledger it represents. -/
theorem step_sim {P : Params} {ops : List ChainOp} {s : ChainState} {L : Ledger}
    (fine : Deliverable P ops) (rep : Represents P s L) (holds : L.Holds P (Given ops) (Direct ops))
    {op : ChainOp} (mem : op ∈ ops) :
    Matches P (s.step P op) (L.step P op) ∧
      Ledger.Moves P (Given ops) (Direct ops) L (L.step P op).2 := by
  cases op with
  | acceptBlock now block =>
      have given : Given ops block := ⟨now, mem⟩
      exact ⟨rep.acceptBlock_sim, Ledger.accept_moves now given L⟩
  | connectBlock block =>
      have agrees := fine.agrees holds rep.valid mem
      exact ⟨rep.connectBlock_sim agrees (fine.shaped block mem),
        .single (.connectDirect mem agrees)⟩
  | disconnectBlock blockHash =>
      refine ⟨rep.disconnectBlock_sim blockHash, ?_⟩
      change Ledger.Moves _ _ _ L (L.disconnectBlock P blockHash).2
      rw [Ledger.disconnectBlock]
      split
      · exact .refl
      · exact .single .disconnect

/-- Small steps keep what each of them keeps. -/
theorem Ledger.Moves.keeps {P : Params} {given direct : Block → Prop} {L L' : Ledger}
    (moves : Moves P given direct L L') {p : Ledger → Prop}
    (step : ∀ {L L'}, Move P given direct L L' → p L → p L') (start : p L) : p L' := by
  induction moves with
  | refl => exact start
  | tail _ move ih => exact step move ih

theorem Ledger.Moves.valid {P : Params} {given direct : Block → Prop} {L L' : Ledger}
    (moves : Moves P given direct L L') (shaped : ∀ b, direct b → b.Shaped) (valid : L.Valid P) :
    L'.Valid P :=
  moves.keeps (fun move => move.valid shaped) valid

theorem Ledger.Moves.holds {P : Params} {given direct : Block → Prop} {L L' : Ledger}
    (moves : Moves P given direct L L') (shaped : ∀ b, direct b → b.Shaped) (valid : L.Valid P)
    (holds : L.Holds P given direct) : L'.Holds P given direct :=
  (moves.keeps (p := fun L => L.Valid P ∧ L.Holds P given direct)
    (fun move now => ⟨move.valid shaped now.1, move.holds now.1 now.2⟩) ⟨valid, holds⟩).2

/-- A run of the node represents the run of the ledger, which is small steps. -/
theorem run_sim {P : Params} {ops : List ChainOp} (fine : Deliverable P ops) :
    ∀ {rest : List ChainOp} {s : ChainState} {L : Ledger}, (∀ op ∈ rest, op ∈ ops) →
    Represents P s L → L.Holds P (Given ops) (Direct ops) →
    Represents P (s.run P rest) (L.run P rest) ∧
      Ledger.Moves P (Given ops) (Direct ops) L (L.run P rest) := by
  intro rest
  induction rest with
  | nil => exact fun _ rep _ => ⟨rep, .refl⟩
  | cons op rest ih =>
      intro s L sub rep holds
      obtain ⟨same, moves⟩ := step_sim fine rep holds (sub op List.mem_cons_self)
      have later := Ledger.Moves.holds moves fine.shaped rep.valid holds
      obtain ⟨rep', moves'⟩ := ih (fun o mem => sub o (List.mem_cons_of_mem _ mem)) same.state later
      exact ⟨rep', moves.trans moves'⟩

/-- Every state a node reaches from an empty disk represents a ledger reached by small steps. -/
theorem reached {P : Params} {s₀ : ChainState} {ops : List ChainOp} (sound : P.SoundGenesis)
    (opened : ChainState.initializeState P (.ofDisk .empty) = .ok s₀) (fine : Deliverable P ops) :
    Represents P (s₀.run P ops) ((Ledger.initial P).run P ops) ∧
      Ledger.Moves P (Given ops) (Direct ops) (.initial P) ((Ledger.initial P).run P ops) := by
  exact run_sim fine (fun _ mem => mem) (represents_initial sound opened) Ledger.holds_initial

/-! ### Runs of `AcceptBlock` -/

/-- One of the blocks delivered. -/
def Delivered (deliveries : List (UInt64 × Block)) (block : Block) : Prop :=
  ∃ now, (now, block) ∈ deliveries

def accepts (deliveries : List (UInt64 × Block)) : List ChainOp :=
  deliveries.map fun d => .acceptBlock d.1 d.2

theorem acceptAll_eq_run (P : Params) (deliveries : List (UInt64 × Block)) (s : ChainState) :
    s.acceptAll P deliveries = s.run P (accepts deliveries) := by
  rw [ChainState.run, accepts, List.foldl_map]
  rfl

theorem given_accepts {deliveries : List (UInt64 × Block)} {block : Block} :
    Given (accepts deliveries) block ↔ Delivered deliveries block := by
  simp [Given, accepts, Delivered]

theorem not_direct_accepts {deliveries : List (UInt64 × Block)} {block : Block} :
    ¬ Direct (accepts deliveries) block := by
  simp [Direct, accepts]

/-- Nothing is asked of blocks that come to `AcceptBlock`. -/
theorem deliverable_accepts (P : Params) (deliveries : List (UInt64 × Block)) :
    Deliverable P (accepts deliveries) where
  shaped _ direct := absurd direct not_direct_accepts
  apart _ direct := absurd direct not_direct_accepts

/-- Every state reached by deliveries represents a ledger reached by small steps. -/
theorem accepted {P : Params} {s₀ : ChainState} (deliveries : List (UInt64 × Block))
    (sound : P.SoundGenesis) (opened : ChainState.initializeState P (.ofDisk .empty) = .ok s₀) :
    ∃ L, Represents P (s₀.acceptAll P deliveries) L ∧
      Ledger.Moves P (Delivered deliveries) (fun _ => False) (.initial P) L := by
  obtain ⟨rep, moves⟩ := reached sound opened (deliverable_accepts P deliveries)
  rw [acceptAll_eq_run]
  refine ⟨_, rep, Relation.ReflTransGen.mono (fun L L' move => ?_) _ _ moves⟩
  cases move with
  | store mem new found admitted => exact .store (given_accepts.mp mem) new found admitted
  | connect stored => exact .connect stored
  | connectDirect mem _ => exact absurd mem not_direct_accepts
  | disconnect => exact .disconnect

/-- A block was admitted by a ledger on the way from a new one to `L`, before it was stored. -/
def Ledger.Admitted (P : Params) (given : Block → Prop) (L : Ledger) (blockHash : Bytes32)
    (st : StoredBlock) : Prop :=
  ∃ now L₀ parent, Moves P given (fun _ => False) (initial P) L₀ ∧
    Moves P given (fun _ => False) L₀ L ∧ L₀.tree blockHash = none ∧
    L₀.tree st.block.header.prevBlockHash = some parent ∧
    L₀.admits P now st.block parent = true ∧ st = childOf P parent st.block

theorem Ledger.Admitted.later {P : Params} {given : Block → Prop} {L L' : Ledger}
    {blockHash : Bytes32} {st : StoredBlock} (admitted : Admitted P given L blockHash st)
    (move : Move P given (fun _ => False) L L') : Admitted P given L' blockHash st := by
  obtain ⟨now, L₀, parent, before, since, rest⟩ := admitted
  exact ⟨now, L₀, parent, before, since.tail move, rest⟩

/-- Every block stored above genesis was admitted. -/
theorem Ledger.Moves.admitted {P : Params} {given : Block → Prop} {L : Ledger}
    (valid : (initial P).Valid P)
    (moves : Moves P given (fun _ => False) (initial P) L) :
    ∀ {blockHash st}, L.tree blockHash = some st → blockHash ≠ P.genesisHash →
    Admitted P given L blockHash st := by
  induction moves with
  | refl =>
      intro blockHash st stored above
      dsimp only [initial] at stored
      rw [if_neg above] at stored
      cases stored
  | @tail L L' before move ih =>
      intro blockHash st stored above
      have now := Moves.valid before (fun _ => nofun) valid
      have later (known : L.tree blockHash = some st) := (ih known above).later move
      cases move with
      | @store now' block parent mem new found admitted =>
          have step : Move P given (fun _ => False) L (L.put P (childOf P parent block)) :=
            .store mem new found admitted
          rw [tree_put] at stored
          split at stored
          · rename_i same
            cases stored
            exact ⟨now', L, parent, before, .single step, same ▸ new, found, admitted, rfl⟩
          · exact later stored
      | connect storedAt =>
          rw [now.tree_connect storedAt] at stored
          exact later stored
      | connectDirect none _ => exact none.elim
      | disconnect =>
          rw [tree_disconnect] at stored
          exact later stored

/-! ### A node of the small network -/

theorem soundGenesis_smallNetwork : smallNetwork.SoundGenesis :=
  ⟨by decide +kernel, by decide +kernel, by decide +kernel⟩

namespace SmallNetwork

/-- A node of the small network, just opened. -/
def node : ChainState :=
  match ChainState.initializeState smallNetwork (.ofDisk .empty) with
  | .ok s => s
  | .error _ => .ofDisk .empty

theorem node_opened :
    ChainState.initializeState smallNetwork (.ofDisk .empty) = .ok node := by
  have ok : (ChainState.initializeState smallNetwork (.ofDisk .empty)).isOk = true := by
    decide +kernel
  unfold node
  cases opened : ChainState.initializeState smallNetwork (.ofDisk .empty) with
  | ok s => rfl
  | error e => simp [opened, Except.isOk, Except.toBool] at ok

/-- A block with nothing but a coinbase, on genesis. -/
def blockOne : Block := mine smallNetwork.genesisHash 1 1 [mint 2 10] fits_two

end SmallNetwork

end QmaskCore
