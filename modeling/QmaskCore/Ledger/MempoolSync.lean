import QmaskCore.Ledger.Reopened
import QmaskCore.Lib.DropOldest

/-!
What the mempool is told of the moves of the tip.

`stepMoves` lists the moves a call makes, block by block. `queues_step` says the two
queues are a function of the moves since the last `TakeMempoolSync`, and `Path` what
each move finds on the active chain: a block that is disconnected is the newest, and
its payments spend what was made before them on that chain (`Backed.rooted`). So when
a transaction is listed, what made the coins it spends is listed before it, unless it
is on the active chain still, or again.
-/

namespace QmaskCore

open DropOldest

/-! ### Moves of the tip -/

/-- The tip moves by one block. -/
inductive TipMove where
  | connected (block : Block)
  | disconnected (block : Block)

/-- The blocks above genesis after a move, the newest first. -/
def TipMove.onto (blocks : List Block) : TipMove → List Block
  | .connected block => block :: blocks
  | .disconnected _ => blocks.tail

namespace ChainState

/-- The block of the tip, as `DisconnectTipLocked` reads it. -/
def tipBlock (P : Params) (s : ChainState) : Option Block :=
  (s.readBlockIndex s.mBestChain.blockHash).bind fun entry =>
    s.mBlockData.readBlock P entry.blockPos

/-- The move `ConnectBlockLocked` makes. -/
def connectMoves (P : Params) (block : Block) (s : ChainState) : List TipMove :=
  if (s.connectBlockLocked P block).1 then [.connected block] else []

/-- The move `DisconnectTipLocked` makes. -/
def disconnectMoves (P : Params) (s : ChainState) : List TipMove :=
  if (s.disconnectTipLocked P).1 then (s.tipBlock P).toList.map .disconnected else []

def toForkMoves (P : Params) (fork : Option Bytes32) : Nat → ChainState → List TipMove
  | 0, _ => []
  | fuel + 1, s =>
      if s.atFork fork then []
      else if s.mBestChain.height = 0 then []
      else
        s.disconnectMoves P ++
          match s.disconnectTipLocked P with
          | (false, _) => []
          | (true, s) => toForkMoves P fork fuel s

def rollbackMoves (P : Params) : List Bytes32 → ChainState → List TipMove
  | [], _ => []
  | _ :: connected, s =>
      s.disconnectMoves P ++
        match s.disconnectTipLocked P with
        | (false, _) => []
        | (true, s) => rollbackMoves P connected s

def branchMoves (P : Params) : List Bytes32 → List Bytes32 → ChainState → List TipMove
  | [], _, _ => []
  | blockHash :: branch, connected, s =>
      match s.readBlockIndex blockHash with
      | none => s.rollbackMoves P connected
      | some e =>
          match s.mBlockData.readBlock P e.blockPos with
          | none => s.rollbackMoves P connected
          | some block =>
              s.connectMoves P block ++
                match s.connectBlockLocked P block with
                | (false, s) => s.rollbackMoves P connected
                | (true, s) => branchMoves P branch (blockHash :: connected) s

def activateMoves (P : Params) (newTipHash : Bytes32) (s : ChainState) : List TipMove :=
  match s.newBranch P (s.branchFuel newTipHash) newTipHash with
  | none => []
  | some (branch, fork) =>
      s.toForkMoves P fork (s.mBestChain.height + 1) ++
        match s.disconnectToFork P fork (s.mBestChain.height + 1) with
        | (false, _) => []
        | (true, s) => s.branchMoves P branch.reverse []

def acceptMoves (P : Params) (now : UInt64) (block : Block) (s : ChainState) : List TipMove :=
  let blockHash := block.getHash P.sha256
  if s.mInitialized = false then []
  else if s.mBlockData.hasBlock blockHash then []
  else
    match s.readBlockIndex block.header.prevBlockHash with
    | none => []
    | some parent =>
        if s.admits P now block parent = false then []
        else
          let blockWork := P.addChainWork parent.nChainWork block.header.bits
          let s := s.onBlockData (BlockData.writeBlock P block (parent.nHeight + 1) blockWork)
          if P.compareWork blockWork s.mBestChain.chainWork ≤ 0 then []
          else s.activateMoves P blockHash

/-- The moves of a call, in the order they are made. -/
def stepMoves (P : Params) (s : ChainState) : ChainOp → List TipMove
  | .acceptBlock now block => s.acceptMoves P now block
  | .connectBlock block => if s.mInitialized = false then [] else s.connectMoves P block
  | .disconnectBlock blockHash =>
      if s.mInitialized = false then []
      else if blockHash ≠ s.mBestChain.blockHash then []
      else s.disconnectMoves P

end ChainState

/-! ### The queues -/

/-- What waits for the mempool. -/
structure SyncQueues where
  connected : List Transaction
  disconnected : List Transaction
  bytes : Nat

def ChainState.queues (s : ChainState) : SyncQueues :=
  ⟨s.mSyncConnected, s.mSyncDisconnected, s.mSyncDisconnectedBytes⟩

/-- The transactions that are told of. -/
def Block.told (block : Block) : List Transaction := block.transactions.filter (!·.isCoinbase)

def SyncQueues.move (P : Params) (q : SyncQueues) : TipMove → SyncQueues
  | .connected block => { q with connected := q.connected ++ block.told }
  | .disconnected block =>
      let kept := ChainState.evictDisconnected P (q.disconnected ++ block.told.reverse)
        (q.bytes + total P.getSerializedSize block.told.reverse)
      { q with disconnected := kept.1, bytes := kept.2 }

/-- The transactions of the blocks connected, in the order of connection. -/
def connectedOf (moves : List TipMove) : List Transaction :=
  moves.flatMap fun
    | .connected block => block.told
    | .disconnected _ => []

/-- The transactions of the blocks disconnected, in the order they are queued: the
newest block first, and the last transaction of a block before those in front of it. -/
def disconnectedOf (moves : List TipMove) : List Transaction :=
  moves.flatMap fun
    | .connected _ => []
    | .disconnected block => block.told.reverse

theorem evictDisconnected_spec (P : Params) : ∀ txs : List Transaction,
    (ChainState.evictDisconnected P txs (total P.getSerializedSize txs)).2 =
        total P.getSerializedSize
          (ChainState.evictDisconnected P txs (total P.getSerializedSize txs)).1 ∧
      Newest P.getSerializedSize ChainState.maxDisconnectedTxBytes txs
        (ChainState.evictDisconnected P txs (total P.getSerializedSize txs)).1 := by
  intro txs
  induction txs with
  | nil => exact ⟨rfl, newest_nil⟩
  | cons tx txs ih =>
      rw [ChainState.evictDisconnected]
      split
      · rename_i above
        rw [total_cons, Nat.add_sub_cancel_left]
        exact ⟨ih.1, ih.2.cons above⟩
      · rename_i fits
        exact ⟨rfl, newest_of_fits (Nat.not_lt.mp fits)⟩

namespace ChainState

variable {P : Params} {s : ChainState}

theorem queues_queueDisconnectedLocked (block : Block) (s : ChainState) :
    (s.queueDisconnectedLocked P block).queues = s.queues.move P (.disconnected block) := by
  unfold queueDisconnectedLocked SyncQueues.move
  rw [List.filter_reverse]
  rfl

/-- A tip that goes back is queued, and the queues change for nothing else. -/
theorem disconnectTipLocked_cases (s : ChainState) :
    (∃ s', s.disconnectTipLocked P = (false, s') ∧ s'.queues = s.queues) ∨
      ∃ (block : Block) (s' : ChainState),
        s.disconnectTipLocked P = (true, s'.queueDisconnectedLocked P block) ∧
        s.tipBlock P = some block ∧ s'.queues = s.queues := by
  rw [disconnectTipLocked, tipBlock]
  dsimp only
  split
  · exact .inl ⟨s, rfl, rfl⟩
  split
  · exact .inl ⟨s, rfl, rfl⟩
  rename_i entry read
  rw [read, Option.bind_some]
  split
  · exact .inl ⟨s, rfl, rfl⟩
  rename_i block found
  split
  · exact .inl ⟨s, rfl, rfl⟩
  rename_i undo _
  have kept : (s.onUTXOSet (undoBlockTwoPhase block undo)).2.queues = s.queues := rfl
  generalize s.onUTXOSet (undoBlockTwoPhase block undo) = out at kept
  rcases out with ⟨_ | _, s'⟩
  · exact .inl ⟨s', rfl, kept⟩
  dsimp only
  split
  · exact .inl ⟨s', rfl, kept⟩
  rename_i parent _
  exact .inr ⟨block, _, rfl, found, kept⟩

theorem queues_disconnectTipLocked (s : ChainState) :
    (s.disconnectTipLocked P).2.queues =
      (s.disconnectMoves P).foldl (SyncQueues.move P) s.queues := by
  rw [disconnectMoves]
  rcases s.disconnectTipLocked_cases (P := P) with
    ⟨s', stays, kept⟩ | ⟨block, s', goes, read, kept⟩
  · rw [stays]
    exact kept
  · rw [goes, read]
    exact (s'.queues_queueDisconnectedLocked block).trans (by rw [kept]; rfl)

theorem queues_connectBlockLocked (block : Block) (s : ChainState) :
    (s.connectBlockLocked P block).2.queues =
      (s.connectMoves P block).foldl (SyncQueues.move P) s.queues := by
  rw [connectMoves, connectBlockLocked]
  dsimp only
  split
  · rfl
  generalize applied : s.onUTXOSet (applyBlockTwoPhase P block
    (UInt32.ofNat (s.mBestChain.height + 1))) = out
  have kept : out.2.queues = s.queues := by
    rw [← applied]
    rfl
  rcases out with ⟨_ | undo, s'⟩
  · exact kept
  · dsimp only
    split
    · exact congrArg (SyncQueues.move P · (.connected block)) kept
    · exact congrArg (SyncQueues.move P · (.connected block)) kept

theorem queues_buildHeightIndexLocked (s : ChainState) :
    s.buildHeightIndexLocked.queues = s.queues := by
  unfold buildHeightIndexLocked
  split
  · rfl
  · split <;> rfl

theorem queues_initializeGenesisLocked {s s' : ChainState}
    (made : s.initializeGenesisLocked P = (true, s')) : s'.queues = s.queues := by
  unfold initializeGenesisLocked at made
  split at made
  · cases made
    rfl
  dsimp only at made
  split at made
  · cases made
  have kept : (s.onUTXOSet (applyGenesis true P.buildGenesisBlock.transactions)).2.queues =
      s.queues := rfl
  generalize s.onUTXOSet (applyGenesis true P.buildGenesisBlock.transactions) = out at made kept
  rcases out with ⟨_ | _, s₁⟩
  · cases made
  · cases made
    exact kept

end ChainState

/-! ### What the moves find -/

/-- The transactions of a chain, genesis included. -/
def madeOn (P : Params) (blocks : List Block) : List Transaction :=
  blocks.flatMap (·.transactions) ++ P.buildGenesisBlock.transactions

/-- Each payment of the block spends what was made in front of it in the block or on
the chain below. -/
def Block.Rooted (P : Params) (below : List Block) (block : Block) : Prop :=
  ∀ before tx after, block.transactions = before ++ tx :: after → tx.isCoinbase = false →
    ∀ input ∈ tx.inputs, ∃ made ∈ before ++ madeOn P below, made.hash = input.prevTxHash

/-- The moves lead from one chain to another, and each block that goes back is rooted
in the chain below it. -/
inductive Path (P : Params) : List Block → List TipMove → List Block → Prop
  | nil {blocks : List Block} : Path P blocks [] blocks
  | connected {block : Block} {blocks blocks' : List Block} {moves : List TipMove} :
      Path P (block :: blocks) moves blocks' → Path P blocks (.connected block :: moves) blocks'
  | disconnected {block : Block} {blocks blocks' : List Block} {moves : List TipMove} :
      block.Rooted P blocks → Path P blocks moves blocks' →
      Path P (block :: blocks) (.disconnected block :: moves) blocks'

theorem Path.trans {P : Params} {blocks blocks' blocks'' : List Block}
    {moves moves' : List TipMove} (first : Path P blocks moves blocks')
    (second : Path P blocks' moves' blocks'') : Path P blocks (moves ++ moves') blocks'' := by
  induction first with
  | nil => exact second
  | connected _ ih => exact .connected (ih second)
  | disconnected rooted _ ih => exact .disconnected rooted (ih second)

/-- Where the moves lead is told by the moves. -/
theorem Path.onto {P : Params} {blocks blocks' : List Block} {moves : List TipMove}
    (path : Path P blocks moves blocks') : moves.foldl TipMove.onto blocks = blocks' := by
  induction path with
  | nil => rfl
  | connected _ ih => exact ih
  | disconnected _ _ ih => exact ih

/-- What payable payments spend was made before. -/
theorem PaysAll.rooted {P : Params} {height : UInt32} :
    ∀ {before : List (Transaction × List Coin)} {d : Transaction × List Coin}
      {after : List (Transaction × List Coin)} {V : CoinStore}
      {made : List (Transaction × UInt32)}, Sourced V made →
    PaysAll P height V (before ++ d :: after) → ∀ input ∈ d.1.inputs,
    ∃ m ∈ before.map (·.1) ++ made.map (·.1), m.hash = input.prevTxHash := by
  intro before
  induction before with
  | nil =>
      intro d after V made sourced pays input mem
      obtain ⟨coin, found⟩ := CoinsView.getCoin_of_coinsOf pays.1.found input mem
      obtain ⟨m, source, created⟩ := sourced.coins found
      have own := Transaction.mem_outpoints.mp (Transaction.mem_outpoints_of_newCoinAt created)
      exact ⟨m.1, List.mem_map_of_mem source, own.1.symm⟩
  | cons e before ih =>
      intro d after V made sourced pays input mem
      obtain ⟨m, source, hash⟩ := ih (sourced.after height e.1) pays.2 input mem
      refine ⟨m, ?_, hash⟩
      simp only [List.map_cons, List.mem_append, List.mem_cons] at source ⊢
      tauto

theorem map_fst_madeBy (P : Params) : ∀ chain : List Connected,
    (madeBy P chain).map (·.1) = madeOn P (chain.map (·.block)) := by
  intro chain
  have fst (height : UInt32) (txs : List Transaction) : (txs.map (·, height)).map (·.1) = txs := by
    simp [Function.comp_def]
  induction chain with
  | nil => exact fst 0 _
  | cons c rest ih =>
      rw [madeBy, List.map_append, fst, ih]
      simp [madeOn]

theorem Block.isCoinbase_of_coinbase? {block : Block} {tx : Transaction}
    (first : tx ∈ block.coinbase?) : tx.isCoinbase = true := by
  unfold Block.coinbase? at first
  split at first
  · split at first
    · cases first
      assumption
    · cases first
  · cases first

/-- An element of two parts is in the first or in the second. -/
theorem eq_append_of_append_cons {α : Type} {front back first second : List α} {a : α}
    (split : front ++ a :: back = first ++ second) :
    (∃ rest, first = front ++ a :: rest ∧ back = rest ++ second) ∨
      ∃ rest, front = first ++ rest ∧ second = rest ++ a :: back := by
  rcases List.append_eq_append_iff.mp split with ⟨rest, rfl, whole⟩ | ⟨rest, rfl, whole⟩
  · cases rest with
    | nil => exact .inr ⟨[], by simp, by simpa using whole.symm⟩
    | cons b rest =>
        obtain ⟨rfl, rfl⟩ := List.cons.inj whole
        exact .inl ⟨rest, rfl, rfl⟩
  · exact .inr ⟨rest, rfl, whole⟩

theorem Backed.rooted {P : Params} {c : Connected} {rest : List Connected} {V : CoinStore}
    (backed : Backed P (c :: rest) V) : c.block.Rooted P (rest.map (·.block)) := by
  cases backed with
  | @block _ _ V₀ _ below applies _ =>
      intro before tx after whole payment input mem
      rw [c.block.transactions_eq, applies.all] at whole
      rcases eq_append_of_append_cons whole.symm with ⟨rest', first, -⟩ | ⟨front, rfl, pays⟩
      · -- A payment does not stand where the coinbase does.
        have coinbase : tx ∈ c.block.coinbase? := Option.mem_toList.mp (by rw [first]; simp)
        rw [c.block.isCoinbase_of_coinbase? coinbase] at payment
        cases payment
      obtain ⟨earlier, later, done, rfl, tail⟩ := List.map_eq_append_iff.mp pays
      obtain ⟨d, later', rfl, rfl, -⟩ := List.map_eq_cons_iff.mp tail
      have sourced : Sourced (V₀.afterAll (nextHeight rest) c.block.coinbase?.toList)
          (c.block.coinbase?.toList.map (·, nextHeight rest) ++ madeBy P rest) :=
        below.sourced.afterAll (nextHeight rest)
      have block := applies.pays
      rw [BlockPays, done] at block
      obtain ⟨m, source, hash⟩ := PaysAll.rooted sourced block input mem
      refine ⟨m, ?_, hash⟩
      rw [List.map_append, map_fst_madeBy] at source
      simp only [List.mem_append, List.mem_map] at source ⊢
      grind

/-! ### Calls are their moves -/

/-- From one state to another the moves account for the queues and for the chain. -/
structure Moved (P : Params) (ops : List ChainOp) (s : ChainState) (moves : List TipMove)
    (s' : ChainState) : Prop where
  queues : s'.queues = moves.foldl (SyncQueues.move P) s.queues
  chain : ∀ {L : Ledger}, Represents P s L → L.Holds P (Given ops) (Direct ops) →
    ∃ L', Represents P s' L' ∧ L'.Holds P (Given ops) (Direct ops) ∧ Path P L.blocks moves L'.blocks

namespace Moved

variable {P : Params} {ops : List ChainOp} {s s' s'' : ChainState} {moves moves' : List TipMove}

theorem refl : Moved P ops s [] s := ⟨rfl, fun rep holds => ⟨_, rep, holds, .nil⟩⟩

theorem trans (first : Moved P ops s moves s') (second : Moved P ops s' moves' s'') :
    Moved P ops s (moves ++ moves') s'' where
  queues := by rw [second.queues, first.queues, List.foldl_append]
  chain rep holds := by
    obtain ⟨L', rep', holds', path⟩ := first.chain rep holds
    obtain ⟨L'', rep'', holds'', path'⟩ := second.chain rep' holds'
    exact ⟨L'', rep'', holds'', path.trans path'⟩

/-- The block read back for the tip is the newest of the chain. -/
theorem tipBlock_eq {L : Ledger} (rep : Represents P s L) {c : Connected} {rest : List Connected}
    (chain : L.chain = c :: rest) (readable : c.block.Readable P) :
    s.tipBlock P = some c.block := by
  obtain ⟨pos, read, record⟩ := rep.stored rep.valid.tree_tip
  unfold Ledger.blocks at read record
  rw [← rep.tip, chain] at read
  rw [chain] at record
  rw [ChainState.tipBlock, read, Option.bind_some]
  refine (BlockData.readBlock_of_record record).trans ?_
  exact if_pos readable

theorem disconnect : Moved P ops s (s.disconnectMoves P) (s.disconnectTipLocked P).2 where
  queues := s.queues_disconnectTipLocked
  chain := by
    intro L rep holds
    obtain ⟨answer, state⟩ := rep.disconnectTipLocked_sim
    have holds' : (L.disconnect P).2.Holds P (Given ops) (Direct ops) :=
      holds.congr (Ledger.tree_disconnect L)
    refine ⟨_, state, holds', ?_⟩
    have backed := rep.valid.backed
    rw [ChainState.disconnectMoves, answer, Ledger.disconnect]
    rcases chain : L.chain with _ | ⟨c, rest⟩
    · rw [if_neg (by simp)]
      exact .nil
    · rw [chain] at backed
      dsimp only
      split
      · rename_i readable
        rw [if_pos rfl, tipBlock_eq rep chain readable, Ledger.blocks, chain]
        exact .disconnected backed.rooted .nil
      · rw [if_neg (by simp)]
        exact .nil

/-- A block that is read back is one of the tree. -/
theorem stored_of_reads {L : Ledger} (rep : Represents P s L) {block : Block}
    (reads : s.Reads P block) : ∃ blockHash st, L.tree blockHash = some st ∧ st.block = block := by
  obtain ⟨blockHash, entry, read, found⟩ := reads
  cases stored : L.tree blockHash with
  | none =>
      rw [rep.absent stored] at read
      cases read
  | some st =>
      obtain ⟨pos, read', record⟩ := rep.stored stored
      obtain rfl := Option.some.inj (read'.symm.trans read)
      refine ⟨blockHash, st, stored, ?_⟩
      have whole := BlockData.readBlock_of_record record
      rw [show s.mBlockData.readBlock P pos = some block from found] at whole
      split at whole
      · exact (Option.some.inj whole).symm
      · cases whole

theorem connect (fine : Deliverable P ops) {block : Block}
    (known : s.Reads P block ∨ Direct ops block) :
    Moved P ops s (s.connectMoves P block) (s.connectBlockLocked P block).2 where
  queues := s.queues_connectBlockLocked block
  chain := by
    intro L rep holds
    have step : L.Agrees P block ∧ block.Shaped ∧
        Ledger.Move P (Given ops) (Direct ops) L (L.connect P block).2 := by
      rcases known with reads | direct
      · obtain ⟨blockHash, st, stored, rfl⟩ := stored_of_reads rep reads
        exact ⟨rep.valid.agrees stored, rep.valid.shape stored, .connect stored⟩
      · have agrees := fine.agrees holds rep.valid direct
        exact ⟨agrees, fine.shaped block direct, .connectDirect direct agrees⟩
    obtain ⟨agrees, shaped, move⟩ := step
    obtain ⟨answer, state⟩ := rep.connectBlockLocked_sim agrees shaped
    refine ⟨_, state, move.holds rep.valid holds, ?_⟩
    rw [ChainState.connectMoves, answer, Ledger.connect]
    dsimp only
    split
    · rw [if_neg (by simp)]
      exact .nil
    · rcases applyBlockTwoPhase P block (nextHeight L.chain) L.coins with ⟨_ | undo, V⟩
      · rw [if_neg (by simp)]
        exact .nil
      · rw [if_pos rfl]
        exact .connected .nil

theorem store {now : UInt64} {block : Block} {parent : BlockIndexEntry}
    (given : Given ops block) (new : s.mBlockData.hasBlock (block.getHash P.sha256) = false)
    (read : s.readBlockIndex block.header.prevBlockHash = some parent)
    (admitted : s.admits P now block parent = true) :
    Moved P ops s [] (s.onBlockData (BlockData.writeBlock P block (parent.nHeight + 1)
      (P.addChainWork parent.nChainWork block.header.bits))) where
  queues := rfl
  chain := by
    intro L rep holds
    rw [rep.hasBlock_eq, Option.isSome_eq_false_iff, Option.isNone_iff_eq_none] at new
    cases stored : L.tree block.header.prevBlockHash with
    | none =>
        rw [rep.absent stored] at read
        cases read
    | some st =>
        obtain ⟨pos, read', -⟩ := rep.stored stored
        obtain rfl := Option.some.inj (read'.symm.trans read)
        rw [rep.admits_eq] at admitted
        have next := rep.store (rep.valid.store new stored (Ledger.height_of_admits admitted)
          (Ledger.rules_of_admits admitted).shaped)
        have path : Path P L.blocks [] (L.put P (Ledger.childOf P st block)).blocks := .nil
        exact ⟨L.put P (Ledger.childOf P st block), next, holds.put (.inl given), path⟩

theorem disconnectToFork (fork : Option Bytes32) : ∀ (fuel : Nat) {s : ChainState},
    Moved P ops s (s.toForkMoves P fork fuel) (s.disconnectToFork P fork fuel).2 := by
  intro fuel
  induction fuel with
  | zero => exact .refl
  | succ fuel ih =>
      intro s
      have back : Moved P ops s (s.disconnectMoves P) (s.disconnectTipLocked P).2 := disconnect
      rw [ChainState.toForkMoves, ChainState.disconnectToFork]
      split
      · exact .refl
      split
      · exact .refl
      generalize s.disconnectTipLocked P = out at back ⊢
      rcases out with ⟨_ | _, s'⟩
      · exact back.trans .refl
      · exact back.trans ih

theorem rollbackConnectedLocked : ∀ (connected : List Bytes32) {s : ChainState},
    Moved P ops s (s.rollbackMoves P connected) (s.rollbackConnectedLocked P connected) := by
  intro connected
  induction connected with
  | nil => exact .refl
  | cons blockHash connected ih =>
      intro s
      have back : Moved P ops s (s.disconnectMoves P) (s.disconnectTipLocked P).2 := disconnect
      rw [ChainState.rollbackMoves, ChainState.rollbackConnectedLocked]
      generalize s.disconnectTipLocked P = out at back ⊢
      rcases out with ⟨_ | _, s'⟩
      · exact back.trans .refl
      · exact back.trans ih

theorem connectBranch (fine : Deliverable P ops) : ∀ (branch : List Bytes32)
    {connected : List Bytes32} {s : ChainState},
    Moved P ops s (s.branchMoves P branch connected) (s.connectBranch P branch connected).2 := by
  intro branch
  induction branch with
  | nil => exact .refl
  | cons blockHash branch ih =>
      intro connected s
      rw [ChainState.branchMoves, ChainState.connectBranch]
      cases read : s.readBlockIndex blockHash with
      | none => exact rollbackConnectedLocked connected
      | some entry =>
          dsimp only
          cases found : s.mBlockData.readBlock P entry.blockPos with
          | none => exact rollbackConnectedLocked connected
          | some block =>
              have next : Moved P ops s (s.connectMoves P block) (s.connectBlockLocked P block).2 :=
                connect fine (.inl ⟨blockHash, entry, read, found⟩)
              dsimp only
              generalize s.connectBlockLocked P block = out at next ⊢
              rcases out with ⟨_ | _, s'⟩
              · exact next.trans (rollbackConnectedLocked connected)
              · exact next.trans ih

theorem activateBestChainLocked (fine : Deliverable P ops) (newTipHash : Bytes32) :
    Moved P ops s (s.activateMoves P newTipHash) (s.activateBestChainLocked P newTipHash).2 := by
  rw [ChainState.activateMoves, ChainState.activateBestChainLocked]
  rcases s.newBranch P (s.branchFuel newTipHash) newTipHash with _ | ⟨branch, fork⟩
  · exact .refl
  · have back : Moved P ops s (s.toForkMoves P fork (s.mBestChain.height + 1))
        (s.disconnectToFork P fork (s.mBestChain.height + 1)).2 := disconnectToFork fork _
    dsimp only
    generalize s.disconnectToFork P fork (s.mBestChain.height + 1) = out at back ⊢
    rcases out with ⟨_ | _, s'⟩
    · exact back.trans .refl
    · exact back.trans (connectBranch fine _)

theorem acceptBlock (fine : Deliverable P ops) {now : UInt64} {block : Block}
    (mem : .acceptBlock now block ∈ ops) :
    Moved P ops s (s.acceptMoves P now block) (s.acceptBlock P now block).2 := by
  rw [ChainState.acceptMoves, ChainState.acceptBlock]
  dsimp only
  split
  · exact .refl
  split
  · exact .refl
  rename_i new
  cases read : s.readBlockIndex block.header.prevBlockHash with
  | none => exact .refl
  | some parent =>
      dsimp only
      split
      · exact .refl
      rename_i admitted
      have stored : Moved P ops s [] (s.onBlockData (BlockData.writeBlock P block
          (parent.nHeight + 1) (P.addChainWork parent.nChainWork block.header.bits))) :=
        store ⟨now, mem⟩ (by simpa using new) read (by simpa using admitted)
      split
      · exact stored
      · exact stored.trans (activateBestChainLocked fine _)

/-- A call is its moves. -/
theorem step (fine : Deliverable P ops) {op : ChainOp} (mem : op ∈ ops) :
    Moved P ops s (s.stepMoves P op) (s.step P op).2 := by
  cases op with
  | acceptBlock now block => exact acceptBlock fine mem
  | connectBlock block =>
      change Moved P ops s (if s.mInitialized = false then [] else s.connectMoves P block)
        (s.connectBlock P block).2
      rw [ChainState.connectBlock]
      split
      · exact .refl
      · exact connect fine (.inr mem)
  | disconnectBlock blockHash =>
      change Moved P ops s (if s.mInitialized = false then [] else if _ then [] else _)
        (s.disconnectBlock P blockHash).2
      rw [ChainState.disconnectBlock]
      split
      · exact .refl
      split
      · exact .refl
      · exact disconnect

end Moved

/-! ### Since the last call -/

/-- The coinbases of the blocks disconnected. -/
def detachedCoinbases (moves : List TipMove) : List Transaction :=
  moves.flatMap fun
    | .connected _ => []
    | .disconnected block => block.transactions.filter (·.isCoinbase)

/-- The queues after the moves since the last call, and the chain they lead to. -/
structure Synced (P : Params) (since : List TipMove) (blocks : List Block) (q : SyncQueues) :
    Prop where
  connected : q.connected = connectedOf since
  newest : Newest P.getSerializedSize ChainState.maxDisconnectedTxBytes (disconnectedOf since)
    q.disconnected
  bytes : q.bytes = total P.getSerializedSize q.disconnected
  /-- What made the coins a listed transaction spends is listed behind it, or on the chain, or
  is a coinbase. -/
  makers : ∀ older tx newer, q.disconnected = older ++ tx :: newer → ∀ input ∈ tx.inputs,
    ∃ made ∈ newer ++ madeOn P blocks ++ detachedCoinbases since, made.hash = input.prevTxHash

/-- A transaction of a block is told of or a coinbase. -/
theorem Block.mem_told_or {block : Block} {tx : Transaction} (mem : tx ∈ block.transactions) :
    tx ∈ block.told ∨ tx ∈ block.transactions.filter (·.isCoinbase) := by
  cases coinbase : tx.isCoinbase <;> simp [told, mem, coinbase]

/-- What a payment of a rooted block spends was made by one told of before it, on the
chain below, or by a coinbase of the block. -/
theorem Block.Rooted.told {P : Params} {below : List Block} {block : Block}
    (rooted : block.Rooted P below) {before after : List Transaction} {tx : Transaction}
    (split : block.told = before ++ tx :: after) : ∀ input ∈ tx.inputs,
    ∃ made ∈ before ++ madeOn P below ++ block.transactions.filter (·.isCoinbase),
      made.hash = input.prevTxHash := by
  intro input mem
  obtain ⟨front, back, whole, rfl, rest⟩ := List.filter_eq_append_iff.mp split
  obtain ⟨skipped, back', rfl, others, payment, -⟩ := List.filter_eq_cons_iff.mp rest
  rw [← List.append_assoc] at whole
  obtain ⟨made, source, hash⟩ := rooted (front ++ skipped) tx back' whole (by simpa using payment)
    input mem
  refine ⟨made, ?_, hash⟩
  rcases List.mem_append.mp source with own | lower
  · cases coinbase : made.isCoinbase with
    | true =>
        have listed : made ∈ block.transactions := by
          rw [whole]
          exact List.mem_append_left _ own
        simp [listed, coinbase]
    | false =>
        have inFront : made ∈ front := (List.mem_append.mp own).resolve_right fun skip =>
          others made skip (by simp [coinbase])
        simp [inFront, coinbase]
  · simp [lower]

namespace Synced

variable {P : Params} {since moves : List TipMove} {blocks blocks' : List Block} {q : SyncQueues}

theorem connect (synced : Synced P since blocks q) (block : Block) :
    Synced P (since ++ [.connected block]) (block :: blocks) (q.move P (.connected block)) where
  connected := by
    rw [SyncQueues.move, synced.connected]
    simp [connectedOf]
  newest := by
    have same : disconnectedOf (since ++ [.connected block]) = disconnectedOf since := by
      simp [disconnectedOf]
    rw [same]
    exact synced.newest
  bytes := synced.bytes
  makers := by
    intro older tx newer listed input mem
    obtain ⟨made, source, hash⟩ := synced.makers older tx newer listed input mem
    refine ⟨made, ?_, hash⟩
    simp only [madeOn, detachedCoinbases, List.flatMap_cons, List.flatMap_append,
      List.mem_append] at source ⊢
    tauto

theorem disconnect {block : Block} (synced : Synced P since (block :: blocks) q)
    (rooted : block.Rooted P blocks) :
    Synced P (since ++ [.disconnected block]) blocks (q.move P (.disconnected block)) := by
  have queued : disconnectedOf (since ++ [.disconnected block]) =
      disconnectedOf since ++ block.told.reverse := by
    simp [disconnectedOf]
  obtain ⟨bytes, newest⟩ := evictDisconnected_spec P (q.disconnected ++ block.told.reverse)
  rw [total_append, ← synced.bytes] at bytes newest
  refine ⟨?_, ?_, bytes, ?_⟩
  · rw [SyncQueues.move]
    refine synced.connected.trans ?_
    simp [connectedOf]
  · rw [queued]
    exact synced.newest.append newest
  · intro older tx newer listed input mem
    obtain ⟨dropped, whole⟩ := newest.suffix
    have split : (dropped ++ older) ++ tx :: newer = q.disconnected ++ block.told.reverse := by
      rw [← whole, List.append_assoc]
      exact congrArg (dropped ++ ·) listed.symm
    have detached : detachedCoinbases (since ++ [.disconnected block]) =
        detachedCoinbases since ++ block.transactions.filter (·.isCoinbase) := by
      simp [detachedCoinbases]
    rw [detached]
    rcases eq_append_of_append_cons split with ⟨rest, old, rfl⟩ | ⟨rest, -, new⟩
    · obtain ⟨made, source, hash⟩ := synced.makers _ tx rest old input mem
      refine ⟨made, ?_, hash⟩
      -- What was made by the block itself is told of now.
      have mine := @block.mem_told_or made
      simp only [madeOn, List.flatMap_cons, List.mem_append, List.mem_reverse] at source ⊢
      tauto
    · have own : block.told = newer.reverse ++ tx :: rest.reverse := by
        rw [← block.told.reverse_reverse, new]
        simp
      obtain ⟨made, source, hash⟩ := rooted.told own input mem
      refine ⟨made, ?_, hash⟩
      simp only [List.mem_append, List.mem_reverse] at source ⊢
      tauto

/-- The moves along a path. -/
theorem path (path : Path P blocks moves blocks') : ∀ {since : List TipMove} {q : SyncQueues},
    Synced P since blocks q →
    Synced P (since ++ moves) blocks' (moves.foldl (SyncQueues.move P) q) := by
  induction path with
  | nil =>
      intro since q synced
      rwa [List.append_nil]
  | @connected block _ _ moves _ ih =>
      intro since q synced
      have onward := ih (synced.connect block)
      rwa [List.append_assoc] at onward
  | @disconnected block _ _ moves rooted _ ih =>
      intro since q synced
      have onward := ih (synced.disconnect rooted)
      rwa [List.append_assoc] at onward

end Synced

/-! ### Runs -/

/-- A call of the node, or the mempool takes what waits for it. -/
inductive SyncOp where
  | call (op : ChainOp)
  | takeMempoolSync

/-- The calls of the node alone. -/
def nodeCalls (ops : List SyncOp) : List ChainOp :=
  ops.filterMap fun
    | .call op => some op
    | .takeMempoolSync => none

/-- A node, the blocks above genesis as the moves of its tip leave them, and the moves
since the last `TakeMempoolSync`. -/
structure SyncRun where
  node : ChainState
  blocks : List Block
  since : List TipMove

def SyncRun.opened (s₀ : ChainState) : SyncRun := ⟨s₀, [], []⟩

def SyncRun.step (P : Params) (r : SyncRun) : SyncOp → SyncRun
  | .call op =>
      let moves := r.node.stepMoves P op
      ⟨(r.node.step P op).2, moves.foldl TipMove.onto r.blocks, r.since ++ moves⟩
  | .takeMempoolSync => ⟨r.node.takeMempoolSync.2, r.blocks, []⟩

/-- What holds between two calls. -/
structure SyncRun.Kept (P : Params) (ops : List ChainOp) (r : SyncRun) : Prop where
  ledger : ∃ L : Ledger, Represents P r.node L ∧ L.Holds P (Given ops) (Direct ops) ∧
    L.blocks = r.blocks
  synced : Synced P r.since r.blocks r.node.queues

namespace SyncRun.Kept

variable {P : Params} {ops : List ChainOp} {r : SyncRun}

theorem step (kept : r.Kept P ops) (fine : Deliverable P ops) {op : SyncOp}
    (mem : ∀ call, op = .call call → call ∈ ops) : (r.step P op).Kept P ops := by
  obtain ⟨⟨L, rep, holds, same⟩, synced⟩ := kept
  cases op with
  | call op =>
      have moved := Moved.step (s := r.node) fine (mem op rfl)
      obtain ⟨L', rep', holds', path⟩ := moved.chain rep holds
      rw [same] at path
      refine ⟨⟨L', rep', holds', path.onto.symm⟩, ?_⟩
      rw [SyncRun.step, path.onto, moved.queues]
      exact synced.path path
  | takeMempoolSync =>
      refine ⟨⟨L, ?_, holds, same⟩, ?_⟩
      · exact ⟨rep.ready, rep.valid, rep.tip, rep.stored, rep.absent, rep.undo, rep.coins, rep.cache,
          rep.table, rep.files⟩
      · have none : (r.step P .takeMempoolSync).node.queues = ⟨[], [], 0⟩ := rfl
        rw [none]
        exact ⟨rfl, newest_nil, rfl, by simp⟩

theorem run (fine : Deliverable P ops) : ∀ {l : List SyncOp} {r : SyncRun}, r.Kept P ops →
    (∀ call ∈ nodeCalls l, call ∈ ops) → (l.foldl (SyncRun.step P) r).Kept P ops := by
  intro l
  induction l with
  | nil => exact fun kept _ => kept
  | cons op l ih =>
      intro r kept sub
      refine ih (kept.step fine fun call same => sub call ?_) fun call mem => sub call ?_
      · simp [nodeCalls, same]
      · rw [nodeCalls, List.filterMap_cons]
        split
        · exact mem
        · exact List.mem_cons_of_mem _ mem

/-- Opening a node on an empty disk queues nothing. -/
theorem opened {s₀ : ChainState} (sound : P.SoundGenesis)
    (made : ChainState.initializeState P (.ofDisk .empty) = .ok s₀) :
    (SyncRun.opened s₀).Kept P ops := by
  have rep := represents_initial sound made
  have none : s₀.queues = ⟨[], [], 0⟩ := by
    obtain ⟨s, genesis, rfl⟩ := initializeState_empty sound made
    rw [ChainState.queues_buildHeightIndexLocked]
    exact (ChainState.queues_initializeGenesisLocked genesis :)
  refine ⟨⟨_, rep, Ledger.holds_initial, rfl⟩, ?_⟩
  rw [SyncRun.opened, none]
  exact ⟨rfl, newest_nil, rfl, by simp⟩

end SyncRun.Kept

/-- **What the mempool takes.** The transactions connected come in order and none is
missing; of those disconnected only the oldest in the queue are, where the others fill
it; and what made the coins that one of them spends comes in front of it, unless it is
on the active chain or a coinbase. -/
theorem mempool_sync_spec {P : Params} (sound : P.SoundGenesis) {s₀ : ChainState}
    (opened : ChainState.initializeState P (.ofDisk .empty) = .ok s₀) {ops : List SyncOp}
    (fine : Deliverable P (nodeCalls ops)) :
    let r := ops.foldl (SyncRun.step P) (.opened s₀)
    let taken := r.node.takeMempoolSync.1
    r.node.mBestChain = chainTip P r.blocks ∧ taken.1 = connectedOf r.since ∧
      Newest P.getSerializedSize ChainState.maxDisconnectedTxBytes (disconnectedOf r.since)
        taken.2.reverse ∧
      r.node.mSyncDisconnectedBytes = total P.getSerializedSize r.node.mSyncDisconnected ∧
      r.node.mSyncDisconnectedBytes ≤ ChainState.maxDisconnectedTxBytes ∧
      ∀ earlier tx later, taken.2 = earlier ++ tx :: later → ∀ input ∈ tx.inputs,
        ∃ made ∈ earlier ++ madeOn P r.blocks ++ detachedCoinbases r.since,
          made.hash = input.prevTxHash := by
  intro r taken
  obtain ⟨⟨L, rep, -, same⟩, synced⟩ :=
    (SyncRun.Kept.opened sound opened).run fine fun _ mem => mem
  have back : taken.2.reverse = r.node.mSyncDisconnected := List.reverse_reverse _
  refine ⟨?_, synced.connected, ?_, synced.bytes, ?_, ?_⟩
  · rw [← same]
    exact rep.tip
  · rw [back]
    exact synced.newest
  · exact synced.bytes.trans_le synced.newest.fits
  · intro earlier tx later listed input mem
    have backwards : r.node.mSyncDisconnected = later.reverse ++ tx :: earlier.reverse := by
      rw [← back, listed]
      simp
    obtain ⟨made, source, hash⟩ := synced.makers _ tx _ backwards input mem
    refine ⟨made, ?_, hash⟩
    simpa using source

namespace SmallNetwork

/-- A block with a payment of the genesis coin. -/
def spendOne : Block :=
  mine smallNetwork.genesisHash 1 1 [mint 2 10, pay 3 1 7 50] (by simp [Block.maxTransactions])

/-- A block on it that spends what the payment paid. -/
def spendTwo : Block :=
  mine (spendOne.getHash smallNetwork.sha256) 2 1 [mint 5 10, pay 4 3 8 50]
    (by simp [Block.maxTransactions])

/-- The first block goes back and comes again, and the second goes back. -/
def backAndForth : List SyncOp :=
  let hash (block : Block) := block.getHash smallNetwork.sha256
  [.call (.connectBlock spendOne), .call (.disconnectBlock (hash spendOne)),
    .call (.connectBlock spendOne), .call (.connectBlock spendTwo),
    .call (.disconnectBlock (hash spendTwo))]

def backAndForthRun : SyncRun := backAndForth.foldl (SyncRun.step smallNetwork) (.opened node)

theorem shaped_of_payment {block : Block} {tx : Transaction} (only : block.payments = [tx])
    (payment : tx.isCoinbase = false) : block.Shaped := by
  intro tx' mem coinbase
  rw [only, List.mem_singleton] at mem
  rw [mem, payment] at coinbase
  cases coinbase

theorem direct_backAndForth {block : Block} (direct : Direct (nodeCalls backAndForth) block) :
    block = spendOne ∨ block = spendTwo := by
  simpa [Direct, nodeCalls, backAndForth] using direct

theorem deliverable_backAndForth : Deliverable smallNetwork (nodeCalls backAndForth) where
  shaped := by
    intro block direct
    rcases direct_backAndForth direct with rfl | rfl
    · exact shaped_of_payment rfl rfl
    · exact shaped_of_payment rfl rfl
  apart := by
    intro block direct
    rcases direct_backAndForth direct with rfl | rfl
    · decide +kernel
    · decide +kernel

end SmallNetwork

open SmallNetwork in
theorem mempool_sync_spec_backAndForth :
    backAndForthRun.node.mBestChain = chainTip smallNetwork backAndForthRun.blocks :=
  (mempool_sync_spec soundGenesis_smallNetwork node_opened deliverable_backAndForth).1

open SmallNetwork in
/-- The payment that spends comes before the one that made the coin. -/
theorem spender_listed_first :
    backAndForthRun.node.takeMempoolSync.1.2 = [pay 4 3 8 50, pay 3 1 7 50] ∧
      ∃ input ∈ (pay 4 3 8 50).inputs, input.prevTxHash = (pay 3 1 7 50).hash := by
  decide +kernel

end QmaskCore
