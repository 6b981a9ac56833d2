import QmaskCore.Ledger.Exact

/-!
The database equals the active chain.

`ChainState.activeChain` reads the blocks from the tip down to genesis out of
the index and the files; `chainStore` applies them, genesis first, to the empty
store. `coins_of_active_chain`: after any run the node answers every query for a
coin or a leaf as that store does.
-/

namespace QmaskCore

/-- The blocks from a hash down to genesis, which is not listed. -/
def ChainState.blocksDown (P : Params) (s : ChainState) : Nat → Bytes32 → Option (List Block)
  | 0, cursor => if cursor = P.genesisHash then some [] else none
  | height + 1, cursor =>
      match s.readBlockIndex cursor with
      | none => none
      | some entry =>
          match s.mBlockData.recordAt P entry.blockPos with
          | none => none
          | some block => (s.blocksDown P height entry.hashPrev).map (block :: ·)

/-- The blocks above genesis up to `mBestChain.blockHash`, the tip first. -/
def ChainState.activeChain (P : Params) (s : ChainState) : Option (List Block) :=
  s.blocksDown P s.mBestChain.height s.mBestChain.blockHash

/-- The store after genesis and then the blocks of a chain, the tip first in the
list, have been applied to the empty one. -/
def chainStore (P : Params) : List Block → Option CoinStore
  | [] =>
      match ChainState.applyGenesis true P.buildGenesisBlock.transactions CoinStore.empty with
      | (true, V) => some V
      | (false, _) => none
  | block :: rest =>
      match chainStore P rest with
      | none => none
      | some V =>
          match applyBlockTwoPhase P block (nextHeight rest) V with
          | (some _, V) => some V
          | (none, _) => none

theorem applyGenesis_eq {P : Params} (sound : P.SoundGenesis) :
    ChainState.applyGenesis true P.buildGenesisBlock.transactions CoinStore.empty =
      (true, genesisStore P) := by
  obtain ⟨tx, only, coinbase⟩ := sound.transactions
  simp [genesisStore, only, ChainState.applyGenesis, coinbase, CoinDB.applyTransaction,
    CoinStore.applyTransaction, CoinStore.afterAll, CoinStore.after, Transaction.spends,
    Transaction.reveals, CoinStore.eraseAll, CoinStore.markAll]

theorem chainStore_eq {P : Params} (sound : P.SoundGenesis) : ∀ {chain : List Connected},
    Applied P chain → chainStore P (chain.map (·.block)) = some (chainCoins P chain) := by
  intro chain
  induction chain with
  | nil =>
      intro _
      rw [List.map_nil, chainStore, applyGenesis_eq sound]
      rfl
  | cons c rest ih =>
      rintro ⟨applies, below⟩
      rw [List.map_cons, chainStore, ih below]
      dsimp only
      rw [show nextHeight (rest.map (·.block)) = nextHeight rest by simp [nextHeight],
        applies.apply]
      rfl

namespace Represents

variable {P : Params} {s : ChainState} {L : Ledger}

theorem blocksDown_eq (rep : Represents P s L) : ∀ {blocks : List Block},
    Ledger.Linked P L.tree blocks →
    s.blocksDown P blocks.length (chainTip P blocks).blockHash = some blocks := by
  intro blocks
  induction blocks with
  | nil => exact fun _ => if_pos rep.valid.tip_nil
  | cons block blocks ih =>
      rintro ⟨stored, prev, below⟩
      obtain ⟨pos, read, record⟩ := rep.stored stored
      rw [List.length_cons, ChainState.blocksDown]
      rw [show s.readBlockIndex (chainTip P (block :: blocks)).blockHash = _ from read]
      dsimp only
      rw [show s.mBlockData.recordAt P (BlockData.indexEntry _ _ _ pos).blockPos = _ from record]
      change (s.blocksDown P blocks.length block.header.prevBlockHash).map _ = _
      rw [prev, ih below]
      rfl

/-- What the node reads of its active chain is the chain of the ledger. -/
theorem activeChain_eq (rep : Represents P s L) : s.activeChain P = some L.blocks := by
  have down := rep.blocksDown_eq rep.valid.linked
  rwa [L.length_blocks, ← rep.height, ← Ledger.tip, ← rep.tip] at down

end Represents

/-- **The database is that of the active chain.** After any run of `AcceptBlock`,
`ConnectBlock` and `DisconnectBlock` on a new node, whether its steps succeed or
fail, the coins and the spent leaves are those of applying the active chain,
genesis first, to the empty store. -/
theorem coins_of_active_chain {P : Params} (sound : P.SoundGenesis) (values : P.ValueOutExact)
    {s₀ : ChainState} (opened : ChainState.initializeState P (.ofDisk .empty) = .ok s₀)
    {ops : List ChainOp} (fine : Deliverable P ops) (ids : DistinctIds P (brought ops)) :
    ∃ chain V, (s₀.run P ops).activeChain P = some chain ∧ chainStore P chain = some V ∧
      (∀ outpoint, (s₀.run P ops).getCoin outpoint = V.getCoin outpoint) ∧
      ∀ key, (s₀.run P ops).mUTXOSet.isNoiseLeafSpent key = V.isNoiseLeafSpent key := by
  obtain ⟨rep, moves⟩ := reached sound opened fine
  have came : ∀ b, Given ops b ∨ Direct ops b → b ∈ brought ops := by
    rintro b (⟨now, given⟩ | direct)
    · exact List.mem_filterMap.mpr ⟨_, given, rfl⟩
    · exact List.mem_filterMap.mpr ⟨_, direct, rfl⟩
  have start := (represents_initial sound opened).valid
  have exact := moves.exact values ids came fine.shaped start
  refine ⟨_, _, rep.activeChain_eq, chainStore_eq sound exact.applied, fun o => ?_, fun key => ?_⟩
  · rw [← exact.coins, ← rep.coins, UTXOSet.getCoin_toCoinStore]
    rfl
  · rw [← exact.coins, ← rep.coins, UTXOSet.isNoiseLeafSpent_toCoinStore]

open SmallNetwork in
theorem coins_of_active_chain_reconnected :
    let ops := [.acceptBlock 20 blockOne,
      .disconnectBlock (blockOne.getHash smallNetwork.sha256), .connectBlock blockOne]
    ∃ chain V, (node.run smallNetwork ops).activeChain smallNetwork = some chain ∧
      chainStore smallNetwork chain = some V ∧
      (∀ outpoint, (node.run smallNetwork ops).getCoin outpoint = V.getCoin outpoint) ∧
      ∀ key, (node.run smallNetwork ops).mUTXOSet.isNoiseLeafSpent key =
        V.isNoiseLeafSpent key := by
  intro ops
  have only : ∀ block ∈ brought ops, block = blockOne := by
    rw [show brought ops = [blockOne, blockOne] from rfl]
    simp
  refine coins_of_active_chain soundGenesis_smallNetwork valueOutExact_smallNetwork node_opened
    ⟨?_, ?_⟩ ⟨?_, ?_⟩
  · intro block direct
    rw [only block (List.mem_filterMap.mpr ⟨_, direct, rfl⟩)]
    unfold Block.Shaped Transaction.CoinbaseShape
    decide +kernel
  · intro block direct other mem same
    rw [only block (List.mem_filterMap.mpr ⟨_, direct, rfl⟩)] at same ⊢
    rcases List.mem_cons.mp mem with rfl | mem
    · exact absurd same (by decide +kernel)
    · rw [only other mem]
  · rw [show brought ops = [blockOne, blockOne] from rfl]
    unfold HashInjective
    decide +kernel
  · rintro chain chained
    -- A second block would have to stand on the first.
    rcases chain with _ | ⟨block, _ | ⟨below, rest⟩⟩
    · decide +kernel
    · rw [only block chained.1]
      decide +kernel
    · obtain ⟨mem, prev, memBelow, -⟩ := chained
      rw [chainTip, topBlock, StoredBlock.toTip] at prev
      dsimp only at prev
      rw [only block mem, only below memBelow] at prev
      exact absurd prev (by decide +kernel)

end QmaskCore
