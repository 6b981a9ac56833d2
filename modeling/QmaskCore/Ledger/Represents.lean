import QmaskCore.Ledger.Ledger

/-!
The node's state and the ledger it stands for.

`Represents P s L` relates the two: the index and the files hold the tree, the
undo records are those of the chain, the tip and the height table follow the
chain, and the cached set answers as the coins do. Under it every walk through
the index is a walk along the chain, so what the node asks of a header is
`follows` (`extendsTip_eq`).
-/

namespace QmaskCore

open Ledger (Linked)

/-- The hashes of a chain, genesis last. -/
def tipHashes (P : Params) : List Block → List Bytes32
  | [] => [(chainTip P []).blockHash]
  | block :: blocks => block.getHash P.sha256 :: tipHashes P blocks

@[simp] theorem length_tipHashes (P : Params) (blocks : List Block) :
    (tipHashes P blocks).length = blocks.length + 1 := by
  induction blocks with
  | nil => rfl
  | cons block blocks ih => simp [tipHashes, ih]

theorem getElem?_tipHashes (P : Params) : ∀ (blocks : List Block) (n : Nat), n ≤ blocks.length →
    (tipHashes P blocks)[n]? = some (chainTip P (blocks.drop n)).blockHash := by
  intro blocks
  induction blocks with
  | nil =>
      intro n le
      obtain rfl := Nat.le_zero.mp le
      rfl
  | cons block blocks ih =>
      intro n le
      cases n with
      | zero => rfl
      | succ n => exact ih n (Nat.le_of_succ_le_succ le)

structure Represents (P : Params) (s : ChainState) (L : Ledger) : Prop where
  ready : s.mInitialized = true
  valid : L.Valid P
  tip : s.mBestChain = L.tip P
  stored : ∀ {blockHash st}, L.tree blockHash = some st → ∃ pos,
    s.readBlockIndex blockHash = some (BlockData.indexEntry st.block st.height st.work pos) ∧
      s.mBlockData.recordAt P pos = some st.block
  absent : ∀ {blockHash}, L.tree blockHash = none → s.readBlockIndex blockHash = none
  undo : ∀ c ∈ L.chain, s.mBlockData.disk.db.undo.lookup (c.block.getHash P.sha256) =
    some (undoRecord c.done).serialize
  coins : s.mUTXOSet.toCoinStore = L.coins
  cache : s.mUTXOSet.WF
  table : s.mChainByHeight.length = L.chain.length + 1 →
    s.mChainByHeight = (tipHashes P L.blocks).reverse
  files : s.mBlockData.FilesEnd

/-- A record comes back as a block when its size is that of one. -/
theorem BlockData.readBlock_of_record {P : Params} {d : BlockData} {pos : DiskBlockPos}
    {block : Block} (found : d.recordAt P pos = some block) :
    d.readBlock P pos = if block.Readable P then some block else none := by
  have positive : block.getSerializedSize P ≠ 0 := by
    unfold Block.getSerializedSize BlockHeader.serializedSize
    omega
  rw [readBlock, found]
  by_cases readable : block.Readable P
  · rw [if_pos readable]
    exact if_neg fun bad => bad.elim positive (Nat.not_lt.mpr readable)
  · rw [if_neg readable]
    exact if_pos (.inr (Nat.not_le.mp readable))

namespace Represents

variable {P : Params} {s : ChainState} {L : Ledger}

theorem view (rep : Represents P s L) : s.mUTXOSet.view = L.coins.view := by
  rw [← rep.coins, UTXOSet.view_toCoinStore]

theorem height (rep : Represents P s L) : s.mBestChain.height = L.chain.length := by
  rw [rep.tip, Ledger.tip, height_chainTip, Ledger.length_blocks]

/-- The entry of the top of a part of the chain. -/
theorem readTop (rep : Represents P s L) {blocks : List Block} (linked : Linked P L.tree blocks) :
    ∃ pos, s.readBlockIndex (chainTip P blocks).blockHash =
      some (BlockData.indexEntry (topBlock P blocks).block (topBlock P blocks).height
        (topBlock P blocks).work pos) := by
  obtain ⟨pos, read, -⟩ := rep.stored (linked.top rep.valid.genesisHash rep.valid.genesis)
  exact ⟨pos, read⟩

/-- Walking the index is walking the chain. -/
theorem ancestor_eq (rep : Represents P s L) : ∀ {n : Nat} {blocks : List Block},
    Linked P L.tree blocks → n ≤ blocks.length →
    s.ancestor n (chainTip P blocks).blockHash = some (chainTip P (blocks.drop n)).blockHash := by
  intro n
  induction n with
  | zero => exact fun _ _ => rfl
  | succ n ih =>
      intro blocks linked le
      obtain ⟨pos, read⟩ := rep.readTop linked
      rw [ChainState.ancestor, read]
      cases blocks with
      | nil => simp at le
      | cons block blocks =>
          obtain ⟨-, prev, below⟩ := linked
          refine Eq.trans ?_ (ih below (Nat.le_of_succ_le_succ le))
          exact congrArg (s.ancestor n) prev

theorem getBlockHashByHeight_eq (rep : Represents P s L) {height : Nat}
    (le : height ≤ L.chain.length) : s.getBlockHashByHeightLocked height =
      some (chainTip P (L.blocks.drop (L.chain.length - height))).blockHash := by
  have whole := L.length_blocks
  unfold ChainState.getBlockHashByHeightLocked
  rw [rep.ready, rep.height, if_neg (by simp), if_neg (Nat.not_lt.mpr le)]
  split
  · rename_i top
    rw [top, Nat.sub_self, rep.tip]
    rfl
  · split
    · rename_i inTable
      obtain ⟨short, full⟩ := inTable
      rw [rep.table full, List.getElem?_reverse (by rw [length_tipHashes]; omega),
        length_tipHashes, ← getElem?_tipHashes P _ _ (by omega)]
      congr 1
      omega
    · rw [rep.tip]
      exact rep.ancestor_eq rep.valid.linked (by omega)

theorem timesFrom_eq (rep : Represents P s L) : ∀ {n : Nat} {blocks : List Block},
    Linked P L.tree blocks →
    s.timesFrom n (chainTip P blocks).blockHash = pastTimes P n blocks := by
  intro n
  induction n with
  | zero => exact fun _ => rfl
  | succ n ih =>
      intro blocks linked
      obtain ⟨pos, read⟩ := rep.readTop linked
      rw [ChainState.timesFrom, read]
      cases blocks with
      | nil =>
          have last : (topBlock P []).block.header.prevBlockHash = 0 := rep.valid.sound.header.1
          dsimp only [BlockData.indexEntry]
          rw [if_pos last]
          rfl
      | cons block blocks =>
          obtain ⟨-, prev, below⟩ := linked
          dsimp only [BlockData.indexEntry, topBlock, pastTimes]
          split
          · rfl
          · rw [prev, ih below]

theorem expectedBits_eq (rep : Represents P s L) :
    s.getExpectedBitsLocked P (s.mBestChain.height + 1) = nextBits P L.blocks := by
  have height : (chainTip P L.blocks).height = L.chain.length := by simp
  unfold ChainState.getExpectedBitsLocked nextBits
  rw [rep.tip, Ledger.tip]
  dsimp only
  rw [height]
  split
  · rfl
  · split
    · rfl
    · by_cases short : L.chain.length + 1 < P.difficultyAdjustmentInterval.toNat
      · rw [if_pos short, if_pos (.inl short)]
      · rw [if_neg short]
        by_cases none : P.difficultyAdjustmentInterval.toNat = 0
        · -- The height asked for lies above the tip, so there is no such block.
          have above : s.getBlockHashByHeightLocked
              (L.chain.length + 1 - P.difficultyAdjustmentInterval.toNat) = Option.none := by
            unfold ChainState.getBlockHashByHeightLocked
            rw [rep.ready, rep.height, if_neg (by simp), if_pos (by omega)]
          rw [above, if_pos (.inr none)]
        · have back : L.chain.length -
              (L.chain.length + 1 - P.difficultyAdjustmentInterval.toNat) =
              P.difficultyAdjustmentInterval.toNat - 1 := by omega
          obtain ⟨pos, read⟩ := rep.readTop
            (rep.valid.linked.drop (P.difficultyAdjustmentInterval.toNat - 1))
          rw [rep.getBlockHashByHeight_eq (by omega), back, if_neg (by tauto)]
          dsimp only
          rw [read]
          rfl

/-- What the node asks of a header is what extending the chain takes. -/
theorem extendsTip_eq (rep : Represents P s L) (block : Block) :
    s.extendsTip P block = follows P L.blocks block := by
  have bits := rep.expectedBits_eq
  have times : s.getMedianTimePastLocked P s.mBestChain.blockHash =
      ChainState.medianTime P (pastTimes P ChainState.medianTimeSpan L.blocks) := by
    rw [ChainState.getMedianTimePastLocked, rep.tip]
    exact congrArg (ChainState.medianTime P) (rep.timesFrom_eq rep.valid.linked)
  have prev : (if s.mBestChain.height = 0 then P.genesisHash else s.mBestChain.blockHash) =
      (chainTip P L.blocks).blockHash := by
    rw [rep.height, rep.tip]
    split
    · rename_i bottom
      have none : L.blocks = [] := by rw [← List.length_eq_zero_iff, L.length_blocks, bottom]
      rw [none, rep.valid.tip_nil]
    · rfl
  unfold ChainState.extendsTip follows
  dsimp only
  rw [bits, times, ← prev, rep.height, height_chainTip, L.length_blocks]
  split <;> rfl

theorem onChainFrom_eq (rep : Represents P s L) (blockHash : Bytes32) :
    ∀ {blocks : List Block}, Linked P L.tree blocks →
    s.onChainFrom blockHash blocks.length (chainTip P blocks).blockHash =
      blocks.any fun block => block.getHash P.sha256 = blockHash := by
  intro blocks
  induction blocks with
  | nil => exact fun _ => rfl
  | cons block blocks ih =>
      intro linked
      obtain ⟨pos, read⟩ := rep.readTop linked
      obtain ⟨-, prev, below⟩ := linked
      rw [List.length_cons, ChainState.onChainFrom, read, List.any_cons]
      change (if block.getHash P.sha256 = blockHash then true
        else s.onChainFrom blockHash blocks.length block.header.prevBlockHash) = _
      rw [prev, ih below]
      by_cases here : block.getHash P.sha256 = blockHash <;> simp [here]

theorem isOnActiveChain_eq (rep : Represents P s L) (blockHash : Bytes32) :
    s.isOnActiveChainLocked blockHash = L.onChain P blockHash := by
  rw [ChainState.isOnActiveChainLocked, rep.height, rep.tip, ← L.length_blocks]
  exact rep.onChainFrom_eq blockHash rep.valid.linked

theorem hasBlock_eq (rep : Represents P s L) (blockHash : Bytes32) :
    s.mBlockData.hasBlock blockHash = (L.tree blockHash).isSome := by
  change (s.readBlockIndex blockHash).isSome = _
  cases stored : L.tree blockHash with
  | none => rw [rep.absent stored]; rfl
  | some st =>
      obtain ⟨pos, read, -⟩ := rep.stored stored
      rw [read]
      rfl

theorem lastCheckpointHeight_eq (rep : Represents P s L) :
    s.lastCheckpointHeight P = L.lastCheckpointHeight P := by
  unfold ChainState.lastCheckpointHeight Ledger.lastCheckpointHeight
  congr 1
  funext checkpoint
  cases stored : L.tree checkpoint.blockHash with
  | none => rw [rep.absent stored]; rfl
  | some st =>
      obtain ⟨pos, read, -⟩ := rep.stored stored
      rw [read]
      rfl

end Represents

end QmaskCore
