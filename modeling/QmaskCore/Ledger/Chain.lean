import QmaskCore.Storage.ChainState

/-!
The active chain as a list of blocks.

A chain lists its blocks above genesis, the tip first. From it follow the tip
the node reports (`chainTip`), the times behind the tip and the target the next
block must carry; `follows` is everything the node asks of a header before it
connects the block. None of it looks at a database.
-/

namespace QmaskCore

/-- The genesis block a network starts from: it passes the network's own check
and holds a coinbase and nothing else. -/
structure Params.SoundGenesis (P : Params) : Prop where
  nonzero : P.genesisHash ≠ 0
  checked : BlockValidation.checkGenesisBlock P P.buildGenesisBlock = .ok ()
  single : P.buildGenesisBlock.payments = []

theorem Params.SoundGenesis.header {P : Params} (sound : P.SoundGenesis) :
    P.buildGenesisBlock.header.prevBlockHash = 0 ∧ P.buildGenesisBlock.header.height = 0 := by
  have checked := sound.checked
  unfold BlockValidation.checkGenesisBlock at checked
  split at checked
  · cases checked
  · simp only [Checks.bind_eq_ok, Checks.rejectIf_eq_ok, Checks.exists_unit_iff, not_not] at checked
    exact ⟨checked.2.2.1, checked.2.1⟩

/-- A block in the tree: its height and the work of the chain up to it. -/
@[ext]
structure StoredBlock where
  block : Block
  height : Nat
  work : Bytes32

def StoredBlock.toTip (P : Params) (st : StoredBlock) : ChainTip where
  blockHash := st.block.getHash P.sha256
  height := st.height
  timestamp := st.block.header.timestamp
  bits := st.block.header.bits
  chainWork := st.work

/-- The last block of a chain, with its height and work. -/
def topBlock (P : Params) : List Block → StoredBlock
  | [] => ⟨P.buildGenesisBlock, 0, P.addChainWork 0 P.buildGenesisBlock.header.bits⟩
  | block :: blocks =>
      ⟨block, blocks.length + 1, P.addChainWork (topBlock P blocks).work block.header.bits⟩

def chainTip (P : Params) (blocks : List Block) : ChainTip := (topBlock P blocks).toTip P

@[simp] theorem height_topBlock (P : Params) (blocks : List Block) :
    (topBlock P blocks).height = blocks.length := by
  cases blocks <;> rfl

@[simp] theorem height_chainTip (P : Params) (blocks : List Block) :
    (chainTip P blocks).height = blocks.length :=
  height_topBlock P blocks

/-- The times of up to `n` blocks, the tip's first. -/
def pastTimes (P : Params) : Nat → List Block → List UInt64
  | 0, _ => []
  | _ + 1, [] => [P.buildGenesisBlock.header.timestamp]
  | n + 1, block :: blocks =>
      block.header.timestamp ::
        if block.header.prevBlockHash = 0 then [] else pastTimes P n blocks

/-- The target the next block must carry. -/
def nextBits (P : Params) (blocks : List Block) : UInt32 :=
  let tip := chainTip P blocks
  let interval := P.difficultyAdjustmentInterval.toNat
  if tip.height = 0 ∨ tip.bits = 0 then P.powLimitCompact
  else if P.isRetargetHeight (UInt64.ofNat (tip.height + 1)) = false then tip.bits
  else if tip.height + 1 < interval ∨ interval = 0 then tip.bits
  else
    P.calculateNextWorkRequired tip.bits tip.timestamp
      (chainTip P (blocks.drop (interval - 1))).timestamp

/-- Everything asked of the header of a block that is to extend a chain. -/
def follows (P : Params) (blocks : List Block) (block : Block) : Bool :=
  let tip := chainTip P blocks
  block.header.height.toNat = tip.height + 1 &&
    block.header.prevBlockHash = tip.blockHash &&
    (tip.height = 0 ||
      ChainState.medianTime P (pastTimes P ChainState.medianTimeSpan blocks) <
        block.header.timestamp) &&
    block.header.bits = nextBits P blocks &&
    P.checkProofOfWork (block.getHash P.sha256) block.header.bits

theorem height_of_follows {P : Params} {blocks : List Block} {block : Block}
    (next : follows P blocks block = true) :
    block.header.height.toNat = blocks.length + 1 ∧
      block.header.prevBlockHash = (chainTip P blocks).blockHash := by
  simp only [follows, Bool.and_eq_true, decide_eq_true_eq, height_chainTip] at next
  exact ⟨next.1.1.1.1, next.1.1.1.2⟩

end QmaskCore
