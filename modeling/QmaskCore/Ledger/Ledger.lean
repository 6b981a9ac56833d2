import QmaskCore.Ledger.Backing

/-!
The ledger: what a node keeps, without its databases.

A `Ledger` is the tree of blocks that are stored, the chain that is active and
the coins of that chain. Its operations say what the node's do to these three:
a block is stored, connected on top of the chain or disconnected from it, a
branch replaces the blocks above its fork. `Ledger.Valid` is what every
operation keeps; `Valid.connect` and `Valid.disconnect` are its step lemmas.
-/

namespace QmaskCore

structure Ledger where
  tree : Bytes32 → Option StoredBlock
  /-- The blocks above genesis, the tip first. -/
  chain : List Connected
  coins : CoinStore

/-- A block the size rule lets back from disk. -/
def Block.Readable (P : Params) (block : Block) : Prop :=
  block.getSerializedSize P ≤ P.maxBlockSize.toNat

instance (P : Params) (block : Block) : Decidable (block.Readable P) :=
  inferInstanceAs (Decidable (_ ≤ _))

namespace Ledger

def blocks (L : Ledger) : List Block := L.chain.map (·.block)

def tip (P : Params) (L : Ledger) : ChainTip := chainTip P L.blocks

def put (L : Ledger) (P : Params) (st : StoredBlock) : Ledger :=
  { L with tree := Function.update L.tree (st.block.getHash P.sha256) (some st) }

/-! ### One block -/

def connect (P : Params) (block : Block) (L : Ledger) : Bool × Ledger :=
  let height := nextHeight L.chain
  if follows P L.blocks block = false then (false, L)
  else
    match applyBlockTwoPhase P block height L.coins with
    | (none, V) => (false, { L with coins := V })
    | (some _, V) =>
        (true, { L.put P (topBlock P (block :: L.blocks)) with
          chain := ⟨block, block.paid P height L.coins⟩ :: L.chain
          coins := V })

/-- The tip is taken back; a tip that cannot be read stays. -/
def disconnect (P : Params) (L : Ledger) : Bool × Ledger :=
  match L.chain with
  | [] => (false, L)
  | c :: rest =>
      if c.block.Readable P then
        (true, { L with
          chain := rest
          coins := L.coins.undoneAll (c.block.coinbaseDone ++ c.done) })
      else (false, L)

/-! ### Branches -/

def onChain (P : Params) (L : Ledger) (blockHash : Bytes32) : Bool :=
  L.blocks.any fun block => block.getHash P.sha256 = blockHash

/-- The stored blocks from one down to the chain, the newest first, and the
block of the chain they stand on, `none` for genesis. -/
def branch (P : Params) (L : Ledger) : Nat → Bytes32 → Option (List Bytes32 × Option Bytes32)
  | 0, _ => none
  | fuel + 1, cursor =>
      match L.tree cursor with
      | none => none
      | some st =>
          if L.onChain P cursor then some ([], some cursor)
          else if st.block.header.prevBlockHash = P.genesisHash then some ([cursor], none)
          else
            match L.branch P fuel st.block.header.prevBlockHash with
            | none => none
            | some (below, fork) => some (cursor :: below, fork)

def atFork (P : Params) (fork : Option Bytes32) (L : Ledger) : Bool :=
  match fork with
  | none => L.chain.isEmpty
  | some forkHash => (L.tip P).blockHash = forkHash

def disconnectToFork (P : Params) (fork : Option Bytes32) : Nat → Ledger → Bool × Ledger
  | 0, L => (false, L)
  | fuel + 1, L =>
      if L.atFork P fork then (true, L)
      else
        match L.disconnect P with
        | (false, L) => (false, L)
        | (true, L) => disconnectToFork P fork fuel L

def rollback (P : Params) : List Bytes32 → Ledger → Ledger
  | [], L => L
  | _ :: connected, L =>
      match L.disconnect P with
      | (false, L) => L
      | (true, L) => rollback P connected L

def connectBranch (P : Params) : List Bytes32 → List Bytes32 → Ledger → Bool × Ledger
  | [], _, L => (true, L)
  | blockHash :: branch, connected, L =>
      match L.tree blockHash with
      | none => (false, L.rollback P connected)
      | some st =>
          if st.block.Readable P then
            match L.connect P st.block with
            | (false, L) => (false, L.rollback P connected)
            | (true, L) => connectBranch P branch (blockHash :: connected) L
          else (false, L.rollback P connected)

def branchFuel (L : Ledger) (newTip : Bytes32) : Nat :=
  match L.tree newTip with
  | none => 1
  | some st => st.height + 1

def activate (P : Params) (newTip : Bytes32) (L : Ledger) : Bool × Ledger :=
  match L.branch P (L.branchFuel newTip) newTip with
  | none => (false, L)
  | some (branch, fork) =>
      match L.disconnectToFork P fork (L.chain.length + 1) with
      | (false, L) => (false, L)
      | (true, L) => L.connectBranch P branch.reverse []

/-! ### A block arrives -/

def lastCheckpointHeight (P : Params) (L : Ledger) : Option Nat :=
  P.checkpoints.reverse.findSome? fun checkpoint => (L.tree checkpoint.blockHash).map (·.height)

def admits (P : Params) (now : UInt64) (block : Block) (parent : StoredBlock) (L : Ledger) : Bool :=
  let height := parent.height + 1
  block.header.height.toNat = height &&
    P.checkProofOfWork (block.getHash P.sha256) block.header.bits &&
    !(L.lastCheckpointHeight P).any (height < ·) &&
    BlockValidation.validateBlock P now L.coins.view (UInt32.ofNat height) block = .ok ()

/-- A block on top of a stored one. -/
def childOf (P : Params) (parent : StoredBlock) (block : Block) : StoredBlock :=
  ⟨block, parent.height + 1, P.addChainWork parent.work block.header.bits⟩

def accept (P : Params) (now : UInt64) (block : Block) (L : Ledger) : Bool × Ledger :=
  if (L.tree (block.getHash P.sha256)).isSome then (true, L)
  else
    match L.tree block.header.prevBlockHash with
    | none => (false, L)
    | some parent =>
        if L.admits P now block parent = false then (false, L)
        else
          let st := childOf P parent block
          if P.compareWork st.work (L.tip P).chainWork ≤ 0 then (true, L.put P st)
          else (L.put P st).activate P (block.getHash P.sha256)

def disconnectBlock (P : Params) (blockHash : Bytes32) (L : Ledger) : Bool × Ledger :=
  if blockHash ≠ (L.tip P).blockHash then (false, L) else L.disconnect P

/-! ### What every operation keeps -/

/-- The blocks of a chain are in the tree, each on the one below. -/
def Linked (P : Params) (tree : Bytes32 → Option StoredBlock) : List Block → Prop
  | [] => True
  | block :: blocks =>
      tree (block.getHash P.sha256) = some (topBlock P (block :: blocks)) ∧
        block.header.prevBlockHash = (chainTip P blocks).blockHash ∧ Linked P tree blocks

/-- A block of the tree is under its own hash and, above genesis, on a parent
from which its height and work follow. -/
structure Planted (P : Params) (tree : Bytes32 → Option StoredBlock) (blockHash : Bytes32)
    (st : StoredBlock) : Prop where
  keyed : st.block.getHash P.sha256 = blockHash
  grown : blockHash ≠ P.genesisHash → ∃ parent,
    tree st.block.header.prevBlockHash = some parent ∧ st = childOf P parent st.block ∧
      st.block.header.height.toNat = st.height ∧ st.block.Shaped

structure Valid (P : Params) (L : Ledger) : Prop where
  sound : P.SoundGenesis
  genesisHash : P.buildGenesisBlock.getHash P.sha256 = P.genesisHash
  genesis : L.tree P.genesisHash = some (topBlock P [])
  planted : ∀ {blockHash st}, L.tree blockHash = some st → Planted P L.tree blockHash st
  linked : Linked P L.tree L.blocks
  backed : Backed P L.chain L.coins

/-- Whatever the tree holds under the hash of a block has the header of the block. -/
def Agrees (P : Params) (L : Ledger) (block : Block) : Prop :=
  ∀ st, L.tree (block.getHash P.sha256) = some st → st.block.header = block.header

section

variable {P : Params} {L : Ledger}

@[simp] theorem blocks_put (L : Ledger) (P : Params) (st : StoredBlock) :
    (L.put P st).blocks = L.blocks := rfl

@[simp] theorem tip_put (L : Ledger) (P : Params) (st : StoredBlock) :
    (L.put P st).tip P = L.tip P := rfl

@[simp] theorem length_blocks (L : Ledger) : L.blocks.length = L.chain.length := by
  simp [blocks]

theorem tree_put (L : Ledger) (P : Params) (st : StoredBlock) (blockHash : Bytes32) :
    (L.put P st).tree blockHash =
      if blockHash = st.block.getHash P.sha256 then some st else L.tree blockHash := by
  simp only [put, Function.update_apply]

/-- The top of every part of the chain is found in the tree. -/
theorem Linked.top {tree : Bytes32 → Option StoredBlock} {blocks : List Block}
    (genesisHash : P.buildGenesisBlock.getHash P.sha256 = P.genesisHash)
    (genesis : tree P.genesisHash = some (topBlock P [])) (linked : Linked P tree blocks) :
    tree (chainTip P blocks).blockHash = some (topBlock P blocks) := by
  cases blocks with
  | nil =>
      change tree (P.buildGenesisBlock.getHash P.sha256) = _
      rw [genesisHash, genesis]
  | cons block blocks => exact linked.1

theorem Linked.drop {tree : Bytes32 → Option StoredBlock} : ∀ {blocks : List Block},
    Linked P tree blocks → ∀ n, Linked P tree (blocks.drop n) := by
  intro blocks
  induction blocks with
  | nil => exact fun linked n => by simpa
  | cons block blocks ih =>
      intro linked n
      cases n with
      | zero => exact linked
      | succ n => exact ih linked.2.2 n

namespace Valid

theorem tree_tip (valid : L.Valid P) : L.tree (L.tip P).blockHash = some (topBlock P L.blocks) :=
  valid.linked.top valid.genesisHash valid.genesis

theorem tip_nil (valid : L.Valid P) : (chainTip P []).blockHash = P.genesisHash := valid.genesisHash

theorem height_of_tree (valid : L.Valid P) {blockHash : Bytes32} {st : StoredBlock}
    (stored : L.tree blockHash = some st) : st.block.header.height.toNat = st.height := by
  by_cases genesis : blockHash = P.genesisHash
  · rw [genesis, valid.genesis] at stored
    cases stored
    change P.buildGenesisBlock.header.height.toNat = 0
    rw [valid.sound.header.2]
    rfl
  · obtain ⟨_, -, -, height, -⟩ := (valid.planted stored).grown genesis
    exact height

/-- A block above genesis is not genesis. -/
theorem height_eq_zero (valid : L.Valid P) {blockHash : Bytes32} {st : StoredBlock}
    (stored : L.tree blockHash = some st) : st.height = 0 ↔ blockHash = P.genesisHash := by
  constructor
  · intro zero
    by_contra other
    obtain ⟨parent, -, grown, -⟩ := (valid.planted stored).grown other
    rw [grown] at zero
    cases zero
  · rintro rfl
    rw [valid.genesis] at stored
    cases stored
    rfl

end Valid

theorem Linked.put {new : StoredBlock} : ∀ {blocks : List Block}, Linked P L.tree blocks →
    (∀ block ∈ blocks, block.getHash P.sha256 ≠ new.block.getHash P.sha256) →
    Linked P (L.put P new).tree blocks := by
  intro blocks
  induction blocks with
  | nil => exact fun _ _ => trivial
  | cons block blocks ih =>
      rintro ⟨stored, prev, linked⟩ apart
      refine ⟨?_, prev, ih linked fun b mem => apart b (List.mem_cons_of_mem _ mem)⟩
      rw [tree_put, if_neg (apart block List.mem_cons_self), stored]

/-- A chain's blocks lie at the heights below its length. -/
theorem Linked.height_le {tree : Bytes32 → Option StoredBlock} : ∀ {blocks : List Block},
    Linked P tree blocks → ∀ block ∈ blocks, ∃ st, tree (block.getHash P.sha256) = some st ∧
      st.block = block ∧ 0 < st.height ∧ st.height ≤ blocks.length := by
  intro blocks
  induction blocks with
  | nil => simp
  | cons block blocks ih =>
      rintro ⟨stored, -, linked⟩ b mem
      rcases List.mem_cons.mp mem with rfl | mem
      · refine ⟨_, stored, rfl, ?_⟩
        rw [height_topBlock, List.length_cons]
        omega
      · obtain ⟨st, stored, same, positive, le⟩ := ih linked b mem
        exact ⟨st, stored, same, positive, by rw [List.length_cons]; omega⟩

namespace Valid

/-- A block joins the tree on top of its parent, or comes again in another body
at the height and with the work it had. -/
theorem put (valid : L.Valid P) {new parent : StoredBlock}
    (found : L.tree new.block.header.prevBlockHash = some parent)
    (grown : new = childOf P parent new.block)
    (height : new.block.header.height.toNat = new.height)
    (shape : new.block.Shaped)
    (agrees : ∀ old, L.tree (new.block.getHash P.sha256) = some old →
      old.height = new.height ∧ old.work = new.work)
    (apart : ∀ block ∈ L.blocks, block.getHash P.sha256 ≠ new.block.getHash P.sha256) :
    (L.put P new).Valid P where
  sound := valid.sound
  genesisHash := valid.genesisHash
  genesis := by
    rw [tree_put, if_neg, valid.genesis]
    intro same
    have low := (agrees _ (same ▸ valid.genesis)).1
    rw [grown] at low
    cases low
  planted := by
    -- The parent of any block is found again, with the height and work it had.
    have parents {prev : Bytes32} {p : StoredBlock} (stored : L.tree prev = some p) :
        ∃ p', (L.put P new).tree prev = some p' ∧ p'.height = p.height ∧ p'.work = p.work := by
      rw [tree_put]
      split
      · rename_i same
        obtain ⟨height, work⟩ := agrees p (same ▸ stored)
        exact ⟨new, rfl, height.symm, work.symm⟩
      · exact ⟨p, stored, rfl, rfl⟩
    intro blockHash st stored
    rw [tree_put] at stored
    split at stored
    · rename_i same
      cases stored
      refine ⟨same.symm, fun _ => ?_⟩
      obtain ⟨p', stored', height', work'⟩ := parents found
      refine ⟨p', stored', ?_, height, shape⟩
      rw [grown, childOf, childOf, height', work']
    · have planted := valid.planted stored
      refine ⟨planted.keyed, fun above => ?_⟩
      obtain ⟨p, found, grown, rest⟩ := planted.grown above
      obtain ⟨p', stored', height', work'⟩ := parents found
      refine ⟨p', stored', ?_, rest⟩
      rw [grown, childOf, childOf, height', work']
  linked := valid.linked.put apart
  backed := valid.backed

/-- A block that is new joins the tree. -/
theorem store (valid : L.Valid P) {block : Block} {parent : StoredBlock}
    (new : L.tree (block.getHash P.sha256) = none)
    (found : L.tree block.header.prevBlockHash = some parent)
    (height : block.header.height.toNat = parent.height + 1)
    (shape : block.Shaped) :
    (L.put P (childOf P parent block)).Valid P := by
  refine valid.put found rfl height shape (fun old stored => ?_) fun b mem same => ?_
  · cases new.symm.trans stored
  · obtain ⟨st, stored, -⟩ := valid.linked.height_le b mem
    rw [same] at stored
    cases new.symm.trans stored

/-- What the tree holds under the hash of a block that follows the tip is that
block, at the height above the tip. -/
theorem known_top (valid : L.Valid P) {block : Block} (agrees : L.Agrees P block)
    (next : follows P L.blocks block = true) {old : StoredBlock}
    (stored : L.tree (block.getHash P.sha256) = some old) :
    old.height = L.blocks.length + 1 ∧ old.work = (topBlock P (block :: L.blocks)).work := by
  obtain ⟨height, prev⟩ := height_of_follows next
  have same := agrees old stored
  have level := valid.height_of_tree stored
  rw [same, height] at level
  refine ⟨level.symm, ?_⟩
  have above : block.getHash P.sha256 ≠ P.genesisHash := by
    intro genesis
    have zero := (valid.height_eq_zero stored).mpr genesis
    omega
  obtain ⟨parent, stored', grown', -⟩ := (valid.planted stored).grown above
  rw [same, prev] at stored'
  cases valid.tree_tip.symm.trans stored'
  rw [grown', childOf, same, topBlock]

/-- A block that follows the tip is not one of the chain. -/
theorem apart (valid : L.Valid P) {block : Block} (agrees : L.Agrees P block)
    (next : follows P L.blocks block = true) :
    ∀ b ∈ L.blocks, b.getHash P.sha256 ≠ block.getHash P.sha256 := by
  intro b mem same
  obtain ⟨st, stored, -, -, le⟩ := valid.linked.height_le b mem
  rw [same] at stored
  have level := (valid.known_top agrees next stored).1
  omega

/-- A block that follows the tip is put on top of it. -/
theorem putTop (valid : L.Valid P) {block : Block} (agrees : L.Agrees P block)
    (next : follows P L.blocks block = true) (shape : block.Shaped) :
    (L.put P (topBlock P (block :: L.blocks))).Valid P := by
  obtain ⟨height, prev⟩ := height_of_follows next
  have found : L.tree block.header.prevBlockHash = some (topBlock P L.blocks) := by
    rw [prev]
    exact valid.tree_tip
  have grown : topBlock P (block :: L.blocks) = childOf P (topBlock P L.blocks) block := by
    simp [topBlock, childOf]
  exact valid.put found grown (by rw [height_topBlock]; exact height) shape
    (fun _ stored => by simpa using valid.known_top agrees next stored) (valid.apart agrees next)

/-- Only payments of a coinbase's shape are coinbases, in every stored block. -/
theorem shape (valid : L.Valid P) {blockHash : Bytes32} {st : StoredBlock}
    (stored : L.tree blockHash = some st) : st.block.Shaped := by
  by_cases genesis : blockHash = P.genesisHash
  · rw [genesis, valid.genesis] at stored
    cases stored
    change ∀ tx ∈ P.buildGenesisBlock.payments, _
    simp [valid.sound.single]
  · obtain ⟨_, -, -, -, shape⟩ := (valid.planted stored).grown genesis
    exact shape

/-- A stored block agrees with the tree. -/
theorem agrees (valid : L.Valid P) {blockHash : Bytes32} {st : StoredBlock}
    (stored : L.tree blockHash = some st) : L.Agrees P st.block := by
  intro other found
  rw [(valid.planted stored).keyed, stored] at found
  cases found
  rfl

/-- One block connected. -/
theorem connect (valid : L.Valid P) {block : Block} (agrees : L.Agrees P block)
    (shape : block.Shaped) : (L.connect P block).2.Valid P := by
  rw [Ledger.connect]
  split
  · exact valid
  · rename_i next
    have next : follows P L.blocks block = true := by simpa using next
    have top := valid.putTop agrees next shape
    rcases applyBlockTwoPhase_eq valid.backed.nullFree shape with ⟨applies, ran⟩ | ⟨attempts, ran⟩
    · rw [ran]
      refine ⟨top.sound, top.genesisHash, top.genesis, top.planted, ⟨?_, ?_, top.linked⟩,
        valid.backed.connect applies⟩
      · rw [tree_put]
        exact if_pos rfl
      · exact (height_of_follows next).2
    · rw [ran]
      exact ⟨valid.sound, valid.genesisHash, valid.genesis, valid.planted, valid.linked,
        valid.backed.refuse attempts.pays.revertibleAll⟩

/-- One block disconnected. -/
theorem disconnect (valid : L.Valid P) : (L.disconnect P).2.Valid P := by
  have backed := valid.backed
  have linked := valid.linked
  rw [Ledger.disconnect]
  unfold blocks at linked
  split
  · exact valid
  · rename_i c rest chain
    rw [chain] at backed linked
    split
    · exact ⟨valid.sound, valid.genesisHash, valid.genesis, valid.planted, linked.2.2,
        backed.disconnect⟩
    · exact valid

end Valid

end

end Ledger

end QmaskCore
