import QmaskCore.Ledger.Overwrites
import QmaskCore.Ledger.Reopened

/-!
The header rules along the active chain.

The node asks for the bits of the next block from its tip and its height table,
both of which change while a branch is activated. `ChainState.Ruled` says the
same of every active block from the block's own ancestors: its bits, its time
and its work. A ledger keeps that each of its blocks followed the ones below
(`Move.followed`), and under `Represents` this is `Ruled`. In every state the
node asks for bits in, the table and the index answer
(`Represents.not_keepsTarget`).
-/

namespace QmaskCore

namespace ChainState

/-! ### The rules -/

/-- The bits the difficulty rule gives the block on top of a parent, from the
parent and the blocks behind it. -/
def bitsAfter (P : Params) (s : ChainState) (parentHash : Bytes32) (parent : BlockIndexEntry) :
    Option UInt32 :=
  let interval := P.difficultyAdjustmentInterval.toNat
  if parent.nHeight = 0 ∨ parent.nBits = 0 then some P.powLimitCompact
  else if P.isRetargetHeight (UInt64.ofNat (parent.nHeight + 1)) = false ∨
      parent.nHeight + 1 < interval then
    some parent.nBits
  else
    ((s.ancestor (interval - 1) parentHash).bind s.readBlockIndex).map fun first =>
      P.calculateNextWorkRequired parent.nBits parent.nTime first.nTime

/-- A stored block, its entry and that of its parent, as the rules have them. -/
structure RuledBlock (P : Params) (s : ChainState) (blockHash : Bytes32) (block : Block)
    (entry parent : BlockIndexEntry) : Prop where
  read : s.readBlockIndex blockHash = some entry
  record : s.mBlockData.recordAt P entry.blockPos = some block
  hash : block.getHash P.sha256 = blockHash
  sameTime : entry.nTime = block.header.timestamp
  sameBits : entry.nBits = block.header.bits
  readParent : s.readBlockIndex block.header.prevBlockHash = some parent
  height : entry.nHeight = parent.nHeight + 1
  bits : s.bitsAfter P block.header.prevBlockHash parent = some block.header.bits
  time : 2 ≤ entry.nHeight →
    s.getMedianTimePastLocked P block.header.prevBlockHash < block.header.timestamp
  work : entry.nChainWork = P.addChainWork parent.nChainWork block.header.bits

/-- The tip is what its entry says, and every active block above genesis obeys the rules. -/
structure Ruled (P : Params) (s : ChainState) : Prop where
  tip : ∃ entry, s.readBlockIndex s.mBestChain.blockHash = some entry ∧
    s.mBestChain = ⟨s.mBestChain.blockHash, entry.nHeight, entry.nTime, entry.nBits,
      entry.nChainWork⟩
  blocks : ∀ n < s.mBestChain.height, ∃ blockHash block entry parent,
    s.ancestor n s.mBestChain.blockHash = some blockHash ∧
      entry.nHeight + n = s.mBestChain.height ∧ s.RuledBlock P blockHash block entry parent

/-- `GetExpectedBitsLocked` wants the block an interval back and cannot find it
or its entry, and keeps the current target instead. -/
def KeepsTarget (P : Params) (s : ChainState) (height : Nat) : Prop :=
  ¬ (s.mBestChain.height = 0 ∨ s.mBestChain.bits = 0) ∧
    P.isRetargetHeight (UInt64.ofNat height) = true ∧
    P.difficultyAdjustmentInterval.toNat ≤ s.mBestChain.height + 1 ∧
    (s.getBlockHashByHeightLocked
      (s.mBestChain.height + 1 - P.difficultyAdjustmentInterval.toNat)).bind s.readBlockIndex = none

/-! ### Where the node asks for bits -/

/-- The states one call asks for bits in. -/
def stepCalls (P : Params) (s : ChainState) : ChainOp → List ChainState
  | .acceptBlock now block => (s.connectCalls P now block).map (·.1)
  | .connectBlock _ => [s]
  | .disconnectBlock _ => []

/-- The states a life asks for bits in: those of its calls, and every state
between two of them, where `GetNextBits` may come. -/
def lifeCalls (P : Params) : List NodeOp → ChainState → List ChainState
  | [], s => [s]
  | op :: ops, s =>
      s :: (calls [op]).flatMap (s.stepCalls P) ++
        match s.turn P op with
        | .ok s => lifeCalls P ops s
        | .error _ => []

end ChainState

/-! ### A chain whose blocks followed -/

/-- Each block followed the ones below. -/
def Followed (P : Params) : List Block → Prop
  | [] => True
  | block :: blocks => follows P blocks block = true ∧ Followed P blocks

theorem Followed.drop {P : Params} : ∀ {blocks : List Block}, Followed P blocks → ∀ n,
    Followed P (blocks.drop n) := by
  intro blocks
  induction blocks with
  | nil => exact fun followed n => by simpa
  | cons block blocks ih =>
      intro followed n
      cases n with
      | zero => exact followed
      | succ n => exact ih followed.2 n

namespace Ledger

variable {P : Params} {given direct : Block → Prop} {L L' : Ledger}

/-- Connecting puts a block that follows on top, or leaves the chain alone. -/
theorem followed_connect (block : Block) (followed : Followed P L.blocks) :
    Followed P (L.connect P block).2.blocks := by
  rw [connect]
  dsimp only
  split
  · exact followed
  · rename_i next
    rcases applyBlockTwoPhase P block (nextHeight L.chain) L.coins with ⟨_ | _, V⟩
    · exact followed
    · have next : follows P L.blocks block = true := by simpa using next
      exact ⟨next, followed⟩

theorem followed_disconnect (followed : Followed P L.blocks) :
    Followed P (L.disconnect P).2.blocks := by
  rw [disconnect]
  split
  · exact followed
  · rename_i c rest chain
    split
    · rw [blocks, chain] at followed
      exact followed.2
    · exact followed

theorem Move.followed (move : Move P given direct L L') (followed : Followed P L.blocks) :
    Followed P L'.blocks := by
  cases move with
  | store _ _ _ _ => exact followed
  | connect _ => exact followed_connect _ followed
  | connectDirect _ _ => exact followed_connect _ followed
  | disconnect => exact followed_disconnect followed

end Ledger

/-! ### The rules in a state -/

namespace Represents

variable {P : Params} {s : ChainState} {L : Ledger}

/-- In a state that stands for a ledger the block an interval back is found. -/
theorem not_keepsTarget (rep : Represents P s L)
    (interval : P.difficultyAdjustmentInterval ≠ 0) :
    ¬ s.KeepsTarget P (s.mBestChain.height + 1) := by
  rintro ⟨-, -, far, lost⟩
  have positive : P.difficultyAdjustmentInterval.toNat ≠ 0 := fun zero =>
    interval (UInt32.toNat_inj.mp zero)
  rw [rep.height] at far lost
  obtain ⟨pos, read⟩ := rep.readTop (rep.valid.linked.drop
    (L.chain.length - (L.chain.length + 1 - P.difficultyAdjustmentInterval.toNat)))
  rw [rep.getBlockHashByHeight_eq (by omega), Option.bind_some, read] at lost
  cases lost

/-- The difficulty rule on a part of the chain. -/
theorem bitsAfter_eq (rep : Represents P s L) (interval : P.difficultyAdjustmentInterval ≠ 0)
    {below : List Block} (linked : Ledger.Linked P L.tree below) {parent : BlockIndexEntry}
    (height : parent.nHeight = (chainTip P below).height)
    (bits : parent.nBits = (chainTip P below).bits)
    (time : parent.nTime = (chainTip P below).timestamp) :
    s.bitsAfter P (chainTip P below).blockHash parent = some (nextBits P below) := by
  have positive : P.difficultyAdjustmentInterval.toNat ≠ 0 := fun zero =>
    interval (UInt32.toNat_inj.mp zero)
  have length := height_chainTip P below
  unfold ChainState.bitsAfter nextBits
  dsimp only
  rw [height, bits, time]
  by_cases first : (chainTip P below).height = 0 ∨ (chainTip P below).bits = 0
  · rw [if_pos first, if_pos first]
  · rw [if_neg first, if_neg first]
    by_cases stays : P.isRetargetHeight (UInt64.ofNat ((chainTip P below).height + 1)) = false
    · rw [if_pos (.inl stays), if_pos stays]
    · rw [if_neg stays]
      by_cases short : (chainTip P below).height + 1 < P.difficultyAdjustmentInterval.toNat
      · rw [if_pos (.inr short), if_pos (.inl short)]
      · obtain ⟨pos, read⟩ := rep.readTop (linked.drop (P.difficultyAdjustmentInterval.toNat - 1))
        rw [if_neg (by tauto), if_neg (by tauto), rep.ancestor_eq linked (by omega),
          Option.bind_some, read]
        rfl

/-- The active block a number of steps behind the tip, and the chain below it. -/
theorem active (rep : Represents P s L) {n : Nat} (low : n < s.mBestChain.height) :
    ∃ block below pos, L.blocks.drop n = block :: below ∧
      Ledger.Linked P L.tree (block :: below) ∧ below.length + 1 + n = s.mBestChain.height ∧
      s.ancestor n s.mBestChain.blockHash = some (block.getHash P.sha256) ∧
      s.readBlockIndex (block.getHash P.sha256) = some (BlockData.indexEntry block
        (topBlock P (block :: below)).height (topBlock P (block :: below)).work pos) ∧
      s.mBlockData.recordAt P pos = some block := by
  have whole := L.length_blocks
  have height := rep.height
  have back := rep.ancestor_eq rep.valid.linked (n := n) (by omega)
  have linked := rep.valid.linked.drop n
  cases part : L.blocks.drop n with
  | nil =>
      rw [List.drop_eq_nil_iff] at part
      omega
  | cons block below =>
      rw [part] at back linked
      obtain ⟨pos, read, record⟩ := rep.stored linked.1
      have length := congrArg List.length part
      rw [List.length_drop, List.length_cons] at length
      refine ⟨block, below, pos, rfl, linked, by omega, ?_, read, record⟩
      rw [rep.tip]
      exact back

theorem ruled (rep : Represents P s L) (interval : P.difficultyAdjustmentInterval ≠ 0)
    (followed : Followed P L.blocks) : s.Ruled P := by
  constructor
  · obtain ⟨pos, read⟩ := rep.readTop rep.valid.linked
    rw [rep.tip, Ledger.tip]
    exact ⟨_, read, rfl⟩
  · intro n low
    obtain ⟨block, below, pos, part, linked, length, back, read, record⟩ := rep.active low
    obtain ⟨next, -⟩ : Followed P (block :: below) := part ▸ followed.drop n
    obtain ⟨-, prev, linkedBelow⟩ := linked
    obtain ⟨pos', readBelow⟩ := rep.readTop linkedBelow
    rw [← prev] at readBelow
    refine ⟨_, block, _, _, back, length, read, record, rfl, rfl, rfl, readBelow, ?_, ?_, ?_, rfl⟩
    · simp [BlockData.indexEntry, topBlock]
    · rw [prev, rep.bitsAfter_eq interval linkedBelow rfl rfl rfl]
      simp only [follows, Bool.and_eq_true, decide_eq_true_eq] at next
      rw [next.1.2]
    · intro high
      rw [ChainState.getMedianTimePastLocked, prev, rep.timesFrom_eq linkedBelow]
      simp only [follows, Bool.and_eq_true, Bool.or_eq_true, decide_eq_true_eq,
        height_chainTip] at next
      change 2 ≤ below.length + 1 at high
      exact next.1.1.2.resolve_left (by omega)

end Represents

/-! ### A whole life -/

section

variable {P : Params} {ops : List ChainOp}

theorem stepCalls_represent {s s' : ChainState} {L : Ledger} (rep : Represents P s L)
    {op : ChainOp} (mem : s' ∈ s.stepCalls P op) : ∃ L', Represents P s' L' := by
  cases op with
  | acceptBlock now block =>
      obtain ⟨⟨s₁, b⟩, listed, rfl⟩ := List.mem_map.mp mem
      obtain ⟨L', reached⟩ : ∃ L', CallReached P (fun _ => True) L s₁ b L' :=
        connectCall_reached rep trivial listed
      exact ⟨L', reached.represents⟩
  | connectBlock block =>
      obtain rfl := List.mem_singleton.mp mem
      exact ⟨L, rep⟩
  | disconnectBlock blockHash => cases mem

/-- Every state a life asks for bits in stands for a ledger. -/
theorem lifeCalls_represent (fine : Deliverable P ops) : ∀ {rest : List NodeOp} {s s' : ChainState}
    {L : Ledger}, (∀ op ∈ calls rest, op ∈ ops) → Represents P s L → s.Saved P →
    L.Holds P (Given ops) (Direct ops) → s' ∈ ChainState.lifeCalls P rest s →
    ∃ L', Represents P s' L' := by
  intro rest
  induction rest with
  | nil =>
      intro s s' L _ rep _ _ mem
      obtain rfl := List.mem_singleton.mp mem
      exact ⟨L, rep⟩
  | cons op rest ih =>
      intro s s' L sub rep saved holds mem
      have split : calls (op :: rest) = calls [op] ++ calls rest :=
        List.filterMap_append (l := [op])
      rw [split] at sub
      obtain ⟨s₁, ran, rep₁, saved₁, moves₁⟩ :=
        turn_sim fine rep saved holds fun o mem => sub o (List.mem_append_left _ mem)
      have holds₁ := Ledger.Moves.holds moves₁ fine.shaped rep.valid holds
      rw [ChainState.lifeCalls, ran, List.cons_append, List.mem_cons, List.mem_append] at mem
      rcases mem with rfl | within | later
      · exact ⟨L, rep⟩
      · obtain ⟨o, -, asked⟩ := List.mem_flatMap.mp within
        exact stepCalls_represent rep asked
      · exact ih (fun o mem => sub o (List.mem_append_right _ mem)) rep₁ saved₁ holds₁ later

end

/-- **The header rules hold along the active chain.** A new node comes up after
every clean restart, and whatever it was asked before, its tip is what the index
says of it and every active block obeys the rules of its own ancestors. Nowhere
on the way does the node keep a target for want of an ancestor. -/
theorem headers_ruled {P : Params} (sound : P.SoundGenesis)
    (interval : P.difficultyAdjustmentInterval ≠ 0) {s₀ : ChainState}
    (opened : ChainState.initializeState P (.ofDisk .empty) = .ok s₀) {ops : List NodeOp}
    (fine : Deliverable P (calls ops)) :
    (∃ s, s₀.life P ops = .ok s ∧ s.Ruled P) ∧
      ∀ s ∈ ChainState.lifeCalls P ops s₀, ¬ s.KeepsTarget P (s.mBestChain.height + 1) := by
  have rep := represents_initial sound opened
  constructor
  · obtain ⟨s, ran, rep', moves⟩ := lived sound opened fine
    have followed : Followed P ((Ledger.initial P).run P (calls ops)).blocks :=
      moves.keeps (p := fun L => Followed P L.blocks) Ledger.Move.followed trivial
    exact ⟨s, ran, rep'.ruled interval followed⟩
  · intro s mem
    obtain ⟨L, standing⟩ := lifeCalls_represent fine (fun _ mem => mem) rep
      (saved_initial sound opened) Ledger.holds_initial mem
    exact standing.not_keepsTarget interval

open SmallNetwork in
theorem headers_ruled_reopened :
    let ops := [.call (.acceptBlock 20 blockOne), .restart]
    (∃ s, node.life smallNetwork ops = .ok s ∧ s.Ruled smallNetwork) ∧
      ∀ s ∈ ChainState.lifeCalls smallNetwork ops node,
        ¬ s.KeepsTarget smallNetwork (s.mBestChain.height + 1) :=
  headers_ruled soundGenesis_smallNetwork (by decide) node_opened
    (deliverable_accepts smallNetwork [(20, blockOne)])

namespace SmallNetwork

/-- A network that retargets at height two, to bits of zero. -/
def zeroNetwork : Params := { smallNetwork with
  difficultyAdjustmentInterval := 2
  isRetargetHeight height := height = 2
  calculateNextWorkRequired _ _ _ := 0 }

/-- A block with other bits. -/
def withBits (bits : UInt32) (block : Block) : Block :=
  { block with header := { block.header with bits } }

/-- A block on top of the first, with the bits of the retarget. -/
def zeroTwo : Block := withBits 0
  (mine (blockOne.getHash zeroNetwork.sha256) 2 1 [mint 3 10] fits_three)

/-- A block on top of that one, with bits that are not its parent's. -/
def limitThree : Block :=
  mine (zeroTwo.getHash zeroNetwork.sha256) 3 1 [mint 4 10] fits_four

/-- A node of that network, just opened. -/
def zeroNode : ChainState :=
  match ChainState.initializeState zeroNetwork (.ofDisk .empty) with
  | .ok s => s
  | .error _ => .ofDisk .empty

/-- The node with the three blocks. -/
def zeroThree : ChainState :=
  zeroNode.acceptAll zeroNetwork [(20, blockOne), (20, zeroTwo), (20, limitThree)]

end SmallNetwork

open SmallNetwork in
/-- A tip whose bits are zero is taken for one that has none: the block above it
carries the limit and not its parent's bits, though it is at no retarget height. -/
theorem zero_bits_not_kept :
    ChainState.initializeState zeroNetwork (.ofDisk .empty) = .ok zeroNode ∧
      zeroNode.life zeroNetwork [.call (.acceptBlock 20 blockOne), .call (.acceptBlock 20 zeroTwo),
        .call (.acceptBlock 20 limitThree)] = .ok zeroThree ∧
      zeroThree.mBestChain.height = 3 ∧ zeroNetwork.isRetargetHeight 3 = false ∧
      ∃ entry parent, zeroThree.readBlockIndex zeroThree.mBestChain.blockHash = some entry ∧
        zeroThree.readBlockIndex entry.hashPrev = some parent ∧ entry.nBits ≠ parent.nBits := by
  have ok : (ChainState.initializeState zeroNetwork (.ofDisk .empty)).isOk = true := by
    decide +kernel
  refine ⟨?_, rfl, by decide +kernel, by decide +kernel, ?_⟩
  · unfold zeroNode
    cases opened : ChainState.initializeState zeroNetwork (.ofDisk .empty) with
    | ok s => rfl
    | error e => simp [opened, Except.isOk, Except.toBool] at ok
  · have bits : ((zeroThree.readBlockIndex zeroThree.mBestChain.blockHash).bind fun entry =>
        (zeroThree.readBlockIndex entry.hashPrev).map fun parent =>
          (entry.nBits, parent.nBits)) = some (1, 0) := by
      decide +kernel
    obtain ⟨entry, read, rest⟩ := Option.bind_eq_some_iff.mp bits
    obtain ⟨parent, below, same⟩ := Option.map_eq_some_iff.mp rest
    obtain ⟨here, there⟩ := Prod.mk.inj same
    exact ⟨entry, parent, read, below, by rw [here, there]; decide⟩

end QmaskCore
