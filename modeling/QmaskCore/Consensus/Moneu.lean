import QmaskCore.Consensus.Pow
import QmaskCore.Ledger.ActiveChain
import QmaskCore.Ledger.Headers
import QmaskCore.Ledger.Delivery
import QmaskCore.Ledger.Supply
import QmaskCore.Primitives.RawTransaction

/-!
The node with the values of its own network.

`NetParams.moneu` gives the parameters of a node the constants and the functions
of `chainparams.cpp` and `pow.cpp`; the digest and the checks of signatures stay
what they are. `active_chain_worked` says what the work of the tip is worth: every
active block has the hash its bits ask for, and the bits asked for next can be met.
`coins_within_maxMoney` is the limit of the money.
-/

namespace QmaskCore

/-! ### Transactions as the node sees them -/

namespace RawTransaction

/-- `IsCoinbase`. -/
def isCoinbase (tx : RawTransaction) : Bool :=
  match tx.inputs with
  | [input] => input.prevTxHash = 0 && input.outputIndex = 0xFFFFFFFF
  | _ => false

/-- What the node sees of a transaction. -/
def toTransaction (sha256 : List UInt8 → Bytes32) (tx : RawTransaction)
    (inputs_le : tx.inputs.length ≤ Transaction.maxInputs)
    (outputs_le : tx.outputs.length ≤ Transaction.maxOutputs) : Transaction where
  inputs := tx.inputs
  outputs := tx.outputs
  hash := sha256 tx.idPreimage
  isCoinbase := tx.isCoinbase
  inputs_le
  outputs_le

end RawTransaction

namespace NetParams

/-! ### The genesis block -/

/-- The characters of `GENESIS_MESSAGE`, digits of a hexadecimal number. -/
def genesisMessage : List UInt8 :=
  ("54686520477561726469616e205765656b6c792031342f4175672f323032362047" ++
    "6f6e6520726f6775653a20414920747269636b73206974732074657374657273").toList.map
      fun c => UInt8.ofNat c.toNat

def genesisRewardPubkeyHash : Bytes32 :=
  0x8fb311b4e4a09e775d0e9910e2ff55325469e8b7a0b7085bd2fd1b0c80a316c5

def genesisReward : Int64 := 7700000000

def genesisCoinbase : RawTransaction where
  version := 1
  inputs := [⟨0, 0xFFFFFFFF, 0, 0, 0, []⟩]
  outputs := [.payTo genesisReward genesisRewardPubkeyHash, ⟨0, createNullData genesisMessage⟩]
  locktime := 0

theorem genesisCoinbase_inputs_le : genesisCoinbase.inputs.length ≤ Transaction.maxInputs :=
  Nat.le_add_left 1 999

theorem genesisCoinbase_outputs_le : genesisCoinbase.outputs.length ≤ Transaction.maxOutputs :=
  Nat.le_add_left 2 998

theorem one_le_maxTransactions : 1 ≤ Block.maxTransactions := Nat.le_add_left 1 9999

def buildGenesisBlock (sha256 : List UInt8 → Bytes32) : Block :=
  let coinbase := genesisCoinbase.toTransaction sha256 genesisCoinbase_inputs_le
    genesisCoinbase_outputs_le
  Block.updateRoots sha256 {
    header := ⟨1, 0, 0, 0, genesisTimestamp, 0, powLimitCompact, 1708084064⟩
    transactions := [coinbase]
    transactions_le := one_le_maxTransactions }

def genesisHash : Bytes32 := 0x00000000a03ce5faf3e74612dc86207af4b317a840cbeb0a2bb672475a04a9ea

theorem genesisHash_ne_zero : genesisHash ≠ 0 := by decide

/-- `MAINNET_CHECKPOINTS`. -/
def checkpoints : List Checkpoint :=
  [⟨0, genesisHash⟩,
    ⟨1000, 0x00000000e1ae20a687641859f30eb371c120d313c1b7461b6a98811d03293136⟩,
    ⟨4500, 0x0000000086a68638d2b5c4b8a85ccdd77625c9e4a1c5f02d5b8b6e2354ea02c9⟩,
    ⟨10101, 0x000000004cafc6ae22766e7c521692c4d3be10fe40773d7ee6780d40ba7f6428⟩]

/-- What a function returns that does not throw (`Pow.addChainWork_eq`,
`Pow.inRange_retarget_iff`). -/
def returned {ε α : Type} (default : α) : Except ε α → α
  | .ok a => a
  | .error _ => default

/-- The parameters of a node of the network. What is not `NetParams` or proof of
work is that of `base`. -/
def moneu (base : Params) : Params := { base with
  genesisTimestamp
  maxMoney
  powLimitCompact
  difficultyAdjustmentInterval
  coinbaseMaturity
  maxBlockSize
  maxOpReturnSize
  minFeePerByte
  minTxFee
  dustThreshold
  noiseLeafCount
  checkpoints
  genesisHash
  buildGenesisBlock := buildGenesisBlock base.sha256
  getBlockSubsidy
  checkMoneyRange
  checkProofOfWork := Pow.checkProofOfWork
  isRetargetHeight := Pow.isRetargetHeight
  calculateNextWorkRequired bits last first :=
    returned powLimitCompact (Pow.calculateNextWorkRequired bits last first)
  addChainWork work bits := returned work (Pow.addChainWork work bits)
  compareWork := Pow.compareWork }

variable (base : Params)

theorem soundGenesis_moneu : (moneu base).SoundGenesis where
  nonzero := genesisHash_ne_zero
  checked := rfl
  single := rfl

theorem moneyRangeComplete_moneu : (moneu base).MoneyRangeComplete := by
  intro n le
  have limit : maxMoney.toInt = 3000000000000000 := by decide
  have same : maxMoney.toUInt64.toNat = 3000000000000000 := by decide
  change (n.toNat : Int) ≤ maxMoney.toInt at le
  change decide (n ≤ maxMoney.toUInt64) = true
  rw [decide_eq_true_eq, UInt64.le_iff_toNat_le, same]
  omega

/-- Works are compared as numbers. -/
theorem workOrdered_moneu : (moneu base).WorkOrdered where
  swap a b := by
    have ab := Pow.compareWork_spec a b
    have ba := Pow.compareWork_spec b a
    exact ab.2.trans ba.1.symm
  trans a b c := by
    have ab := Pow.compareWork_spec a b
    have bc := Pow.compareWork_spec b c
    have ac := Pow.compareWork_spec a c
    change Pow.compareWork a b ≤ 0 → Pow.compareWork b c ≤ 0 → Pow.compareWork a c ≤ 0
    omega
  tie a b same := by
    have ab := Pow.compareWork_spec a b
    change Pow.compareWork a b = 0 at same
    exact BitVec.eq_of_toNat_eq (by omega)

/-! ### Work along a chain -/

variable {base}

theorem toNat_addChainWork (work : Bytes32) (bits : UInt32) :
    ((moneu base).addChainWork work bits).toNat = (work.toNat + Pow.work bits) % 2 ^ 256 := by
  obtain ⟨total, added, exact⟩ := Pow.addChainWork_eq work bits
  change (returned work (Pow.addChainWork work bits)).toNat = _
  rw [added]
  exact exact

/-- The work a chain stands for, genesis included. -/
def chainWork (blocks : List Block) : Nat :=
  Pow.work powLimitCompact + (blocks.map fun b => Pow.work b.header.bits).sum

theorem toNat_work_topBlock : ∀ blocks : List Block,
    (topBlock (moneu base) blocks).work.toNat = chainWork blocks % 2 ^ 256
  | [] => by
      rw [topBlock, toNat_addChainWork, chainWork, List.map_nil, List.sum_nil]
      change (0 + Pow.work powLimitCompact) % 2 ^ 256 = _
      rw [Nat.zero_add, Nat.add_zero]
  | block :: blocks => by
      rw [topBlock, toNat_addChainWork, toNat_work_topBlock blocks, Nat.mod_add_mod, chainWork,
        chainWork, List.map_cons, List.sum_cons]
      congr 1
      omega

/-- A block that followed its ancestors has the hash its bits ask for. -/
theorem worked_of_follows {blocks : List Block} {block : Block}
    (next : follows (moneu base) blocks block = true) :
    Pow.InRange block.header.bits ∧
      (block.getHash base.sha256).toNat ≤ Pow.target block.header.bits := by
  simp only [follows, Bool.and_eq_true] at next
  exact (Pow.checkProofOfWork_iff _ _).mp next.2

theorem Followed.worked : ∀ {blocks : List Block}, Followed (moneu base) blocks →
    ∀ b ∈ blocks, Pow.InRange b.header.bits ∧
      (b.getHash base.sha256).toNat ≤ Pow.target b.header.bits
  | _ :: _, followed, _, .head _ => worked_of_follows followed.1
  | _ :: _, followed, b, .tail _ mem => Followed.worked followed.2 b mem

/-- The bits of the tip can be met. -/
theorem Followed.inRange_tip {blocks : List Block} (followed : Followed (moneu base) blocks) :
    Pow.InRange (chainTip (moneu base) blocks).bits := by
  cases blocks with
  | nil => exact Pow.inRange_powLimitCompact
  | cons block blocks => exact (worked_of_follows followed.1).1

/-- The bits of the next block can be met, unless the target is down to one. -/
theorem Followed.inRange_nextBits {blocks : List Block} (followed : Followed (moneu base) blocks) :
    Pow.InRange (nextBits (moneu base) blocks) ∨
      Pow.target (chainTip (moneu base) blocks).bits = 1 := by
  have range := Followed.inRange_tip followed
  rw [nextBits]
  split
  · exact .inl Pow.inRange_powLimitCompact
  · split
    · exact .inl range
    · split
      · exact .inl range
      · obtain ⟨bits, given, met⟩ := Pow.inRange_retarget_iff range
          (chainTip (moneu base) blocks).timestamp
          (chainTip (moneu base) (blocks.drop
            ((moneu base).difficultyAdjustmentInterval.toNat - 1))).timestamp
        change Pow.InRange (returned powLimitCompact (Pow.calculateNextWorkRequired _ _ _)) ∨ _
        rw [given]
        by_cases one : Pow.target (chainTip (moneu base) blocks).bits = 1
        · exact .inr one
        · exact .inl (met.mpr fun both => one both.1)

/-- **The work of the active chain.** Whatever a node of the network is asked, clean
restarts included, every active block has a target within the limit and a hash at or
below it, and took at least 4295032833 hashes on average. The work of the tip is the
sum over the chain, modulo `2 ^ 256`. The bits asked of the next block can be met,
unless the target of the tip is one. -/
theorem active_chain_worked {s₀ : ChainState}
    (opened : ChainState.initializeState (moneu base) (.ofDisk .empty) = .ok s₀) {ops : List NodeOp}
    (fine : Deliverable (moneu base) (calls ops)) :
    ∃ s chain, s₀.life (moneu base) ops = .ok s ∧ s.activeChain (moneu base) = some chain ∧
      (∀ b ∈ chain, Pow.InRange b.header.bits ∧
        (b.getHash base.sha256).toNat ≤ Pow.target b.header.bits ∧
        4295032833 ≤ Pow.work b.header.bits) ∧
      s.mBestChain.chainWork.toNat = (Pow.work powLimitCompact +
        (chain.map fun b => Pow.work b.header.bits).sum) % 2 ^ 256 ∧
      (Pow.InRange (s.getNextBits (moneu base)) ∨ Pow.target s.mBestChain.bits = 1) := by
  obtain ⟨s, ran, rep, moves⟩ := lived (soundGenesis_moneu base) opened fine
  have followed : Followed (moneu base)
      ((Ledger.initial (moneu base)).run (moneu base) (calls ops)).blocks :=
    moves.keeps (p := fun L => Followed (moneu base) L.blocks) Ledger.Move.followed trivial
  refine ⟨s, _, ran, rep.activeChain_eq, fun b mem => ?_, ?_, ?_⟩
  · obtain ⟨range, met⟩ := Followed.worked followed b mem
    exact ⟨range, met, Pow.le_work range⟩
  · rw [rep.tip]
    exact toNat_work_topBlock _
  · rw [ChainState.getNextBits, rep.expectedBits_eq, rep.tip]
    exact Followed.inRange_nextBits followed

/-! ### The limit of the money -/

theorem genesisValue_moneu : genesisValue (moneu base) = 7700000000 := by
  rfl

theorem genesisValue_add_subsidies (n : Nat) :
    genesisValue (moneu base) + subsidies (moneu base) n =
      ((∑ h ∈ Finset.range (n + 1), (getBlockSubsidy (UInt64.ofNat h)).toNat : Nat) : Int) := by
  induction n with
  | zero =>
      have first : (getBlockSubsidy (UInt64.ofNat 0)).toNat = 7700000000 := by decide
      rw [genesisValue_moneu, Finset.sum_range_one, first]
      rfl
  | succ n ih =>
      rw [subsidies_succ, Finset.sum_range_succ, Nat.cast_add, ← ih, Int.add_assoc]
      rfl

theorem genesisValue_add_subsidies_le {n : Nat} (fits : n < 2 ^ 32) :
    genesisValue (moneu base) + subsidies (moneu base) n ≤ maxMoney.toInt := by
  have sum := sum_subsidies_le (n := n + 1) (by omega)
  have limit : maxMoney.toInt = 3000000000000000 := by decide
  rw [genesisValue_add_subsidies]
  omega

/-- A chain is no longer than its last block can say. -/
theorem length_lt {P : Params} {L : Ledger} (valid : L.Valid P) : L.chain.length < 2 ^ 32 := by
  rw [← L.length_blocks]
  cases blocks : L.blocks with
  | nil => exact Nat.two_pow_pos 32
  | cons block below =>
      have stored := valid.tree_tip
      have above : (L.tip P).blockHash ≠ P.genesisHash := by
        intro same
        have zero := (valid.height_eq_zero stored).mpr same
        rw [height_topBlock, blocks] at zero
        cases zero
      obtain ⟨-, -, -, height, -⟩ := (valid.planted stored).grown above
      rw [height_topBlock, blocks] at height
      rw [← height]
      exact UInt32.toNat_lt _

/-- **The limit of the money.** A node that takes its blocks through `AcceptBlock`,
whatever they are and however often it is restarted, never holds coins worth more
than `MAX_MONEY`. -/
theorem coins_within_maxMoney (exact : (moneu base).ValueOutExact) {s₀ : ChainState}
    (opened : ChainState.initializeState (moneu base) (.ofDisk .empty) = .ok s₀) {ops : List NodeOp}
    (validated : ∀ b, ¬ Direct (calls ops) b) :
    ∃ s, s₀.life (moneu base) ops = .ok s ∧
      ((s.mUTXOSet.walkCoins fun _ => true).map (·.2.value.toInt)).sum ≤ maxMoney.toInt := by
  have fine : Deliverable (moneu base) (calls ops) :=
    ⟨fun b direct => absurd direct (validated b), fun b direct => absurd direct (validated b)⟩
  obtain ⟨s, ran, rep, moves⟩ := lived (soundGenesis_moneu base) opened fine
  have start := (represents_initial (soundGenesis_moneu base) opened).valid
  have indirect : Ledger.Moves (moneu base) (Given (calls ops)) (fun _ => False)
      (.initial (moneu base)) ((Ledger.initial (moneu base)).run (moneu base) (calls ops)) := by
    refine Relation.ReflTransGen.mono (fun L L' move => ?_) _ _ moves
    cases move with
    | store mem new found admitted => exact .store mem new found admitted
    | connect stored => exact .connect stored
    | connectDirect direct _ => exact absurd direct (validated _)
    | disconnect => exact .disconnect
  refine ⟨s, ran, ?_⟩
  rw [← UTXOSet.total_toCoinStore, rep.coins]
  exact (rep.valid.backed.total_le (soundGenesis_moneu base) exact (indirect.chainRules start)).2.trans
    (genesisValue_add_subsidies_le (length_lt rep.valid))

/-! ### A digest to run the network with -/

open SmallNetwork

/-- The digest that gives the genesis header its hash, and its neighbours the next ones. -/
def countingDigest (data : List UInt8) : Bytes32 :=
  genesisHash + BitVec.ofNat 256 (readLE32 (data.drop 116)).toNat - 1708084064

def countingBase : Params := { smallNetwork with sha256 := countingDigest }

def countingNetwork : Params := moneu countingBase

def countingNode : ChainState :=
  match ChainState.initializeState countingNetwork (.ofDisk .empty) with
  | .ok s => s
  | .error _ => .ofDisk .empty

theorem countingNode_opened :
    ChainState.initializeState countingNetwork (.ofDisk .empty) = .ok countingNode := by
  have ok : (ChainState.initializeState countingNetwork (.ofDisk .empty)).isOk = true := by
    decide +kernel
  unfold countingNode
  cases opened : ChainState.initializeState countingNetwork (.ofDisk .empty) with
  | ok s => rfl
  | error e => simp [opened, Except.isOk, Except.toBool] at ok

/-- A block with nothing but a coinbase on genesis, of the bits asked for. -/
def countedOne : Block :=
  let block := mine genesisHash 1 1708084065 [mint 2 10] fits_two
  Block.updateRoots countingDigest { block with
    header := { block.header with
      bits := powLimitCompact
      timestamp := genesisTimestamp + 600 } }

/-- A life with that block and a restart. -/
def countedOps : List NodeOp :=
  [.call (.acceptBlock (genesisTimestamp + 600) countedOne), .restart]

example : (countingNode.acceptBlock countingNetwork (genesisTimestamp + 600)
    countedOne).2.mBestChain.height = 1 := by
  decide +kernel

theorem active_chain_worked_countedOne :
    ∃ s chain, countingNode.life countingNetwork countedOps = .ok s ∧
      s.activeChain countingNetwork = some chain ∧
      (∀ b ∈ chain, Pow.InRange b.header.bits ∧
        (b.getHash countingDigest).toNat ≤ Pow.target b.header.bits ∧
        4295032833 ≤ Pow.work b.header.bits) ∧
      s.mBestChain.chainWork.toNat = (Pow.work powLimitCompact +
        (chain.map fun b => Pow.work b.header.bits).sum) % 2 ^ 256 ∧
      (Pow.InRange (s.getNextBits countingNetwork) ∨ Pow.target s.mBestChain.bits = 1) := by
  have fine : Deliverable countingNetwork (calls countedOps) :=
    deliverable_accepts countingNetwork [(genesisTimestamp + 600, countedOne)]
  exact active_chain_worked countingNode_opened fine

theorem coins_within_maxMoney_countedOne :
    ∃ s, countingNode.life countingNetwork countedOps = .ok s ∧
      ((s.mUTXOSet.walkCoins fun _ => true).map (·.2.value.toInt)).sum ≤ maxMoney.toInt := by
  have exact : (moneu countingBase).ValueOutExact :=
    ⟨valueOutExact_smallNetwork.exact, valueOutExact_smallNetwork.fails⟩
  have validated : ∀ b, ¬ Direct (calls countedOps) b := fun _ =>
    show ¬ Direct (accepts [(genesisTimestamp + 600, countedOne)]) _ from not_direct_accepts
  exact coins_within_maxMoney exact countingNode_opened validated

end NetParams

end QmaskCore
