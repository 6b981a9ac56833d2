import QmaskCore.Ledger.ActiveChain
import QmaskCore.Ledger.Extends
import QmaskCore.Ledger.SameTip
import QmaskCore.Mining.Template
import QmaskCore.Mining.Timestamps
import QmaskCore.Validation.Passing

/-!
Are mined blocks accepted?

A template takes its height, its bits and its parent from the chain, its time
from the clock but never at or below the median of the chain, and its payments
from the pool. Everything `AcceptBlock` asks of the block that comes out of the
nonce loop then holds but for its time, which the loop rewrites without looking
at the chain again. `mined_block_accepted_iff` says which blocks become the tip.
-/

namespace QmaskCore

/-! ### The pool -/

namespace Mempool

variable {Rate : Type} {s : Mempool Rate}

/-- Each transaction of the pool could be mined by itself, and no two of them spend
an outpoint or reveal a leaf in common. -/
structure Minable (P : Params) (view : CoinsView) (height : UInt32) (s : Mempool Rate) : Prop where
  checked : ∀ h e, s.mIndex.lookup h = some e →
    TxValidation.checkTransactionWithUTXO P view height e.tx = .ok ()
  signed : ∀ h e, s.mIndex.lookup h = some e →
    ∃ claimed, TxValidation.verifyTransactionSignatures P view e.tx [] = .ok claimed
  outpoints : ∀ h e h' e', s.mIndex.lookup h = some e → s.mIndex.lookup h' = some e' → h ≠ h' →
    (e.tx.inputs.map (·.outpoint)).Disjoint (e'.tx.inputs.map (·.outpoint))
  leaves : ∀ h e h' e', s.mIndex.lookup h = some e → s.mIndex.lookup h' = some e' → h ≠ h' →
    (leavesOf e.tx.inputs).Disjoint (leavesOf e'.tx.inputs)

/-- What the walk of the fee index picks can go into one block. -/
theorem Minable.together {P : Params} {view : CoinsView} {height : UInt32}
    (minable : s.Minable P view height) (wf : s.WF)
    (payments : ∀ h e, s.mIndex.lookup h = some e → e.tx.isCoinbase = false) (maxCount : Nat) :
    BlockValidation.Together P view height (getTransactions maxCount s) := by
  have held {tx : Transaction} (mem : tx ∈ getTransactions maxCount s) :
      ∃ e, s.mIndex.lookup tx.hash = some e ∧ e.tx = tx := by
    rw [getTransactions_eq] at mem
    obtain ⟨e, picked, rfl⟩ := List.mem_map.mp mem
    exact ⟨e, wf.mem_ranked.mp (List.mem_of_mem_take picked), rfl⟩
  have distinct : (getTransactions maxCount s).Pairwise fun a b => a.hash ≠ b.hash := by
    rw [getTransactions_eq, List.pairwise_map]
    refine (wf.nodup_ranked.sublist (List.take_sublist _ _)).imp_of_mem fun memA memB other same => ?_
    have foundA := wf.mem_ranked.mp (List.mem_of_mem_take memA)
    have foundB := wf.mem_ranked.mp (List.mem_of_mem_take memB)
    rw [same, foundB] at foundA
    exact other (Option.some.inj foundA).symm
  constructor
  · intro tx mem
    obtain ⟨e, found, rfl⟩ := held mem
    exact payments _ e found
  · intro tx mem
    obtain ⟨e, found, rfl⟩ := held mem
    exact minable.checked _ e found
  · intro tx mem
    obtain ⟨e, found, rfl⟩ := held mem
    exact minable.signed _ e found
  · exact List.pairwise_map.mpr distinct
  · refine List.pairwise_map.mpr (distinct.imp_of_mem fun memA memB other => ?_)
    obtain ⟨a, foundA, rfl⟩ := held memA
    obtain ⟨b, foundB, rfl⟩ := held memB
    exact minable.outpoints _ a _ b foundA foundB other
  · refine List.pairwise_map.mpr (distinct.imp_of_mem fun memA memB other => ?_)
    obtain ⟨a, foundA, rfl⟩ := held memA
    obtain ⟨b, foundB, rfl⟩ := held memB
    exact minable.leaves _ a _ b foundA foundB other

end Mempool

/-! ### What is left to check -/

/-- A proof of work is a hash that is at most the target of the bits. -/
def Params.ChecksTarget (P : Params) : Prop :=
  ∀ blockHash bits, P.checkProofOfWork blockHash bits = true ↔
    blockHash.toNat ≤ (ArithUint256.setCompact bits).1.value

/-! ### A block on the tip -/

/-- `AcceptBlock` takes the block in and makes it the tip. -/
def ChainState.Extends (P : Params) (s : ChainState) (now : UInt64) (block : Block) : Prop :=
  (s.acceptBlock P now block).1 = true ∧ ∃ chain, s.activeChain P = some chain ∧
    (s.acceptBlock P now block).2.activeChain P = some (block :: chain)

namespace Miner

/-- A time a block on the tip may have: past the median of the chain and genesis,
and at most two hours ahead of the clock. -/
structure Timely (P : Params) (s : ChainState) (now time : UInt64) : Prop where
  later : s.mBestChain.height = 0 ∨ s.getMedianTimePast P < time
  fromGenesis : P.genesisTimestamp ≤ time
  nonzero : time ≠ 0
  notAhead : time ≤ now + 7200

/-- There is a place on the tip for a block of this hash: its height can be written,
it is not stored yet, no stored checkpoint is above and it adds work. -/
structure Placed (P : Params) (s : ChainState) (blockHash : Bytes32) : Prop where
  height : s.mBestChain.height + 1 < 2 ^ 32
  new : s.mBlockData.hasBlock blockHash = false
  above : (s.lastCheckpointHeight P).any (s.mBestChain.height + 1 < ·) = false
  work : 0 < P.compareWork (P.addChainWork s.mBestChain.chainWork (s.getNextBits P))
    s.mBestChain.chainWork

instance (P : Params) (s : ChainState) (now time : UInt64) : Decidable (Timely P s now time) :=
  decidable_of_iff ((s.mBestChain.height = 0 ∨ s.getMedianTimePast P < time) ∧
      P.genesisTimestamp ≤ time ∧ time ≠ 0 ∧ time ≤ now + 7200)
    ⟨fun h => ⟨h.1, h.2.1, h.2.2.1, h.2.2.2⟩, fun t => ⟨t.1, t.2, t.3, t.4⟩⟩

instance (P : Params) (s : ChainState) (blockHash : Bytes32) : Decidable (Placed P s blockHash) :=
  decidable_of_iff (s.mBestChain.height + 1 < 2 ^ 32 ∧ s.mBlockData.hasBlock blockHash = false ∧
      (s.lastCheckpointHeight P).any (s.mBestChain.height + 1 < ·) = false ∧
      0 < P.compareWork (P.addChainWork s.mBestChain.chainWork (s.getNextBits P))
        s.mBestChain.chainWork)
    ⟨fun h => ⟨h.1, h.2.1, h.2.2.1, h.2.2.2⟩, fun p => ⟨p.1, p.2, p.3, p.4⟩⟩

end Miner

open Miner

namespace Represents

variable {P : Params} {s : ChainState} {L : Ledger}

theorem extends_iff (rep : Represents P s L) {now : UInt64} {block : Block} :
    s.Extends P now block ↔ (L.accept P now block).1 = true ∧
      (L.accept P now block).2.blocks = block :: L.blocks := by
  have same : Matches P (s.acceptBlock P now block) (L.accept P now block) := rep.acceptBlock_sim
  rw [ChainState.Extends, rep.activeChain_eq, same.state.activeChain_eq, same.answer]
  simp

/-- A block with the fields of a template, a body in order and work of its own
becomes the tip if and only if its time may be that and there is a place for it. -/
theorem extends_iff_timely (rep : Represents P s L) (values : P.ValueOutExact)
    (money : P.MoneyRangeComplete) {now : UInt64} {block : Block}
    (version : block.header.version ≠ 0)
    (prev : block.header.prevBlockHash = s.mBestChain.blockHash)
    (height : block.header.height = UInt32.ofNat (s.mBestChain.height + 1))
    (bits : block.header.bits = s.getNextBits P)
    (pow : P.checkProofOfWork (block.getHash P.sha256) block.header.bits = true)
    (root : block.header.merkleRoot ≠ 0)
    (body : BlockValidation.validateBlock P now s.mUTXOSet.view block.header.height block = .ok () ↔
      BlockValidation.checkBlockHeader P now block.header = .ok ())
    (fresh : ∀ tx ∈ block.transactions, ∀ o ∈ tx.outpoints, s.getCoin o = none) :
    s.Extends P now block ↔ Timely P s now block.header.timestamp ∧
      Placed P s (block.getHash P.sha256) := by
  have top : (topBlock P L.blocks).height = s.mBestChain.height := by
    rw [height_topBlock, L.length_blocks, rep.height]
  have level : block.header.height.toNat = s.mBestChain.height + 1 ↔
      s.mBestChain.height + 1 < 2 ^ 32 := by
    rw [height, UInt32.toNat_ofNat']
    omega
  have admitted : L.admits P now block (topBlock P L.blocks) = true ↔
      s.mBestChain.height + 1 < 2 ^ 32 ∧
        (s.lastCheckpointHeight P).any (s.mBestChain.height + 1 < ·) = false ∧
        BlockValidation.checkBlockHeader P now block.header = .ok () := by
    rw [← body, rep.lastCheckpointHeight_eq, rep.view, height, Ledger.admits, top]
    have pow : P.checkProofOfWork (block.getHash P.sha256) block.header.bits = true := pow
    simp only [Bool.and_eq_true, decide_eq_true_eq, Bool.not_eq_true', pow, level, and_true,
      and_assoc]
  have next : follows P L.blocks block = true ↔ s.mBestChain.height + 1 < 2 ^ 32 ∧
      (s.mBestChain.height = 0 ∨ s.getMedianTimePast P < block.header.timestamp) := by
    have times : s.mBestChain.height = 0 ∨ ChainState.medianTime P
        (pastTimes P ChainState.medianTimeSpan L.blocks) < block.header.timestamp ↔
        s.mBestChain.height = 0 ∨ s.getMedianTimePast P < block.header.timestamp := by
      refine or_congr_right' fun above => ?_
      rw [rep.getMedianTimePast_eq above]
    have expected : block.header.bits = nextBits P L.blocks := bits.trans rep.expectedBits_eq
    rw [← times, ← level, follows, show chainTip P L.blocks = s.mBestChain from rep.tip.symm]
    simp only [Bool.and_eq_true, Bool.or_eq_true, decide_eq_true_eq, prev, ← expected, pow, and_true]
  have applies (admitted : L.admits P now block (topBlock P L.blocks) = true) :
      ∃ done, AppliesWith P (nextHeight L.chain) L.coins block done := by
    have rules := Ledger.rules_of_admits admitted
    rw [height_topBlock, L.length_blocks] at rules
    refine rules.appliesWith values money fun tx mem o _ c c' held created => ?_
    have free := fresh tx mem o (Transaction.mem_outpoints_of_newCoinAt created)
    rw [← rep.coins, UTXOSet.getCoin_toCoinStore] at held
    cases held.symm.trans free
  rw [rep.extends_iff, Ledger.accept_extends_iff rep.valid (prev.trans (congrArg _ rep.tip)) applies,
    admitted, next, BlockValidation.checkBlockHeader_iff, ← rep.tip]
  have new : L.tree (block.getHash P.sha256) = none ↔
      s.mBlockData.hasBlock (block.getHash P.sha256) = false := by
    rw [rep.hasBlock_eq]
    simp
  constructor
  · rintro ⟨absent, ⟨small, above, -, genesis, nonzero, ahead, -, -⟩, ⟨-, later⟩, work⟩
    exact ⟨⟨later, genesis, nonzero, ahead⟩, ⟨small, new.mp absent, above, bits ▸ work⟩⟩
  · rintro ⟨⟨later, genesis, nonzero, ahead⟩, ⟨small, absent, above, work⟩⟩
    exact ⟨new.mpr absent, ⟨small, above, version, genesis, nonzero, ahead, root, pow⟩,
      ⟨small, later⟩, bits.symm ▸ work⟩

end Represents

/-! ### Mined blocks -/

/-- No hash stands for two things: the ids of the transactions that may go into a
block are distinct, and no coin there is carries one of them. -/
structure FreshIds (s : ChainState) (txs : List Transaction) : Prop where
  distinct : (txs.map (·.hash)).Nodup
  unused : ∀ tx ∈ txs, ∀ o ∈ tx.outpoints, s.getCoin o = none

namespace Miner

variable {P : Params} {M : TxMaker} {s s' : ChainState} {Rate : Type} {pool : Mempool Rate}
  {coinbaseOutputHash : Bytes32} {nowMillis nowSeconds : UInt64} {block : Block}

/-- The body of a template is in order, whatever becomes of its time and its nonce. -/
theorem body_in_order (values : P.ValueOutExact)
    (subsidy : ∀ height, (P.getBlockSubsidy height).toNat < 2 ^ 63)
    (built : buildBlockTemplate P M s (some pool) coinbaseOutputHash nowMillis nowSeconds =
      some block)
    (together : BlockValidation.Together P s'.mUTXOSet.view block.header.height
      (pool.getTransactions Block.maxTransactions))
    (ids : FreshIds s' (templateCoinbase P M s coinbaseOutputHash nowMillis ::
      pool.getTransactions Block.maxTransactions))
    (fits : BlockHeader.serializedSize + 4 +
      P.sizeOf [templateCoinbase P M s coinbaseOutputHash nowMillis] ≤ P.maxBlockSize.toNat)
    {found : BlockHeader} (merkleRoot : found.merkleRoot = block.header.merkleRoot)
    (leafRoot : found.leafRoot = block.header.leafRoot) (now : UInt64) :
    (∀ tx ∈ block.transactions, ∀ o ∈ tx.outpoints, s'.getCoin o = none) ∧
      (BlockValidation.validateBlock P now s'.mUTXOSet.view block.header.height
          { block with header := found } = .ok () ↔
        BlockValidation.checkBlockHeader P now found = .ok ()) := by
  obtain ⟨body, whole, sub, size, header⟩ := buildBlockTemplate_spec built
  have distinct := ids.distinct
  rw [List.map_cons, List.nodup_cons] at distinct
  let mined : Block := { block with header := found }
  have fitted : mined.getSerializedSize P ≤ P.maxBlockSize.toNat := by
    change block.getSerializedSize P ≤ _
    by_cases alone : body = []
    · rw [Block.getSerializedSize, whole, alone]
      exact fits
    · exact size alone
  have merkle : mined.computeMerkleRoot P.sha256 = mined.header.merkleRoot := by
    change block.computeMerkleRoot P.sha256 = found.merkleRoot
    rw [merkleRoot, header]
  have leaf : mined.computeLeafRoot P.sha256 = mined.header.leafRoot := by
    change block.computeLeafRoot P.sha256 = found.leafRoot
    rw [leafRoot, header]
  have height : block.header.height = UInt32.ofNat (s.mBestChain.height + 1) := by
    rw [header]
    rfl
  have reward : BlockValidation.checkReward P block.header.height
      (templateCoinbase P M s coinbaseOutputHash nowMillis) = .ok () := by
    rw [height]
    exact BlockValidation.checkReward_of_output values (subsidy _) (M.outputs _ _)
  refine ⟨fun tx mem => ids.unused tx ?_, ?_⟩
  · rw [whole] at mem
    exact (sub.cons_cons _).subset mem
  · exact BlockValidation.validateBlock_iff_header whole (M.coinbase _ _ rfl rfl)
      (together.sublist sub) fitted merkle leaf
      (fun mem => distinct.1 ((sub.map _).subset mem)) reward

/-- A template that was mined, its time and its nonce aside, becomes the tip if and
only if its time may be that and there is a place for it. -/
theorem extends_mined_iff {L' : Ledger} (rep' : Represents P s' L')
    (tip : s'.mBestChain = s.mBestChain) (bits : s'.getNextBits P = s.getNextBits P)
    (values : P.ValueOutExact) (money : P.MoneyRangeComplete) {transform : Sha256Transform}
    (digest : P.sha256 = sha256Raw transform) (pow : P.ChecksTarget)
    (subsidy : ∀ height, (P.getBlockSubsidy height).toNat < 2 ^ 63)
    (built : buildBlockTemplate P M s (some pool) coinbaseOutputHash nowMillis nowSeconds =
      some block)
    (together : BlockValidation.Together P s'.mUTXOSet.view block.header.height
      (pool.getTransactions Block.maxTransactions))
    (ids : FreshIds s' (templateCoinbase P M s coinbaseOutputHash nowMillis ::
      pool.getTransactions Block.maxTransactions))
    (fits : BlockHeader.serializedSize + 4 +
      P.sizeOf [templateCoinbase P M s coinbaseOutputHash nowMillis] ≤ P.maxBlockSize.toNat)
    (root : block.header.merkleRoot ≠ 0) {time : UInt64} {nonce : UInt32}
    (meets : MeetsTarget transform ((block.header.setTimestamp time).setNonce nonce)) (now : UInt64) :
    s'.Extends P now { block with header := (block.header.setTimestamp time).setNonce nonce } ↔
      Timely P s' now time ∧
        Placed P s' (((block.header.setTimestamp time).setNonce nonce).getHash P.sha256) := by
  obtain ⟨-, -, -, -, header⟩ := buildBlockTemplate_spec built
  have version : block.header.version = BlockHeader.currentVersion := by
    rw [header]
    rfl
  have prev : block.header.prevBlockHash = s'.mBestChain.blockHash := by
    rw [tip, header]
    rfl
  have height : block.header.height = UInt32.ofNat (s'.mBestChain.height + 1) := by
    rw [tip, header]
    rfl
  have target : block.header.bits = s'.getNextBits P := by
    rw [bits, header]
    rfl
  let found := (block.header.setTimestamp time).setNonce nonce
  have numbered : found.version ≠ 0 := by
    change block.header.version ≠ 0
    rw [version]
    decide
  have works : P.checkProofOfWork (found.getHash P.sha256) found.bits = true := by
    rw [pow, digest]
    exact meets
  have merkleRoot : found.merkleRoot = block.header.merkleRoot := rfl
  have leafRoot : found.leafRoot = block.header.leafRoot := rfl
  have body := body_in_order values subsidy built together ids fits merkleRoot leafRoot now
  have extended : s'.Extends P now { block with header := found } ↔ _ :=
    rep'.extends_iff_timely values money numbered prev height target works root body.2 body.1
  exact extended

/-- **When a mined block is accepted.** A template is built unless the pool leaves
its coinbase no place. The block that comes out of the nonce loop while the tip is
the one the template was built on becomes the tip if and only if the time written
last is past the median of the chain and genesis and not far ahead of the clock, and
there is a place for the block. -/
theorem mined_block_accepted_iff (sound : P.SoundGenesis) (values : P.ValueOutExact)
    (money : P.MoneyRangeComplete) {transform : Sha256Transform}
    (digest : P.sha256 = sha256Raw transform) (pow : P.ChecksTarget)
    (subsidy : ∀ height, (P.getBlockSubsidy height).toNat < 2 ^ 63) {s₀ : ChainState}
    (opened : ChainState.initializeState P (.ofDisk .empty) = .ok s₀) {ops later : List NodeOp}
    (fine : Deliverable P (calls (ops ++ later))) (ran : s₀.life P ops = .ok s)
    (ran' : s.life P later = .ok s') (still : s'.mBestChain.blockHash = s.mBestChain.blockHash)
    (A : RateArith Rate) (maxBytes : Nat) (changes : List Mempool.Op)
    (pooled : pool = Mempool.run A P (.new A maxBytes) changes)
    (minable : pool.Minable P s'.mUTXOSet.view (UInt32.ofNat (s.mBestChain.height + 1)))
    (ids : FreshIds s' (templateCoinbase P M s coinbaseOutputHash nowMillis ::
      pool.getTransactions Block.maxTransactions))
    (fits : BlockHeader.serializedSize + 4 +
      P.sizeOf [templateCoinbase P M s coinbaseOutputHash nowMillis] ≤ P.maxBlockSize.toNat)
    (nowSeconds : UInt64) :
    let built := buildBlockTemplate P M s (some pool) coinbaseOutputHash nowMillis nowSeconds
    (built.isSome = true ↔ ¬ Crowded P M s pool coinbaseOutputHash nowMillis) ∧
      ∀ block, built = some block → block.header.merkleRoot ≠ 0 →
        ∀ nonceStart unset startMs readings found now,
          runNonceLoop transform (block.header.setNonce nonceStart) unset startMs readings =
            some (true, found) →
          runNonceLoop transform (block.header.setNonce nonceStart) unset startMs
            readings.dropLast = none →
          (s'.Extends P now { block with header := found } ↔
            Timely P s' now (lastTime readings (templateTime P s nowSeconds) nonceStart 0) ∧
              Placed P s' (found.getHash P.sha256)) := by
  refine ⟨buildBlockTemplate_isSome, fun block built root nonceStart unset startMs readings found
    now solved whole => ?_⟩
  obtain ⟨⟨L', rep'⟩, tip, bits, past⟩ := template_of_tip sound opened fine ran ran' still
  obtain ⟨-, -, -, -, header⟩ := buildBlockTemplate_spec built
  have start : block.header.timestamp = templateTime P s nowSeconds := by
    rw [header]
    rfl
  obtain ⟨nonce, same⟩ := runNonceLoop_found solved whole
  have mined : found = (block.header.setTimestamp
      (lastTime readings (templateTime P s nowSeconds) nonceStart 0)).setNonce nonce := by
    rw [same, ← start]
    rfl
  have meets := runNonceLoop_meets solved
  have height : block.header.height = UInt32.ofNat (s.mBestChain.height + 1) := by
    rw [header]
    rfl
  have wf : pool.WF := pooled ▸ ((Mempool.consistent_new A maxBytes).run changes).toWF
  have payments : ∀ h e, pool.mIndex.lookup h = some e → e.tx.isCoinbase = false :=
    pooled ▸ Mempool.payment_of_run changes (Mempool.consistent_new A maxBytes) nofun
  have together := minable.together wf payments Block.maxTransactions
  rw [← height] at together
  rw [mined] at meets ⊢
  exact extends_mined_iff rep' tip bits values money digest pow subsidy built together ids fits root
    meets now

end Miner

/-! ### A network in which work is done -/

namespace SmallNetwork

/-- A compression in which the nonce counts; the last nonce makes the greatest digest. -/
def nonceTransform : Sha256Transform := fun state block i =>
  if i = 0 then if block 13 = 0xFFFFFFFF then 0xFFFFFFFF else state 0
  else if i = 7 then state 7 + block 13
  else state i

def minedGenesis : Block := mine 0 0 2 [mint 1 50] (by simp [Block.maxTransactions])

def minedNetwork : Params := { smallNetwork with
  powLimitCompact := 0x2100FFFF
  genesisHash := minedGenesis.getHash (sha256Raw nonceTransform)
  buildGenesisBlock := minedGenesis
  checkProofOfWork blockHash bits :=
    decide (blockHash.toNat ≤ (ArithUint256.setCompact bits).1.value)
  sha256 := sha256Raw nonceTransform }

/-- A node of that network, just opened. -/
def minedNode : ChainState :=
  match ChainState.initializeState minedNetwork (.ofDisk .empty) with
  | .ok s => s
  | .error _ => .ofDisk .empty

/-- A block on its genesis, at a time of eleven. -/
def minedOne : Block :=
  let block := mine minedNetwork.genesisHash 1 1 [mint 2 10] fits_two
  { block with header := { block.header with bits := 0x2100FFFF } }

/-- The node with that block, its clock at eleven. -/
def onMinedOne : ChainState := (minedNode.acceptBlock minedNetwork 11 minedOne).2

/-- Every coinbase has the same id. -/
def maker : TxMaker where
  make i o := ⟨[i], [o], 3, true, by simp [Transaction.maxInputs], by simp [Transaction.maxOutputs]⟩
  inputs _ _ := rfl
  outputs _ _ := rfl
  coinbase _ _ _ _ := rfl

/-- A template built on it at a time, over an empty pool. -/
def templateAt (now : UInt64) : Option Block :=
  Miner.buildBlockTemplate minedNetwork maker onMinedOne (some (.new rates 1000)) 7 now now

/-- A turn while the clock stands still. -/
def turnAt (now : UInt64) : Miner.Reading := ⟨true, false, none, now, now, now⟩

def unset : Miner.Prepared := ⟨fun _ => 0, fun _ => 0, fun _ => 0⟩

theorem minedNode_opened :
    ChainState.initializeState minedNetwork (.ofDisk .empty) = .ok minedNode := by
  have ok : (ChainState.initializeState minedNetwork (.ofDisk .empty)).isOk = true := by
    decide +kernel
  unfold minedNode
  cases opened : ChainState.initializeState minedNetwork (.ofDisk .empty) with
  | ok s => rfl
  | error e => simp [opened, Except.isOk, Except.toBool] at ok

theorem minedNode_lives :
    minedNode.life minedNetwork [.call (.acceptBlock 11 minedOne)] = .ok onMinedOne := rfl

theorem soundGenesis_minedNetwork : minedNetwork.SoundGenesis :=
  ⟨by decide +kernel, by decide +kernel, by decide +kernel⟩

theorem checksTarget_minedNetwork : minedNetwork.ChecksTarget := fun _ _ => decide_eq_true_iff

theorem nothing_pooled (maxCount : Nat) :
    Mempool.getTransactions maxCount (Mempool.new rates 1000) = [] := by
  rw [Mempool.getTransactions_eq, Mempool.ranked]
  simp [Mempool.new]

/-- The template is that of a miner without a pool. -/
theorem templateAt_eq (now : UInt64) :
    templateAt now = Miner.buildBlockTemplate minedNetwork maker onMinedOne
      (none : Option (Mempool Int)) 7 now now := by
  obtain ⟨sizeProbe, first, -⟩ := Miner.exists_sizeProbe (P := minedNetwork)
    (Miner.templateHeader minedNetwork onMinedOne now)
    (Miner.templateCoinbase minedNetwork maker onMinedOne 7 now)
  rw [templateAt, Miner.buildBlockTemplate, Miner.buildBlockTemplate, nothing_pooled, first]
  rfl

/-- The template at eleven, of which the time is twelve. -/
def minedTemplate : Block :=
  (Miner.buildBlockTemplate minedNetwork maker onMinedOne (none : Option (Mempool Int)) 7 11
    11).getD minedOne

theorem templateAt_eleven : templateAt 11 = some minedTemplate := by
  rw [templateAt_eq]
  decide +kernel

end SmallNetwork

open SmallNetwork in
/-- A header that is found before the nonces run out. -/
theorem mined_block_becomes_tip :
    onMinedOne.Extends minedNetwork 11
      { minedTemplate with header := minedTemplate.header.setNonce 5 } := by
  have fine : Deliverable minedNetwork (calls ([.call (.acceptBlock 11 minedOne)] ++ [])) :=
    deliverable_accepts minedNetwork [(11, minedOne)]
  have minable : (Mempool.new rates 1000).Minable minedNetwork onMinedOne.mUTXOSet.view
      (UInt32.ofNat (onMinedOne.mBestChain.height + 1)) :=
    ⟨nofun, nofun, nofun, nofun⟩
  have ids : FreshIds onMinedOne (Miner.templateCoinbase minedNetwork maker onMinedOne 7 11 ::
      Mempool.getTransactions Block.maxTransactions (Mempool.new rates 1000)) := by
    rw [nothing_pooled]
    exact ⟨by decide +kernel, by decide +kernel⟩
  have rests : onMinedOne.life minedNetwork [] = .ok onMinedOne := rfl
  have pooled : Mempool.new rates 1000 =
    Mempool.run rates minedNetwork (.new rates 1000) [] := rfl
  have mined := Miner.mined_block_accepted_iff soundGenesis_minedNetwork
    ⟨valueOutExact_smallNetwork.exact, valueOutExact_smallNetwork.fails⟩
    moneyRangeComplete_smallNetwork rfl checksTarget_minedNetwork
    (fun _ => by change (10 : UInt64).toNat < 2 ^ 63; decide) minedNode_opened fine minedNode_lives
    rests rfl
    rates 1000 [] pooled minable ids (by decide +kernel)
    11
  exact (mined.2 minedTemplate templateAt_eleven (by decide +kernel) 5 unset 11 [turnAt 11] _ 11
    (by decide +kernel) (by decide +kernel)).mpr
      (by decide +kernel)

open SmallNetwork in
/-- The nonces run out, and the clock is at the median of the chain: the header is
found and the block refused. -/
theorem mined_block_refused :
    minedNode.life minedNetwork [.call (.acceptBlock 11 minedOne)] = .ok onMinedOne ∧
    templateAt 11 = some minedTemplate ∧ ∃ found,
      Miner.runNonceLoop nonceTransform (minedTemplate.header.setNonce 0xFFFFFFFF) unset 11
        [turnAt 11, turnAt 11] = some (true, found) ∧
      onMinedOne.mBestChain.blockHash = found.prevBlockHash ∧
      (onMinedOne.acceptBlock minedNetwork 11 { minedTemplate with header := found }).1 = false :=
  ⟨minedNode_lives, templateAt_eleven, { minedTemplate.header with timestamp := 11, nonce := 0 },
    by decide +kernel, by decide +kernel, by decide +kernel⟩

end QmaskCore
