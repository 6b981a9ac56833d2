import QmaskCore.Lib.OrderStatistics
import QmaskCore.Ledger.Headers

/-!
Median time along the active chain.

The times behind a block are a window of eleven that takes in one time for each
block. A block above the first is later than the median of its parent, and the
first joins a window of one, so the median never goes back
(`medianTime_mono`).
-/

namespace QmaskCore

/-- Times in their usual order. -/
local instance timeOrder : LinearOrder UInt64 where
  le_refl := UInt64.le_refl
  le_trans _ _ _ := UInt64.le_trans
  le_antisymm _ _ := UInt64.le_antisymm
  le_total := UInt64.le_total
  lt_iff_le_not_ge a b := by rw [UInt64.lt_iff_le_and_ne]; grind
  toDecidableLE := inferInstance

variable {P : Params}

theorem medianTime_eq_median (times : List UInt64) :
    ChainState.medianTime P times = OrderStatistics.median P.genesisTimestamp times := rfl

theorem length_pastTimes_le : ∀ (n : Nat) (blocks : List Block),
    (pastTimes P n blocks).length ≤ n := by
  intro n
  induction n with
  | zero => exact fun _ => Nat.le_refl 0
  | succ n ih =>
      intro blocks
      cases blocks with
      | nil => simp [pastTimes]
      | cons block blocks =>
          rw [pastTimes]
          split
          · simp
          · simpa using ih blocks

theorem pastTimes_ne_nil (n : Nat) (blocks : List Block) : pastTimes P (n + 1) blocks ≠ [] := by
  cases blocks with
  | nil => simp [pastTimes]
  | cons block blocks => simp [pastTimes]

/-- A shorter window is the first part of a longer one. -/
theorem pastTimes_eq_take : ∀ (n : Nat) (blocks : List Block),
    pastTimes P n blocks = (pastTimes P (n + 1) blocks).take n := by
  intro n
  induction n with
  | zero => exact fun _ => rfl
  | succ n ih =>
      intro blocks
      cases blocks with
      | nil => simp [pastTimes]
      | cons block blocks =>
          rw [pastTimes, pastTimes, List.take_succ_cons]
          split
          · simp
          · rw [← ih]

/-- A window of one: whatever comes in, the median is at least what was there. -/
theorem median_le_of_singleton (a b d : UInt64) :
    OrderStatistics.median d [a] ≤ OrderStatistics.median d [b, a] := by
  refine (OrderStatistics.le_median_iff (List.cons_ne_nil _ _)).mpr ?_
  rw [OrderStatistics.median_singleton, List.countP_cons, List.countP_cons_of_pos (by simp)]
  simp

/-- The median does not go back when a block follows a chain. -/
theorem medianTime_mono (sound : P.SoundGenesis)
    (genesisHash : P.buildGenesisBlock.getHash P.sha256 = P.genesisHash) {block : Block}
    {blocks : List Block} (next : follows P blocks block = true) :
    ChainState.medianTime P (pastTimes P ChainState.medianTimeSpan blocks) ≤
      ChainState.medianTime P (pastTimes P ChainState.medianTimeSpan (block :: blocks)) := by
  have linked := (height_of_follows next).2
  have later : blocks.length = 0 ∨
      ChainState.medianTime P (pastTimes P ChainState.medianTimeSpan blocks) <
        block.header.timestamp := by
    simp only [follows, Bool.and_eq_true, Bool.or_eq_true, decide_eq_true_eq,
      height_chainTip] at next
    exact next.1.1.2
  rw [show pastTimes P ChainState.medianTimeSpan (block :: blocks) = _ :: _ from rfl]
  simp only [medianTime_eq_median] at later ⊢
  cases blocks with
  | nil =>
      have some : block.header.prevBlockHash ≠ 0 := by
        rw [linked, show (chainTip P []).blockHash = P.genesisHash from genesisHash]
        exact sound.nonzero
      rw [if_neg some]
      exact median_le_of_singleton _ _ _
  | cons below blocks =>
      have above := (later.resolve_left (by simp)).le
      split
      · rwa [OrderStatistics.median_singleton]
      · rw [pastTimes_eq_take 10]
        exact OrderStatistics.median_le_median_slide (j := 5) (pastTimes_ne_nil _ _)
          (length_pastTimes_le _ _) above

/-- **Median time never goes back.** Whatever a node was asked before, the median
time of every active block above genesis is at least that of its parent. -/
theorem median_time_never_goes_back (sound : P.SoundGenesis) {s₀ : ChainState}
    (opened : ChainState.initializeState P (.ofDisk .empty) = .ok s₀) {ops : List NodeOp}
    (fine : Deliverable P (calls ops)) :
    ∃ s, s₀.life P ops = .ok s ∧ ∀ n < s.mBestChain.height, ∃ blockHash entry,
      s.ancestor n s.mBestChain.blockHash = some blockHash ∧
        s.readBlockIndex blockHash = some entry ∧
        s.getMedianTimePastLocked P entry.hashPrev ≤ s.getMedianTimePastLocked P blockHash := by
  obtain ⟨s, ran, rep, moves⟩ := lived sound opened fine
  have followed : Followed P ((Ledger.initial P).run P (calls ops)).blocks :=
    moves.keeps (p := fun L => Followed P L.blocks) Ledger.Move.followed trivial
  generalize (Ledger.initial P).run P (calls ops) = L at rep followed
  refine ⟨s, ran, fun n low => ?_⟩
  obtain ⟨block, below, pos, part, linked, -, back, read, -⟩ := rep.active low
  obtain ⟨next, -⟩ : Followed P (block :: below) := part ▸ followed.drop n
  refine ⟨_, _, back, read, ?_⟩
  have here := rep.timesFrom_eq (n := ChainState.medianTimeSpan) linked
  have parent := rep.timesFrom_eq (n := ChainState.medianTimeSpan) linked.2.2
  rw [← linked.2.1] at parent
  change ChainState.medianTime P (s.timesFrom _ block.header.prevBlockHash) ≤
    ChainState.medianTime P (s.timesFrom _ (chainTip P (block :: below)).blockHash)
  rw [here, parent]
  exact medianTime_mono sound rep.valid.genesisHash next

open SmallNetwork in
theorem median_time_never_goes_back_blockOne :
    ∃ s, node.life smallNetwork [.call (.acceptBlock 20 blockOne)] = .ok s ∧
      ∀ n < s.mBestChain.height, ∃ blockHash entry,
        s.ancestor n s.mBestChain.blockHash = some blockHash ∧
          s.readBlockIndex blockHash = some entry ∧
          s.getMedianTimePastLocked smallNetwork entry.hashPrev ≤
            s.getMedianTimePastLocked smallNetwork blockHash :=
  median_time_never_goes_back soundGenesis_smallNetwork node_opened
    (show Deliverable smallNetwork (calls [.call (.acceptBlock 20 blockOne)]) from
      deliverable_accepts smallNetwork [(20, blockOne)])

end QmaskCore
