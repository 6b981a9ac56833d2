import QmaskCore.Ledger.Reopened
import QmaskCore.Storage.ChainQueries

/-!
The height table and the walk through the index.

`mChainByHeight` is pushed, popped or cleared as the tip moves. In a state that
stands for a ledger it is either out of step with the tip or lists the active
chain (`Represents.table`), so every answer taken from it is that of the walk.
`walkDown_eq` and `getBlockHashesAfter_eq` give both as parts of the chain.
-/

namespace QmaskCore

/-- The state without its height table. -/
def ChainState.withoutTable (s : ChainState) : ChainState := { s with mChainByHeight := [] }

namespace Represents

variable {P : Params} {s : ChainState} {L : Ledger}

theorem withoutTable (rep : Represents P s L) : Represents P s.withoutTable L :=
  ⟨rep.ready, rep.valid, rep.tip, rep.stored, rep.absent, rep.undo, rep.coins, rep.cache, nofun,
    rep.files⟩

theorem getBlockHashByHeight_above (rep : Represents P s L) {height : Nat}
    (above : L.chain.length < height) : s.getBlockHashByHeightLocked height = none := by
  unfold ChainState.getBlockHashByHeightLocked
  rw [rep.ready, rep.height, if_neg (by simp), if_pos above]

/-- The active chain at a height, the walk up to it, and where it stops. -/
theorem walkDown_eq (rep : Represents P s L) : ∀ {n : Nat} {blocks : List Block},
    Ledger.Linked P L.tree blocks → n ≤ blocks.length →
    s.walkDown n (chainTip P blocks).blockHash =
      some ((tipHashes P blocks).take n, (chainTip P (blocks.drop n)).blockHash) := by
  intro n
  induction n with
  | zero => exact fun _ _ => rfl
  | succ n ih =>
      intro blocks linked le
      obtain ⟨pos, read⟩ := rep.readTop linked
      rw [ChainState.walkDown, read]
      cases blocks with
      | nil => simp at le
      | cons block blocks =>
          obtain ⟨-, prev, below⟩ := linked
          change (s.walkDown n block.header.prevBlockHash).map _ = _
          rw [prev, ih below (Nat.le_of_succ_le_succ le)]
          rfl

/-- What comes after a block: the chain above it when it is active, and nothing otherwise. -/
theorem getBlockHashesAfter_eq (rep : Represents P s L) (after : Bytes32) (max : Nat) :
    s.getBlockHashesAfter after max =
      match L.tree after with
      | none => []
      | some st =>
          if st.height < L.chain.length ∧
              (chainTip P (L.blocks.drop (L.chain.length - st.height))).blockHash = after then
            ((tipHashes P L.blocks).take (L.chain.length - st.height)).reverse.take max
          else [] := by
  have whole := L.length_blocks
  have tip : s.mBestChain.blockHash = (chainTip P L.blocks).blockHash := by rw [rep.tip, Ledger.tip]
  unfold ChainState.getBlockHashesAfter
  rw [rep.ready, rep.height]
  by_cases none : max = 0
  · rw [if_pos (.inr none), none]
    cases L.tree after with
    | none => rfl
    | some st => simp
  · rw [if_neg (by simp [none])]
    by_cases top : after = s.mBestChain.blockHash
    · rw [if_pos top, top, tip, rep.valid.linked.top rep.valid.genesisHash rep.valid.genesis]
      simp
    · rw [if_neg top]
      cases stored : L.tree after with
      | none => rw [rep.absent stored]
      | some st =>
          obtain ⟨pos, read, -⟩ := rep.stored stored
          rw [read]
          dsimp only [BlockData.indexEntry]
          by_cases above : L.chain.length < st.height
          · rw [rep.getBlockHashByHeight_above above, if_pos (by simp), if_neg (by omega)]
          · rw [rep.getBlockHashByHeight_eq (by omega)]
            by_cases active :
                (chainTip P (L.blocks.drop (L.chain.length - st.height))).blockHash = after
            · by_cases low : st.height < L.chain.length
              · have walked := rep.walkDown_eq rep.valid.linked
                  (n := L.chain.length - st.height) (by omega)
                rw [← tip, active] at walked
                have table : s.mChainByHeight.length = L.chain.length + 1 →
                    s.mChainByHeight.drop (st.height + 1) =
                      ((tipHashes P L.blocks).take (L.chain.length - st.height)).reverse := by
                  intro full
                  rw [rep.table full, List.drop_reverse, length_tipHashes, whole,
                    show L.chain.length + 1 - (st.height + 1) = L.chain.length - st.height by omega]
                rw [if_neg (by simp [active]), if_neg (by omega)]
                by_cases full : s.mChainByHeight.length = L.chain.length + 1
                · rw [if_pos full, if_pos ⟨low, active⟩, table full]
                · rw [if_neg full, if_pos ⟨low, active⟩, walked]
                  exact if_neg (by simp)
              · -- A block of the chain at the height of the tip is the tip.
                have same : L.chain.length - st.height = 0 := by omega
                rw [same, List.drop_zero] at active
                exact absurd (active.symm.trans tip.symm) top
            · rw [if_pos (by simpa using active), if_neg fun both => active both.2]

end Represents

/-- **The height table never lies.** A new node comes up after every clean
restart, and whatever it was asked before, every answer it takes from its height
table is the one of the walk through the block index. -/
theorem height_table_never_lies {P : Params} (sound : P.SoundGenesis) {s₀ : ChainState}
    (opened : ChainState.initializeState P (.ofDisk .empty) = .ok s₀) {ops : List NodeOp}
    (fine : Deliverable P (calls ops)) :
    ∃ s, s₀.life P ops = .ok s ∧
      (∀ height, s.getBlockHashByHeightLocked height =
        s.withoutTable.getBlockHashByHeightLocked height) ∧
      ∀ after max, s.getBlockHashesAfter after max = s.withoutTable.getBlockHashesAfter after max := by
  obtain ⟨s, ran, rep, -⟩ := lived sound opened fine
  refine ⟨s, ran, fun height => ?_, fun after max => ?_⟩
  · by_cases above : ((Ledger.initial P).run P (calls ops)).chain.length < height
    · rw [rep.getBlockHashByHeight_above above, rep.withoutTable.getBlockHashByHeight_above above]
    · rw [rep.getBlockHashByHeight_eq (by omega), rep.withoutTable.getBlockHashByHeight_eq (by omega)]
  · rw [rep.getBlockHashesAfter_eq, rep.withoutTable.getBlockHashesAfter_eq]

open SmallNetwork in
theorem height_table_never_lies_reopened :
    let ops := [.call (.acceptBlock 20 blockOne), .restart]
    ∃ s, node.life smallNetwork ops = .ok s ∧
      (∀ height, s.getBlockHashByHeightLocked height =
        s.withoutTable.getBlockHashByHeightLocked height) ∧
      ∀ after max, s.getBlockHashesAfter after max = s.withoutTable.getBlockHashesAfter after max :=
  height_table_never_lies soundGenesis_smallNetwork node_opened
    (deliverable_accepts smallNetwork [(20, blockOne)])

end QmaskCore
