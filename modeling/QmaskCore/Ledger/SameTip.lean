import QmaskCore.Ledger.Reopened

/-!
States with the same tip.

What a node asks of the header of its next block depends on the headers of its
chain alone, and the hash of the tip tells these: a block is stored for good, or
replaced by one with its header (`Moves.outlived`). So a node whose tip is the one
it had asks the same, whatever came in between (`Moves.headers_eq`).
-/

namespace QmaskCore

variable {P : Params}

/-! ### Chains with the same headers -/

section

variable {blocks blocks' : List Block}

theorem chainTip_congr : ∀ {blocks blocks' : List Block},
    blocks.map (·.header) = blocks'.map (·.header) → chainTip P blocks = chainTip P blocks' := by
  intro blocks
  induction blocks with
  | nil =>
      intro blocks' same
      rw [List.map_eq_nil_iff.mp same.symm]
  | cons block blocks ih =>
      intro blocks' same
      cases blocks' with
      | nil => cases same
      | cons block' blocks' =>
          obtain ⟨header, below⟩ := List.cons.inj same
          have work : (topBlock P blocks).work = (topBlock P blocks').work :=
            congrArg ChainTip.chainWork (ih below)
          have length : blocks.length = blocks'.length := by
            simpa using congrArg List.length below
          rw [chainTip, chainTip, StoredBlock.toTip, StoredBlock.toTip]
          simp only [topBlock, Block.getHash, header, work, length]

theorem pastTimes_congr : ∀ {n : Nat} {blocks blocks' : List Block},
    blocks.map (·.header) = blocks'.map (·.header) → pastTimes P n blocks = pastTimes P n blocks' := by
  intro n
  induction n with
  | zero => exact fun _ => rfl
  | succ n ih =>
      intro blocks blocks' same
      cases blocks with
      | nil => rw [List.map_eq_nil_iff.mp same.symm]
      | cons block blocks =>
          cases blocks' with
          | nil => cases same
          | cons block' blocks' =>
              obtain ⟨header, below⟩ := List.cons.inj same
              have header : block.header = block'.header := header
              rw [pastTimes, pastTimes, ih below, header]

theorem nextBits_congr (same : blocks.map (·.header) = blocks'.map (·.header)) :
    nextBits P blocks = nextBits P blocks' := by
  have back (n : Nat) : chainTip P (blocks.drop n) = chainTip P (blocks'.drop n) :=
    chainTip_congr (by rw [List.map_drop, List.map_drop, same])
  rw [nextBits, nextBits, chainTip_congr same, back]

end

namespace Ledger

variable {given direct : Block → Prop} {L L' : Ledger}

/-! ### What is stored -/

/-- Under each hash there still is a block with the header it had. -/
def Outlived (L L' : Ledger) : Prop :=
  ∀ blockHash st, L.tree blockHash = some st →
    ∃ st', L'.tree blockHash = some st' ∧ st'.block.header = st.block.header

theorem Move.outlived (move : Move P given direct L L') (valid : L.Valid P) : L.Outlived L' := by
  intro blockHash st stored
  cases move with
  | store mem new found admitted =>
      refine ⟨st, ?_, rfl⟩
      rw [tree_put, if_neg, stored]
      rintro rfl
      cases new.symm.trans stored
  | connect known =>
      rw [valid.tree_connect known]
      exact ⟨st, stored, rfl⟩
  | @connectDirect block mem agrees =>
      rcases tree_connect (P := P) L block with same | ⟨-, same⟩
      · rw [same]
        exact ⟨st, stored, rfl⟩
      · rw [same, tree_put]
        split
        · rename_i here
          exact ⟨_, rfl, (agrees st (here ▸ stored)).symm⟩
        · exact ⟨st, stored, rfl⟩
  | disconnect =>
      rw [tree_disconnect]
      exact ⟨st, stored, rfl⟩

theorem Moves.outlived (moves : Moves P given direct L L') (shaped : ∀ b, direct b → b.Shaped)
    (valid : L.Valid P) : L.Outlived L' := by
  induction moves with
  | refl => exact fun _ _ stored => ⟨_, stored, rfl⟩
  | tail before move ih =>
      intro blockHash st stored
      obtain ⟨st₁, stored₁, same₁⟩ := ih _ _ stored
      obtain ⟨st₂, stored₂, same₂⟩ := move.outlived (Moves.valid before shaped valid) _ _ stored₁
      exact ⟨st₂, stored₂, same₂.trans same₁⟩

/-- A block above genesis is not found under the hash of genesis. -/
theorem Valid.ne_tip_nil (valid : L.Valid P) {block : Block} {blocks : List Block}
    (linked : Linked P L.tree (block :: blocks)) :
    (chainTip P (block :: blocks)).blockHash ≠ (chainTip P []).blockHash := by
  intro same
  have stored : L.tree (chainTip P (block :: blocks)).blockHash = some _ := linked.1
  rw [same, valid.tip_nil, valid.genesis] at stored
  have height := congrArg (·.height) (Option.some.inj stored)
  cases height

/-- Two chains with one top, the later in a tree that outlived the other's, have the
same headers. -/
theorem Outlived.headers_eq (outlived : L.Outlived L') (valid : L.Valid P) (valid' : L'.Valid P) :
    ∀ {blocks blocks' : List Block}, Linked P L.tree blocks → Linked P L'.tree blocks' →
    (chainTip P blocks).blockHash = (chainTip P blocks').blockHash →
    blocks.map (·.header) = blocks'.map (·.header) := by
  intro blocks
  induction blocks with
  | nil =>
      intro blocks' _ linked' same
      cases blocks' with
      | nil => rfl
      | cons block' blocks' => exact absurd same.symm (valid'.ne_tip_nil linked')
  | cons block blocks ih =>
      intro blocks' linked linked' same
      cases blocks' with
      | nil => exact absurd same (valid.ne_tip_nil linked)
      | cons block' blocks' =>
          obtain ⟨stored, prev, below⟩ := linked
          obtain ⟨stored', prev', below'⟩ := linked'
          obtain ⟨st, kept, header⟩ := outlived _ _ stored
          rw [show block.getHash P.sha256 = block'.getHash P.sha256 from same, stored'] at kept
          obtain rfl := Option.some.inj kept
          have header : block'.header = block.header := header
          have rest := ih below below' (by rw [← prev, ← prev', header])
          rw [List.map_cons, List.map_cons, header, rest]

/-- However many steps lie in between, a chain with the tip it had has the headers
it had. -/
theorem Moves.headers_eq (moves : Moves P given direct L L') (shaped : ∀ b, direct b → b.Shaped)
    (valid : L.Valid P) (still : (L'.tip P).blockHash = (L.tip P).blockHash) :
    L.blocks.map (·.header) = L'.blocks.map (·.header) := by
  have valid' := Moves.valid moves shaped valid
  exact (moves.outlived shaped valid).headers_eq valid valid' valid.linked valid'.linked still.symm

end Ledger

/-! ### Nodes -/

section

variable {s s' : ChainState} {L L' : Ledger}

theorem Represents.getMedianTimePast_eq (rep : Represents P s L) (above : s.mBestChain.height ≠ 0) :
    s.getMedianTimePast P =
      ChainState.medianTime P (pastTimes P ChainState.medianTimeSpan L.blocks) := by
  rw [ChainState.getMedianTimePast, rep.ready, if_neg (by simpa using above),
    ChainState.getMedianTimePastLocked, rep.tip]
  exact congrArg (ChainState.medianTime P) (rep.timesFrom_eq rep.valid.linked)

/-- What a template takes from the chain it takes from the headers. -/
theorem Represents.template_eq (rep : Represents P s L) (rep' : Represents P s' L')
    (same : L.blocks.map (·.header) = L'.blocks.map (·.header)) :
    s'.mBestChain = s.mBestChain ∧ s'.getNextBits P = s.getNextBits P ∧
      s'.getMedianTimePast P = s.getMedianTimePast P := by
  have tip : s'.mBestChain = s.mBestChain := by
    rw [rep.tip, rep'.tip]
    exact (chainTip_congr same).symm
  refine ⟨tip, ?_, ?_⟩
  · rw [ChainState.getNextBits, ChainState.getNextBits, rep.expectedBits_eq, rep'.expectedBits_eq,
      nextBits_congr same]
  · by_cases bottom : s.mBestChain.height = 0
    · rw [ChainState.getMedianTimePast, ChainState.getMedianTimePast, tip, if_pos (.inr bottom),
        if_pos (.inr bottom)]
    · rw [rep.getMedianTimePast_eq bottom, rep'.getMedianTimePast_eq (tip ▸ bottom),
        pastTimes_congr same]

/-- A node whose tip is the one it had builds on it as it did. -/
theorem template_of_tip (sound : P.SoundGenesis) {s₀ : ChainState}
    (opened : ChainState.initializeState P (.ofDisk .empty) = .ok s₀) {ops later : List NodeOp}
    (fine : Deliverable P (calls (ops ++ later))) (ran : s₀.life P ops = .ok s)
    (ran' : s.life P later = .ok s') (still : s'.mBestChain.blockHash = s.mBestChain.blockHash) :
    (∃ L', Represents P s' L') ∧ s'.mBestChain = s.mBestChain ∧
      s'.getNextBits P = s.getNextBits P ∧ s'.getMedianTimePast P = s.getMedianTimePast P := by
  have split : calls (ops ++ later) = calls ops ++ calls later := List.filterMap_append
  have before : ∀ op ∈ calls ops, op ∈ calls (ops ++ later) := fun op mem => by
    rw [split]
    exact List.mem_append_left _ mem
  have after : ∀ op ∈ calls later, op ∈ calls (ops ++ later) := fun op mem => by
    rw [split]
    exact List.mem_append_right _ mem
  obtain ⟨_, lived, rep, saved, moves⟩ := life_sim fine before (represents_initial sound opened)
    (saved_initial sound opened) Ledger.holds_initial
  obtain rfl := Except.ok.inj (ran.symm.trans lived)
  have holds := Ledger.Moves.holds moves fine.shaped (represents_initial sound opened).valid
    Ledger.holds_initial
  obtain ⟨_, lived', rep', -, moves'⟩ := life_sim fine after rep saved holds
  obtain rfl := Except.ok.inj (ran'.symm.trans lived')
  refine ⟨⟨_, rep'⟩, rep.template_eq rep' ?_⟩
  refine Ledger.Moves.headers_eq moves' fine.shaped rep.valid ?_
  rw [← rep.tip, ← rep'.tip]
  exact still

end

end QmaskCore
