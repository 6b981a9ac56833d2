import QmaskCore.Ledger.HeightTable
import Mathlib.Order.Bounds.Basic

/-!
Two nodes look for the last block they share.

`locatorHeights` lists the heights `GetBlockLocator` asks for: one by one at
first, then in steps that double. `Paced` is the invariant of the loop; it keeps
the step within its 32 bits and bounds the number of entries. The locator of one
node answers at the other with the first height of the list where both are on
the same block (`Represents.findForkPoint_eq`).
-/

namespace QmaskCore

/-! ### The heights of a locator -/

/-- The heights the loop of `GetBlockLocator` lists, `none` when the fuel runs out. -/
def locatorHeights : Nat → Nat → UInt32 → Nat → Option (List Nat)
  | 0, _, _, _ => none
  | fuel + 1, height, step, size =>
      if height = 0 then some [0]
      else
        let step := if 10 < size + 1 then step * 2 else step
        (locatorHeights fuel (height - step.toNat) step (size + 1)).map (height :: ·)

/-- After `size` entries the step is the power of two of those past the tenth,
and the height leaves room to double it. -/
structure Paced (height : Nat) (step : UInt32) (size : Nat) : Prop where
  step_eq : step.toNat = 2 ^ (size - 10)
  room : height = 0 ∨ height + 2 ^ (size - 10 + 1) ≤ 2 ^ 32 + (1 - size)
  size_le : size ≤ 41

theorem paced_tip {height : Nat} (fits : height < 2 ^ 32) : Paced height 1 0 :=
  ⟨rfl, .inr (by omega), by omega⟩

/-- Above genesis at most forty entries are listed. -/
theorem Paced.lt {height size : Nat} {step : UInt32} (paced : Paced height step size)
    (above : height ≠ 0) : size < 41 := by
  have room := paced.room.resolve_left above
  by_contra many
  have large : 2 ^ 32 ≤ 2 ^ (size - 10 + 1) := Nat.pow_le_pow_right (by decide) (by omega)
  omega

theorem Paced.next {height size : Nat} {step : UInt32} (paced : Paced height step size)
    (above : height ≠ 0) :
    Paced (height - (if 10 < size + 1 then step * 2 else step).toNat)
      (if 10 < size + 1 then step * 2 else step) (size + 1) := by
  have room := paced.room.resolve_left above
  have short := paced.lt above
  by_cases far : 10 < size + 1
  · have power : 2 ^ (size + 1 - 10) = 2 ^ (size - 10) * 2 := by
      rw [← Nat.pow_succ]
      congr 1
      omega
    have double : (step * 2).toNat = 2 ^ (size + 1 - 10) := by
      rw [UInt32.toNat_mul, paced.step_eq, power]
      refine Nat.mod_eq_of_lt ?_
      rw [Nat.pow_succ] at room
      change 2 ^ (size - 10) * 2 < 2 ^ 32
      omega
    rw [if_pos far, double]
    refine ⟨double, ?_, short⟩
    rw [Nat.pow_succ] at room ⊢
    rw [power]
    omega
  · have once : size - 10 = 0 := by omega
    have single : step.toNat = 1 := by rw [paced.step_eq, once]; rfl
    have still : size + 1 - 10 = 0 := by omega
    rw [if_neg far, single]
    refine ⟨by rw [single, still]; rfl, ?_, short⟩
    rw [once] at room
    rw [still]
    omega

/-- What the loop lists from a height on. -/
structure ListsDown (height size : Nat) (heights : List Nat) : Prop where
  first : heights.head? = some height
  last : heights.getLast? = some 0
  down : heights.Pairwise (· > ·)
  within : ∀ h ∈ heights, h ≤ height
  few : heights.length + size ≤ 42
  near : ∀ d, d + size ≤ 10 → d ≤ height → height - d ∈ heights

theorem locatorHeights_spec : ∀ (fuel : Nat) {height size : Nat} {step : UInt32},
    Paced height step size → 42 ≤ fuel + size →
    ∃ heights, locatorHeights fuel height step size = some heights ∧
      ListsDown height size heights := by
  intro fuel
  induction fuel with
  | zero =>
      intro height size step paced enough
      have short := paced.size_le
      omega
  | succ fuel ih =>
      intro height size step paced enough
      rw [locatorHeights]
      by_cases bottom : height = 0
      · refine ⟨[0], if_pos bottom, ?_⟩
        have short := paced.size_le
        subst bottom
        exact ⟨rfl, rfl, List.pairwise_singleton _ _, by simp, by simp; omega, by simp⟩
      · rw [if_neg bottom]
        dsimp only
        have paced' := paced.next bottom
        have single : size < 10 → (if 10 < size + 1 then step * 2 else step).toNat = 1 := by
          intro early
          rw [paced'.step_eq, show size + 1 - 10 = 0 by omega]
          rfl
        have positive : 0 < (if 10 < size + 1 then step * 2 else step).toNat := by
          rw [paced'.step_eq]
          exact Nat.two_pow_pos _
        generalize (if 10 < size + 1 then step * 2 else step) = step' at paced' single positive
        obtain ⟨heights, listed, lists⟩ := ih paced' (by omega)
        refine ⟨height :: heights, by rw [listed]; rfl, rfl, ?_, ?_, ?_, ?_, ?_⟩
        · rw [List.getLast?_cons, lists.last]
          rfl
        · refine List.pairwise_cons.mpr ⟨fun h mem => ?_, lists.down⟩
          have below := lists.within h mem
          omega
        · intro h mem
          rcases List.mem_cons.mp mem with rfl | mem
          · exact Nat.le_refl _
          · exact (lists.within h mem).trans (Nat.sub_le _ _)
        · have few := lists.few
          rw [List.length_cons]
          omega
        · intro d early le
          cases d with
          | zero => exact List.mem_cons_self
          | succ d =>
              refine List.mem_cons_of_mem _ ?_
              have reached := lists.near d (by omega) (by rw [single (by omega)]; omega)
              rw [single (by omega)] at reached
              rwa [show height - (d + 1) = height - 1 - d by omega]

/-- The first of a list that goes down is the greatest. -/
theorem isGreatest_of_find? {p : Nat → Bool} : ∀ {heights : List Nat} {h : Nat},
    heights.Pairwise (· > ·) → heights.find? p = some h →
    IsGreatest {h | h ∈ heights ∧ p h = true} h := by
  intro heights h down found
  obtain ⟨holds, before, after, rfl, none⟩ := List.find?_eq_some_iff_append.mp found
  refine ⟨⟨by simp, holds⟩, ?_⟩
  rintro h' ⟨mem, holds'⟩
  rcases List.mem_append.mp mem with early | late
  · exact absurd holds' (by simpa using none h' early)
  · rcases List.mem_cons.mp late with rfl | below
    · exact Nat.le_refl _
    · exact Nat.le_of_lt ((List.pairwise_cons.mp (List.pairwise_append.mp down).2.1).1 h' below)

theorem locatorHeights_mono : ∀ {fuel fuel' height size : Nat} {step : UInt32} {heights : List Nat},
    fuel ≤ fuel' → locatorHeights fuel height step size = some heights →
    locatorHeights fuel' height step size = some heights := by
  intro fuel
  induction fuel with
  | zero => exact fun _ listed => nomatch listed
  | succ fuel ih =>
      intro fuel' height size step heights le listed
      obtain ⟨fuel', rfl⟩ := Nat.exists_eq_succ_of_ne_zero (show fuel' ≠ 0 by omega)
      rw [locatorHeights] at listed ⊢
      split
      · rwa [if_pos (by assumption)] at listed
      · rw [if_neg (by assumption)] at listed
        dsimp only at listed ⊢
        obtain ⟨rest, below, rfl⟩ := Option.map_eq_some_iff.mp listed
        rw [ih (Nat.le_of_succ_le_succ le) below]
        rfl

/-! ### The active chain by height -/

/-- The hash of the active block at a height. -/
def Ledger.hashAt (P : Params) (L : Ledger) (height : Nat) : Bytes32 :=
  (chainTip P (L.blocks.drop (L.chain.length - height))).blockHash

namespace Ledger

variable {P : Params} {L : Ledger}

theorem hashAt_zero (valid : L.Valid P) : L.hashAt P 0 = P.genesisHash := by
  rw [hashAt, Nat.sub_zero, ← L.length_blocks, List.drop_length]
  exact valid.tip_nil

theorem hashAt_length : L.hashAt P L.chain.length = (L.tip P).blockHash := by
  rw [hashAt, Nat.sub_self]
  rfl

/-- The active block at a height is stored with that height. -/
theorem tree_hashAt (valid : L.Valid P) {height : Nat} (le : height ≤ L.chain.length) :
    ∃ st, L.tree (L.hashAt P height) = some st ∧ st.height = height := by
  refine ⟨_, (valid.linked.drop _).top valid.genesisHash valid.genesis, ?_⟩
  rw [height_topBlock, List.length_drop, L.length_blocks]
  omega

theorem length_lt (valid : L.Valid P) : L.chain.length < 2 ^ 32 := by
  have level := valid.height_of_tree valid.tree_tip
  rw [height_topBlock, L.length_blocks] at level
  rw [← level]
  exact UInt32.toNat_lt _

/-- The hashes above a height, the lowest first. -/
theorem reverse_take_tipHashes {height : Nat} (le : height ≤ L.chain.length) :
    ((tipHashes P L.blocks).take (L.chain.length - height)).reverse =
      (List.range' (height + 1) (L.chain.length - height)).map (L.hashAt P) := by
  have whole := L.length_blocks
  have long : ((tipHashes P L.blocks).take (L.chain.length - height)).length =
      L.chain.length - height := by
    rw [List.length_take, length_tipHashes]
    omega
  refine List.ext_getElem? fun n => ?_
  by_cases inside : n < L.chain.length - height
  · rw [List.getElem?_reverse (by rw [long]; exact inside), long, List.getElem?_map,
      List.getElem?_range' inside, List.getElem?_take_of_lt (by omega),
      getElem?_tipHashes P _ _ (by omega), Option.map_some, hashAt]
    congr 4
    omega
  · rw [List.getElem?_eq_none (by rw [List.length_reverse, long]; omega),
      List.getElem?_eq_none (by rw [List.length_map, List.length_range']; omega)]

end Ledger

/-! ### What the queries answer -/

/-- Blocks of two ledgers with one hash have one height. -/
def HashesApart (L L' : Ledger) : Prop :=
  ∀ {blockHash st st'}, L.tree blockHash = some st → L'.tree blockHash = some st' →
    st.height = st'.height

namespace Represents

variable {P : Params} {s s' : ChainState} {L L' : Ledger}

theorem getBlockHashByHeight_hashAt (rep : Represents P s L) {height : Nat}
    (le : height ≤ L.chain.length) :
    s.getBlockHashByHeightLocked height = some (L.hashAt P height) :=
  rep.getBlockHashByHeight_eq le

theorem locatorFrom_eq (rep : Represents P s L) : ∀ {fuel height size : Nat} {step : UInt32},
    height ≤ L.chain.length → s.locatorFrom fuel height step size =
      (locatorHeights fuel height step size).map (·.map (L.hashAt P)) := by
  intro fuel
  induction fuel with
  | zero => exact fun _ => rfl
  | succ fuel ih =>
      intro height size step le
      rw [ChainState.locatorFrom, rep.getBlockHashByHeight_hashAt le, locatorHeights]
      dsimp only
      by_cases bottom : height = 0
      · rw [if_pos bottom, if_pos bottom, bottom]
        rfl
      · rw [if_neg bottom, if_neg bottom, ih ((Nat.sub_le _ _).trans le), Option.map_map,
          Option.map_map]
        rfl

/-- The locator ends and lists the chain from the tip down to genesis. -/
theorem getBlockLocator_eq (rep : Represents P s L) : ∃ heights,
    ListsDown L.chain.length 0 heights ∧
      ∀ fuel, 42 ≤ fuel → s.getBlockLocator fuel = some (heights.map (L.hashAt P)) := by
  obtain ⟨heights, listed, lists⟩ :=
    locatorHeights_spec 42 (paced_tip (Ledger.length_lt rep.valid)) (Nat.le_refl 42)
  refine ⟨heights, lists, fun fuel enough => ?_⟩
  rw [ChainState.getBlockLocator, rep.ready, if_neg (by simp), rep.height,
    rep.locatorFrom_eq (Nat.le_refl _), locatorHeights_mono enough listed]
  rfl

/-- The other node answers with the first height listed where both are on one block. -/
theorem findForkPoint_eq (rep : Represents P s' L') (valid : L.Valid P) (apart : HashesApart L L') :
    ∀ {heights : List Nat}, (∀ h ∈ heights, h ≤ L.chain.length) →
    s'.findForkPoint (heights.map (L.hashAt P)) =
      heights.find? fun h => s'.getBlockHashByHeightLocked h = some (L.hashAt P h) := by
  intro heights within
  rw [ChainState.findForkPoint, rep.ready, if_neg (by simp)]
  induction heights with
  | nil => rfl
  | cons h heights ih =>
      obtain ⟨st, here, level⟩ := Ledger.tree_hashAt valid (within h List.mem_cons_self)
      have rest := ih fun h mem => within h (List.mem_cons_of_mem _ mem)
      rw [List.map_cons, List.findSome?_cons, List.find?_cons]
      cases there : L'.tree (L.hashAt P h) with
      | none =>
          have off : s'.getBlockHashByHeightLocked h ≠ some (L.hashAt P h) := by
            intro on
            by_cases above : L'.chain.length < h
            · rw [rep.getBlockHashByHeight_above above] at on
              cases on
            · rw [rep.getBlockHashByHeight_hashAt (not_lt.mp above)] at on
              obtain ⟨st', stored, -⟩ := Ledger.tree_hashAt rep.valid (not_lt.mp above)
              rw [Option.some.inj on, there] at stored
              cases stored
          rw [rep.absent there, rest]
          simp [off]
      | some st' =>
          obtain ⟨pos, read, -⟩ := rep.stored there
          have same : st'.height = h := (apart here there).symm.trans level
          rw [read]
          dsimp only [BlockData.indexEntry]
          rw [same, rest]
          by_cases on : s'.getBlockHashByHeightLocked h = some (L.hashAt P h)
          · rw [if_pos on, decide_eq_true on]
          · rw [if_neg on, decide_eq_false on]

theorem getBlockHashesAfter_hashAt (rep : Represents P s L) {height : Nat}
    (le : height ≤ L.chain.length) (max : Nat) :
    s.getBlockHashesAfter (L.hashAt P height) max =
      ((List.range' (height + 1) (L.chain.length - height)).take max).map (L.hashAt P) := by
  obtain ⟨st, stored, level⟩ := Ledger.tree_hashAt rep.valid le
  rw [rep.getBlockHashesAfter_eq, stored]
  dsimp only
  rw [level]
  by_cases low : height < L.chain.length
  · rw [if_pos ⟨low, rfl⟩, Ledger.reverse_take_tipHashes le, List.map_take]
  · rw [if_neg fun both => low both.1, show L.chain.length - height = 0 by omega,
      List.range'_zero, List.take_nil, List.map_nil]

end Represents

/-- Among the blocks brought to two nodes no hash is shared by two headers. -/
def BroughtApart (P : Params) (ops ops' : List NodeOp) : Prop :=
  ∀ block ∈ P.buildGenesisBlock :: brought (calls ops),
    ∀ block' ∈ P.buildGenesisBlock :: brought (calls ops'),
      block.getHash P.sha256 = block'.getHash P.sha256 → block.header = block'.header

theorem Ledger.Holds.mem {P : Params} {L : Ledger} {ops : List ChainOp}
    (holds : L.Holds P (Given ops) (Direct ops)) {blockHash : Bytes32} {st : StoredBlock}
    (stored : L.tree blockHash = some st) : st.block ∈ P.buildGenesisBlock :: brought ops := by
  rcases holds _ st stored with genesis | ⟨now, given⟩ | direct
  · rw [genesis]
    exact List.mem_cons_self
  · exact List.mem_cons_of_mem _ (List.mem_filterMap.mpr ⟨_, given, rfl⟩)
  · exact List.mem_cons_of_mem _ (List.mem_filterMap.mpr ⟨_, direct, rfl⟩)

theorem BroughtApart.hashesApart {P : Params} {ops ops' : List NodeOp} {L L' : Ledger}
    (apart : BroughtApart P ops ops') (valid : L.Valid P) (valid' : L'.Valid P)
    (holds : L.Holds P (Given (calls ops)) (Direct (calls ops)))
    (holds' : L'.Holds P (Given (calls ops')) (Direct (calls ops'))) : HashesApart L L' := by
  intro blockHash st st' stored stored'
  have same : st.block.header = st'.block.header :=
    apart _ (holds.mem stored) _ (holds'.mem stored')
      ((valid.planted stored).keyed.trans (valid'.planted stored').keyed.symm)
  rw [← valid.height_of_tree stored, ← valid'.height_of_tree stored', same]

/-- Both nodes are on one block at a height. -/
def ChainState.SharedAt (A B : ChainState) (height : Nat) : Prop :=
  A.getBlockHashByHeightLocked height ≠ none ∧
    A.getBlockHashByHeightLocked height = B.getBlockHashByHeightLocked height

/-- What two nodes find out about each other with one locator. -/
structure ChainState.FindsFork (P : Params) (A B : ChainState) (heights : List Nat)
    (locator : List Bytes32) (fork : Nat) : Prop where
  ends : ∀ fuel, 64 ≤ fuel → A.getBlockLocator fuel = some locator
  listed : locator.map some = heights.map A.getBlockHashByHeightLocked
  down : heights.Pairwise (· > ·)
  first : heights.head? = some A.mBestChain.height ∧ locator.head? = some A.mBestChain.blockHash
  last : heights.getLast? = some 0 ∧ locator.getLast? = some P.genesisHash
  few : locator.length ≤ 64
  answer : B.findForkPoint locator = some fork
  greatest : IsGreatest {height | height ∈ heights ∧ A.SharedAt B height} fork
  near : ∀ top, IsGreatest {height | A.SharedAt B height} top →
    A.mBestChain.height ≤ top + 10 → fork = top
  onward : ∀ after, B.getBlockHashByHeightLocked fork = some after → ∀ max,
    (B.getBlockHashesAfter after max).map some =
      ((List.range' (fork + 1) (B.mBestChain.height - fork)).take max).map
        B.getBlockHashByHeightLocked

theorem Represents.findsFork {P : Params} {A B : ChainState} {L L' : Ledger}
    (rep : Represents P A L) (rep' : Represents P B L') (apart : HashesApart L L') :
    ∃ heights locator fork, ChainState.FindsFork P A B heights locator fork := by
  obtain ⟨heights, lists, ends⟩ := rep.getBlockLocator_eq
  have within : ∀ h ∈ heights, A.getBlockHashByHeightLocked h = some (L.hashAt P h) :=
    fun h mem => rep.getBlockHashByHeight_hashAt (lists.within h mem)
  have shared (h : Nat) (mem : h ∈ heights) : A.SharedAt B h ↔
      B.getBlockHashByHeightLocked h = some (L.hashAt P h) := by
    rw [ChainState.SharedAt, within h mem]
    exact ⟨fun both => both.2.symm, fun same => ⟨by simp, same.symm⟩⟩
  have bottom : 0 ∈ heights := List.mem_of_getLast? lists.last
  have answer := rep'.findForkPoint_eq rep.valid apart lists.within
  obtain ⟨fork, found⟩ : ∃ fork, heights.find? (fun h =>
      B.getBlockHashByHeightLocked h = some (L.hashAt P h)) = some fork := by
    refine Option.isSome_iff_exists.mp (List.find?_isSome.mpr ⟨0, bottom, ?_⟩)
    rw [decide_eq_true_eq, rep'.getBlockHashByHeight_hashAt (Nat.zero_le _),
      Ledger.hashAt_zero rep.valid, Ledger.hashAt_zero rep'.valid]
  have greatest : IsGreatest {height | height ∈ heights ∧ A.SharedAt B height} fork := by
    have top := isGreatest_of_find? lists.down found
    have same : {height | height ∈ heights ∧ A.SharedAt B height} =
        {h | h ∈ heights ∧ decide (B.getBlockHashByHeightLocked h = some (L.hashAt P h)) = true} := by
      ext h
      exact and_congr_right fun mem => (shared h mem).trans decide_eq_true_iff.symm
    rw [same]
    exact top
  refine ⟨heights, heights.map (L.hashAt P), fork, ?_⟩
  constructor
  · exact fun fuel enough => ends fuel (by omega)
  · rw [List.map_map]
    exact List.map_congr_left fun h mem => (within h mem).symm
  · exact lists.down
  · rw [List.head?_map, lists.first, rep.height, rep.tip, ← Ledger.hashAt_length]
    exact ⟨rfl, rfl⟩
  · rw [List.getLast?_map, lists.last, Option.map_some, Ledger.hashAt_zero rep.valid]
    exact ⟨rfl, rfl⟩
  · have few := lists.few
    rw [List.length_map]
    omega
  · exact answer.trans found
  · exact greatest
  · intro top highest close
    rw [rep.height] at close
    have le : top ≤ L.chain.length := by
      by_contra above
      exact highest.1.1 (rep.getBlockHashByHeight_above (not_le.mp above))
    have listed := lists.near (L.chain.length - top) (by omega) (by omega)
    rw [show L.chain.length - (L.chain.length - top) = top by omega] at listed
    exact Nat.le_antisymm (highest.2 greatest.1.2) (greatest.2 ⟨listed, highest.1⟩)
  · intro after on max
    have le : fork ≤ L'.chain.length := by
      by_contra above
      rw [rep'.getBlockHashByHeight_above (not_le.mp above)] at on
      cases on
    rw [rep'.getBlockHashByHeight_hashAt le] at on
    rw [← Option.some.inj on, rep'.getBlockHashesAfter_hashAt le, rep'.height, List.map_map]
    refine List.map_congr_left fun h mem => ?_
    have range := List.mem_range'_1.mp (List.mem_of_mem_take mem)
    exact (rep'.getBlockHashByHeight_hashAt (by omega)).symm

/-- **A locator finds the fork.** Of two new nodes on one genesis, each after any
life of its own, the second answers the locator of the first with the greatest
listed height where both are on one block, the fork itself when it is near, and
then hands out its chain from there on. -/
theorem locator_finds_fork {P : Params} (sound : P.SoundGenesis) {s₀ : ChainState}
    (opened : ChainState.initializeState P (.ofDisk .empty) = .ok s₀) {ops ops' : List NodeOp}
    (fine : Deliverable P (calls ops)) (fine' : Deliverable P (calls ops'))
    (apart : BroughtApart P ops ops') :
    ∃ A B, s₀.life P ops = .ok A ∧ s₀.life P ops' = .ok B ∧
      ∃ heights locator fork, ChainState.FindsFork P A B heights locator fork := by
  obtain ⟨A, ran, rep, moves⟩ := lived sound opened fine
  obtain ⟨B, ran', rep', moves'⟩ := lived sound opened fine'
  have start := (represents_initial sound opened).valid
  have holds := Ledger.Moves.holds moves fine.shaped start Ledger.holds_initial
  have holds' := Ledger.Moves.holds moves' fine'.shaped start Ledger.holds_initial
  exact ⟨A, B, ran, ran', rep.findsFork rep'
    (apart.hashesApart rep.valid rep'.valid holds holds')⟩

open SmallNetwork in
theorem locator_finds_fork_blockOne :
    ∃ A B, node.life smallNetwork [.call (.acceptBlock 20 blockOne)] = .ok A ∧
      node.life smallNetwork [.restart] = .ok B ∧
      ∃ heights locator fork, ChainState.FindsFork smallNetwork A B heights locator fork :=
  locator_finds_fork soundGenesis_smallNetwork node_opened
    (deliverable_accepts smallNetwork [(20, blockOne)]) (deliverable_accepts smallNetwork [])
    (by unfold BroughtApart; decide +kernel)

end QmaskCore
