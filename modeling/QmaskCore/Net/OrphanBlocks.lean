import QmaskCore.Ledger.Extends

/-!
Blocks that come before their parents.

`OrphanPool` is the table a node parks such blocks in, with the order they came
in; it holds the newest `maxOrphanBlocks` of them. `onBlock` is the callback for
a block from a peer: the block is accepted, parked or dropped, and once it is
accepted the blocks that waited for it follow. `callbacks_refine` says what a
whole run of it comes to: the chain state is that of `AcceptBlock` called on
blocks that came, and nothing in the table is there twice.
-/

namespace QmaskCore

/-! ### The table -/

/-- `MAX_ORPHAN_BLOCKS`. -/
def maxOrphanBlocks : Nat := 500

/-- `gOrphanBlocks` and `gOrphanOrder`. Blocks under one key stay in the order
they were inserted in, and `find` gives the first of them. -/
structure OrphanPool where
  gOrphanBlocks : List (Bytes32 × Block)
  gOrphanOrder : List Bytes32

namespace OrphanPool

def empty : OrphanPool := ⟨[], []⟩

def equalRange (parentHash : Bytes32) (pool : OrphanPool) : List Block :=
  (pool.gOrphanBlocks.filter fun orphan => orphan.1 = parentHash).map (·.2)

/-- The loop that makes room for one more. -/
def makeRoom : List Bytes32 → List (Bytes32 × Block) → OrphanPool
  | [], blocks => ⟨blocks, []⟩
  | oldestParent :: order, blocks =>
      if maxOrphanBlocks ≤ blocks.length then
        makeRoom order (blocks.eraseP fun orphan => orphan.1 = oldestParent)
      else ⟨blocks, oldestParent :: order⟩

def parkOrphanBlock (sha256 : List UInt8 → Bytes32) (parentHash : Bytes32) (block : Block)
    (pool : OrphanPool) : OrphanPool :=
  if (pool.equalRange parentHash).any fun other => other.getHash sha256 = block.getHash sha256 then
    pool
  else
    let room := makeRoom pool.gOrphanOrder pool.gOrphanBlocks
    ⟨room.gOrphanBlocks ++ [(parentHash, block)], room.gOrphanOrder ++ [parentHash]⟩

def takeOrphansOf (parentHash : Bytes32) (pool : OrphanPool) : List Block × OrphanPool :=
  (pool.equalRange parentHash,
    ⟨pool.gOrphanBlocks.filter fun orphan => orphan.1 ≠ parentHash,
      pool.gOrphanOrder.filter (· ≠ parentHash)⟩)

end OrphanPool

/-! ### The callback -/

/-- What `onBlock` works on: the chain state, the table, how often it called
`AcceptBlock` and what it gave to `BroadcastBlock`. -/
structure BlockIntake where
  chainState : ChainState
  orphans : OrphanPool
  calls : Nat
  relayed : List Block

namespace BlockIntake

section

variable (P : Params) (clock : Nat → UInt64)

/-- `AcceptBlock`, at the time its call reads, and the relay of what is accepted. -/
def accept (block : Block) (k : BlockIntake) : Bool × BlockIntake :=
  let (accepted, chainState) := k.chainState.acceptBlock P (clock k.calls) block
  (accepted, { k with
    chainState := chainState
    calls := k.calls + 1
    relayed := if accepted then k.relayed ++ [block] else k.relayed })

/-- The blocks that waited for one parent. The `frontier` lists its back first. -/
def acceptWaiting : List Block → List Bytes32 → BlockIntake → List Bytes32 × BlockIntake
  | [], frontier, k => (frontier, k)
  | child :: waiting, frontier, k =>
      let childHash := child.getHash P.sha256
      if k.chainState.mBlockData.hasBlock childHash then acceptWaiting waiting frontier k
      else
        match k.accept P clock child with
        | (false, k) => acceptWaiting waiting frontier k
        | (true, k) => acceptWaiting waiting (childHash :: frontier) k

/-- The loop over the `frontier`. -/
def drain : Nat → List Bytes32 → BlockIntake → List Bytes32 × BlockIntake
  | 0, frontier, k => (frontier, k)
  | _ + 1, [], k => ([], k)
  | fuel + 1, parent :: frontier, k =>
      let (waiting, orphans) := k.orphans.takeOrphansOf parent
      let (frontier, k) := acceptWaiting P clock waiting frontier { k with orphans }
      drain fuel frontier k

/-- `onBlock`, up to the mempool, and whether it asks the peer for more blocks.
Each turn of the loop takes one hash and adds one for a parked block at most. -/
def onBlock (block : Block) (k : BlockIntake) : BlockIntake × Bool :=
  let blockHash := block.getHash P.sha256
  if k.chainState.mBlockData.hasBlock blockHash then (k, false)
  else
    let prevHash := block.header.prevBlockHash
    if k.chainState.mBlockData.hasBlock prevHash = false then
      if P.maxBlockSize.toNat < block.getSerializedSize P then (k, false)
      else if P.checkProofOfWork blockHash block.header.bits = false then (k, false)
      else if block.header.height.toNat ≤ k.chainState.mBestChain.height then (k, false)
      else ({ k with orphans := k.orphans.parkOrphanBlock P.sha256 prevHash block }, true)
    else
      match k.accept P clock block with
      | (false, k) => (k, false)
      | (true, k) => ((drain P clock (k.orphans.gOrphanBlocks.length + 1) [blockHash] k).2, true)

/-- Blocks that come from peers one after the other. -/
def onBlocks (blocks : List Block) (k : BlockIntake) : BlockIntake :=
  blocks.foldl (fun k block => (k.onBlock P clock block).1) k

end

/-- A node that has parked nothing. -/
def new (chainState : ChainState) : BlockIntake := ⟨chainState, .empty, 0, []⟩

end BlockIntake

/-! ### What the table keeps -/

namespace OrphanPool

variable {sha256 : List UInt8 → Bytes32} {pool : OrphanPool} {block : Block} {parentHash : Bytes32}

/-- The order lists the parents, there are not too many blocks, and none is there twice. -/
structure Tidy (sha256 : List UInt8 → Bytes32) (pool : OrphanPool) : Prop where
  order : pool.gOrphanOrder = pool.gOrphanBlocks.map (·.1)
  few : pool.gOrphanBlocks.length ≤ maxOrphanBlocks
  once : (pool.gOrphanBlocks.map fun orphan => (orphan.1, orphan.2.getHash sha256)).Nodup

theorem tidy_empty : Tidy sha256 empty := ⟨rfl, Nat.zero_le _, List.nodup_nil⟩

/-- Room is made by letting the oldest blocks go. -/
theorem makeRoom_map : ∀ blocks : List (Bytes32 × Block),
    makeRoom (blocks.map (·.1)) blocks =
      let left := blocks.drop (blocks.length + 1 - maxOrphanBlocks)
      ⟨left, left.map (·.1)⟩ := by
  intro blocks
  induction blocks with
  | nil => rfl
  | cons oldest blocks ih =>
      rw [List.map_cons, makeRoom]
      split
      · rename_i full
        rw [List.eraseP_cons_of_pos (by simp), ih]
        rw [List.length_cons] at full ⊢
        rw [show blocks.length + 1 + 1 - maxOrphanBlocks = blocks.length + 1 - maxOrphanBlocks + 1 by
          omega, List.drop_succ_cons]
      · rename_i room
        rw [List.length_cons] at room ⊢
        rw [show blocks.length + 1 + 1 - maxOrphanBlocks = 0 by omega, List.drop_zero]
        rfl

/-- A block is parked unless it is there already, the oldest going when there are too many. -/
theorem parkOrphanBlock_eq (order : pool.gOrphanOrder = pool.gOrphanBlocks.map (·.1)) :
    pool.parkOrphanBlock sha256 parentHash block =
      if (parentHash, block.getHash sha256) ∈
        pool.gOrphanBlocks.map fun orphan => (orphan.1, orphan.2.getHash sha256) then pool
      else
        let left := pool.gOrphanBlocks.drop (pool.gOrphanBlocks.length + 1 - maxOrphanBlocks)
        ⟨left ++ [(parentHash, block)], left.map (·.1) ++ [parentHash]⟩ := by
  have there : ((pool.equalRange parentHash).any fun other =>
      other.getHash sha256 = block.getHash sha256) = true ↔
      (parentHash, block.getHash sha256) ∈
        pool.gOrphanBlocks.map fun orphan => (orphan.1, orphan.2.getHash sha256) := by
    simp only [equalRange, List.any_map, List.any_filter, List.any_eq_true, List.mem_map,
      Prod.mk.injEq, Function.comp_apply, Bool.and_eq_true, decide_eq_true_eq]
  rw [parkOrphanBlock, order, makeRoom_map]
  by_cases parked : (parentHash, block.getHash sha256) ∈
      pool.gOrphanBlocks.map fun orphan => (orphan.1, orphan.2.getHash sha256)
  · rw [if_pos parked, if_pos (there.mpr parked)]
  · rw [if_neg parked, if_neg (mt there.mp parked)]

theorem Tidy.park (tidy : pool.Tidy sha256) (parentHash : Bytes32) (block : Block) :
    (pool.parkOrphanBlock sha256 parentHash block).Tidy sha256 := by
  rw [parkOrphanBlock_eq tidy.order]
  split
  · exact tidy
  · rename_i apart
    have few := tidy.few
    have sub := (pool.gOrphanBlocks.drop_sublist
      (pool.gOrphanBlocks.length + 1 - maxOrphanBlocks)).map
        fun orphan => (orphan.1, orphan.2.getHash sha256)
    refine ⟨by simp, ?_, ?_⟩
    · rw [List.length_append, List.length_drop, List.length_singleton]
      have room : 0 < maxOrphanBlocks := by decide
      omega
    · rw [List.map_append, List.map_singleton]
      refine List.nodup_append.mpr ⟨tidy.once.sublist sub, List.nodup_singleton _, ?_⟩
      intro a mem b listed same
      rw [same, List.mem_singleton.mp listed] at mem
      exact apart (sub.subset mem)

theorem Tidy.take (tidy : pool.Tidy sha256) (parentHash : Bytes32) :
    (pool.takeOrphansOf parentHash).2.Tidy sha256 where
  order := by
    rw [takeOrphansOf, tidy.order, List.filter_map]
    rfl
  few := (List.length_filter_le _ _).trans tidy.few
  once := tidy.once.sublist (List.filter_sublist.map _)

/-- What is taken and what is left is what was there. -/
theorem length_take (parentHash : Bytes32) (pool : OrphanPool) :
    (pool.takeOrphansOf parentHash).1.length +
      (pool.takeOrphansOf parentHash).2.gOrphanBlocks.length = pool.gOrphanBlocks.length := by
  have split := List.length_eq_length_filter_add
    (l := pool.gOrphanBlocks) (fun orphan => decide (orphan.1 = parentHash))
  rw [split, takeOrphansOf, equalRange, List.length_map]
  simp

end OrphanPool

/-! ### What one call does -/

namespace BlockIntake

variable {P : Params} {clock : Nat → UInt64}

/-- Each block that waited adds one hash at most and is relayed once at most. -/
theorem acceptWaiting_spec (P : Params) (clock : Nat → UInt64) :
    ∀ (waiting : List Block) (frontier : List Bytes32) (k : BlockIntake),
    (acceptWaiting P clock waiting frontier k).2.orphans = k.orphans ∧
      (acceptWaiting P clock waiting frontier k).1.length ≤ waiting.length + frontier.length ∧
      ∃ more, (acceptWaiting P clock waiting frontier k).2.relayed = k.relayed ++ more ∧
        more.Sublist waiting := by
  intro waiting
  induction waiting with
  | nil => exact fun frontier k => ⟨rfl, by simp [acceptWaiting], [], by simp [acceptWaiting]⟩
  | cons child waiting ih =>
      intro frontier k
      rw [acceptWaiting, List.length_cons]
      split
      · obtain ⟨same, le, more, relayed, sub⟩ := ih frontier k
        exact ⟨same, by omega, more, relayed, sub.cons child⟩
      · have same : (k.accept P clock child).2.orphans = k.orphans := rfl
        have more : (k.accept P clock child).2.relayed =
            if (k.accept P clock child).1 then k.relayed ++ [child] else k.relayed := rfl
        generalize k.accept P clock child = out at same more ⊢
        rcases out with ⟨_ | _, k'⟩
        · obtain ⟨same', le, rest, relayed, sub⟩ := ih frontier k'
          exact ⟨same'.trans same, by dsimp only; omega, rest, relayed.trans (by rw [more]; rfl),
            sub.cons child⟩
        · obtain ⟨same', le, rest, relayed, sub⟩ := ih (child.getHash P.sha256 :: frontier) k'
          rw [List.length_cons] at le
          refine ⟨same'.trans same, by dsimp only; omega, child :: rest, relayed.trans ?_,
            sub.cons_cons child⟩
          rw [more, if_pos rfl, List.append_assoc]
          rfl

/-- As many turns as there are hashes and parked blocks are enough. -/
theorem drain_ends : ∀ (fuel : Nat) (frontier : List Bytes32) (k : BlockIntake),
    frontier.length + k.orphans.gOrphanBlocks.length ≤ fuel →
      (drain P clock fuel frontier k).1 = [] := by
  intro fuel
  induction fuel with
  | zero =>
      intro frontier k enough
      exact List.eq_nil_of_length_eq_zero (Nat.eq_zero_of_le_zero (le_of_add_le_left enough))
  | succ fuel ih =>
      intro frontier k enough
      cases frontier with
      | nil => rfl
      | cons parent frontier =>
          have fewer := OrphanPool.length_take parent k.orphans
          have turn := acceptWaiting_spec P clock
            (k.orphans.takeOrphansOf parent).1 frontier
            { k with orphans := (k.orphans.takeOrphansOf parent).2 }
          have left := congrArg (fun pool => pool.gOrphanBlocks.length) turn.1
          rw [List.length_cons] at enough
          refine ih _ _ (le_trans (Nat.add_le_add turn.2.1 left.le) ?_)
          dsimp only
          omega

/-- The loop parks nothing. -/
theorem drain_parked (P : Params) (clock : Nat → UInt64) :
    ∀ (fuel : Nat) (frontier : List Bytes32) (k : BlockIntake),
    (drain P clock fuel frontier k).2.orphans.gOrphanBlocks.Sublist k.orphans.gOrphanBlocks := by
  intro fuel
  induction fuel with
  | zero => exact fun frontier k => List.Sublist.refl _
  | succ fuel ih =>
      intro frontier k
      cases frontier with
      | nil => exact List.Sublist.refl _
      | cons parent frontier =>
          have turn := acceptWaiting_spec P clock
            (k.orphans.takeOrphansOf parent).1 frontier
            { k with orphans := (k.orphans.takeOrphansOf parent).2 }
          have left := congrArg (fun pool => pool.gOrphanBlocks) turn.1
          have fewer : (k.orphans.takeOrphansOf parent).2.gOrphanBlocks.Sublist
              k.orphans.gOrphanBlocks := List.filter_sublist
          exact (ih _ _).trans (left.symm ▸ fewer)

/-- The loop relays blocks that were parked, each once at most. -/
theorem drain_relayed (P : Params) (clock : Nat → UInt64) :
    ∀ (fuel : Nat) (frontier : List Bytes32) (k : BlockIntake),
    ∃ more, (drain P clock fuel frontier k).2.relayed = k.relayed ++ more ∧
      more.length ≤ k.orphans.gOrphanBlocks.length ∧
      ∀ b ∈ more, b ∈ k.orphans.gOrphanBlocks.map (·.2) := by
  intro fuel
  induction fuel with
  | zero => exact fun frontier k => ⟨[], by simp [drain]⟩
  | succ fuel ih =>
      intro frontier k
      cases frontier with
      | nil => exact ⟨[], by simp [drain]⟩
      | cons parent frontier =>
          have fewer := OrphanPool.length_take parent k.orphans
          obtain ⟨same, -, more, relayed, sub⟩ := acceptWaiting_spec P clock
            (k.orphans.takeOrphansOf parent).1 frontier
            { k with orphans := (k.orphans.takeOrphansOf parent).2 }
          obtain ⟨rest, relayed', le, parked⟩ := ih (acceptWaiting P clock
            (k.orphans.takeOrphansOf parent).1 frontier
            { k with orphans := (k.orphans.takeOrphansOf parent).2 }).1 (acceptWaiting P clock
            (k.orphans.takeOrphansOf parent).1 frontier
            { k with orphans := (k.orphans.takeOrphansOf parent).2 }).2
          rw [same] at le parked
          refine ⟨more ++ rest, ?_, ?_, fun b mem => ?_⟩
          · rw [← List.append_assoc]
            exact relayed'.trans (congrArg (· ++ rest) relayed)
          · have few := sub.length_le
            rw [List.length_append]
            dsimp only at le
            omega
          · rcases List.mem_append.mp mem with here | there
            · obtain ⟨orphan, listed, equal⟩ := List.mem_map.mp (sub.subset here)
              exact List.mem_map.mpr ⟨orphan, List.mem_of_mem_filter listed, equal⟩
            · obtain ⟨orphan, listed, equal⟩ := List.mem_map.mp (parked b there)
              exact List.mem_map.mpr ⟨orphan, List.mem_of_mem_filter listed, equal⟩

/-- A call relays the block it was given and blocks that were parked, each once at most. -/
theorem onBlock_relayed (P : Params) (clock : Nat → UInt64) (block : Block) (k : BlockIntake) :
    ∃ more, (k.onBlock P clock block).1.relayed = k.relayed ++ more ∧
      more.length ≤ k.orphans.gOrphanBlocks.length + 1 ∧
      ∀ b ∈ more, b = block ∨ b ∈ k.orphans.gOrphanBlocks.map (·.2) := by
  have none' {k' : BlockIntake} (same : k'.relayed = k.relayed) : ∃ more,
      k'.relayed = k.relayed ++ more ∧ more.length ≤ k.orphans.gOrphanBlocks.length + 1 ∧
        ∀ b ∈ more, b = block ∨ b ∈ k.orphans.gOrphanBlocks.map (·.2) :=
    ⟨[], by simp [same]⟩
  rw [onBlock]
  dsimp only
  split
  · exact none' rfl
  · split
    · split
      · exact none' rfl
      · split
        · exact none' rfl
        · split
          · exact none' rfl
          · exact none' rfl
    · have same : (k.accept P clock block).2.orphans = k.orphans := rfl
      have more : (k.accept P clock block).2.relayed =
          if (k.accept P clock block).1 then k.relayed ++ [block] else k.relayed := rfl
      generalize k.accept P clock block = out at same more ⊢
      rcases out with ⟨_ | _, k'⟩
      · exact none' (more.trans (by rfl))
      · obtain ⟨rest, relayed, le, parked⟩ := drain_relayed P clock
          (k'.orphans.gOrphanBlocks.length + 1) [block.getHash P.sha256] k'
        dsimp only at same more
        rw [same] at le parked
        refine ⟨block :: rest, relayed.trans ?_, Nat.succ_le_succ le, fun b mem => ?_⟩
        · rw [more, if_pos rfl, List.append_assoc]
          rfl
        · exact (List.mem_cons.mp mem).imp_right (parked b)

end BlockIntake

/-! ### A run of the callback -/

/-- An accepted block is stored afterwards. -/
theorem Ledger.stored_of_accept {P : Params} {L : Ledger} (valid : L.Valid P) {now : UInt64}
    {block : Block} (accepted : (L.accept P now block).1 = true) :
    ((L.accept P now block).2.tree (block.getHash P.sha256)).isSome = true := by
  cases known : L.tree (block.getHash P.sha256) with
  | some st =>
      rw [accept, known, if_pos (by simp), known]
      rfl
  | none =>
      cases found : L.tree block.header.prevBlockHash with
      | none => simp [accept, known, found] at accepted
      | some parent =>
          have admitted : L.admits P now block parent = true := by
            by_contra refused
            have refused := Bool.eq_false_iff.mpr refused
            simp [accept, known, found, refused] at accepted
          rw [stored_of_admits valid known found admitted]
          rfl

namespace BlockIntake

variable {P : Params} {s₀ : ChainState} {clock : Nat → UInt64} {came : List Block}
  {k : BlockIntake} {block : Block}

/-- What holds of a node that got blocks from its peers: its chain state is that
of `AcceptBlock` on some of them, in some order; the table is in order and holds
others of them, each under its parent and fit to be parked; and what was relayed
is stored and was relayed once. -/
structure Kept (P : Params) (s₀ : ChainState) (came : List Block) (k : BlockIntake) : Prop where
  reached : ∃ deliveries, k.chainState = s₀.acceptAll P deliveries ∧ ∀ d ∈ deliveries, d.2 ∈ came
  tidy : k.orphans.Tidy P.sha256
  parked : ∀ orphan ∈ k.orphans.gOrphanBlocks, orphan.2 ∈ came ∧
    orphan.1 = orphan.2.header.prevBlockHash ∧ orphan.2.Readable P ∧
    P.checkProofOfWork (orphan.2.getHash P.sha256) orphan.2.header.bits = true
  stored : ∀ b ∈ k.relayed, b ∈ came ∧
    k.chainState.mBlockData.hasBlock (b.getHash P.sha256) = true
  once : (k.relayed.map fun b => b.getHash P.sha256).Nodup

theorem kept_new (P : Params) (s₀ : ChainState) (came : List Block) : (new s₀).Kept P s₀ came where
  reached := ⟨[], rfl, by simp⟩
  tidy := OrphanPool.tidy_empty
  parked := by simp [new, OrphanPool.empty]
  stored := by simp [new]
  once := by simp [new]

namespace Kept

/-- Taking blocks out of the table touches nothing else. -/
theorem take (kept : k.Kept P s₀ came) (parent : Bytes32) :
    ({ k with orphans := (k.orphans.takeOrphansOf parent).2 } : BlockIntake).Kept P s₀ came ∧
      ∀ b ∈ (k.orphans.takeOrphansOf parent).1, b ∈ came := by
  refine ⟨⟨kept.reached, kept.tidy.take parent, fun orphan mem => ?_, kept.stored, kept.once⟩,
    fun b mem => ?_⟩
  · exact kept.parked orphan (List.mem_of_mem_filter mem)
  · obtain ⟨orphan, listed, rfl⟩ := List.mem_map.mp mem
    exact (kept.parked orphan (List.mem_of_mem_filter listed)).1

variable (sound : P.SoundGenesis)
  (opened : ChainState.initializeState P (.ofDisk .empty) = .ok s₀)

include sound opened

/-- A block that is not stored is accepted or refused; what is stored stays. -/
theorem accept (kept : k.Kept P s₀ came) (mem : block ∈ came)
    (new : k.chainState.mBlockData.hasBlock (block.getHash P.sha256) = false) :
    (k.accept P clock block).2.Kept P s₀ came := by
  obtain ⟨deliveries, same, listed⟩ := kept.reached
  obtain ⟨L, rep, moves⟩ := accepted deliveries sound opened
  rw [← same] at rep
  have matched : Matches P (k.chainState.acceptBlock P (clock k.calls) block)
      (L.accept P (clock k.calls) block) := rep.acceptBlock_sim
  have stays {blockHash : Bytes32} (known : k.chainState.mBlockData.hasBlock blockHash = true) :
      (k.chainState.acceptBlock P (clock k.calls) block).2.mBlockData.hasBlock blockHash = true := by
    rw [rep.hasBlock_eq] at known
    obtain ⟨st, found⟩ := Option.isSome_iff_exists.mp known
    have further : Ledger.Moves P (fun _ => True) (fun _ => False) L
        (L.accept P (clock k.calls) block).2 := Ledger.accept_moves _ trivial L
    rw [matched.state.hasBlock_eq, further.tree_le rep.valid found]
    rfl
  refine ⟨⟨deliveries ++ [(clock k.calls, block)], ?_, ?_⟩, kept.tidy, kept.parked, ?_, ?_⟩
  · rw [ChainState.acceptAll, List.foldl_append]
    exact congrArg (fun s => (s.acceptBlock P (clock k.calls) block).2) same
  · simpa [or_imp, forall_and] using ⟨fun a b => listed (a, b), mem⟩
  · intro b relayed
    rw [BlockIntake.accept] at relayed ⊢
    dsimp only at relayed ⊢
    split at relayed
    · rename_i answer
      rcases List.mem_append.mp relayed with before | here
      · exact ⟨(kept.stored b before).1, stays (kept.stored b before).2⟩
      · rw [List.mem_singleton.mp here]
        refine ⟨mem, ?_⟩
        rw [matched.answer] at answer
        rw [matched.state.hasBlock_eq]
        exact Ledger.stored_of_accept rep.valid answer
    · exact ⟨(kept.stored b relayed).1, stays (kept.stored b relayed).2⟩
  · rw [BlockIntake.accept]
    dsimp only
    split
    · rw [List.map_append, List.map_singleton]
      refine List.nodup_append.mpr
        ⟨kept.once, List.nodup_singleton _, fun a before b here equal => ?_⟩
      obtain ⟨other, relayed, rfl⟩ := List.mem_map.mp before
      have known := (kept.stored other relayed).2
      rw [equal, List.mem_singleton.mp here, new] at known
      cases known
    · exact kept.once

theorem acceptWaiting : ∀ {waiting : List Block} {frontier : List Bytes32} {k : BlockIntake},
    k.Kept P s₀ came → (∀ b ∈ waiting, b ∈ came) →
    (BlockIntake.acceptWaiting P clock waiting frontier k).2.Kept P s₀ came := by
  intro waiting
  induction waiting with
  | nil => exact fun kept _ => kept
  | cons child waiting ih =>
      intro frontier k kept listed
      have here := listed child List.mem_cons_self
      have rest := fun b mem => listed b (List.mem_cons_of_mem _ mem)
      rw [BlockIntake.acceptWaiting]
      split
      · exact ih kept rest
      · rename_i new
        have kept' : (k.accept P clock child).2.Kept P s₀ came :=
          kept.accept sound opened here (Bool.eq_false_iff.mpr new)
        generalize k.accept P clock child = out at kept' ⊢
        rcases out with ⟨_ | _, k'⟩
        · exact ih kept' rest
        · exact ih kept' rest

theorem drain : ∀ {fuel : Nat} {frontier : List Bytes32} {k : BlockIntake}, k.Kept P s₀ came →
    (BlockIntake.drain P clock fuel frontier k).2.Kept P s₀ came := by
  intro fuel
  induction fuel with
  | zero => exact fun kept => kept
  | succ fuel ih =>
      intro frontier k kept
      cases frontier with
      | nil => exact kept
      | cons parent frontier =>
          obtain ⟨left, waiting⟩ := kept.take parent
          exact ih (left.acceptWaiting sound opened waiting)

/-- The step lemma: whatever comes, the node keeps all of it. -/
theorem onBlock (kept : k.Kept P s₀ came) (mem : block ∈ came) :
    (k.onBlock P clock block).1.Kept P s₀ came := by
  rw [BlockIntake.onBlock]
  dsimp only
  split
  · exact kept
  · rename_i new
    split
    · split
      · exact kept
      · rename_i fits
        split
        · exact kept
        · rename_i work
          split
          · exact kept
          · refine ⟨kept.reached, kept.tidy.park _ _, fun orphan parked => ?_, kept.stored, kept.once⟩
            rw [OrphanPool.parkOrphanBlock_eq kept.tidy.order] at parked
            split at parked
            · exact kept.parked orphan parked
            · rcases List.mem_append.mp parked with before | here
              · exact kept.parked orphan (List.mem_of_mem_drop before)
              · rw [List.mem_singleton.mp here]
                exact ⟨mem, rfl, not_lt.mp fits, by simpa using work⟩
    · have kept' : (k.accept P clock block).2.Kept P s₀ came :=
        kept.accept sound opened mem (Bool.eq_false_iff.mpr new)
      generalize k.accept P clock block = out at kept' ⊢
      rcases out with ⟨_ | _, k'⟩
      · exact kept'
      · exact kept'.drain sound opened

end Kept

/-- **The callback is `AcceptBlock` on blocks that came.** Whatever blocks peers
send to a new node and in whichever order, with every call at the time the clock
shows then. -/
theorem callbacks_refine (sound : P.SoundGenesis)
    (opened : ChainState.initializeState P (.ofDisk .empty) = .ok s₀) (clock : Nat → UInt64)
    (blocks : List Block) : ((new s₀).onBlocks P clock blocks).Kept P s₀ blocks := by
  have each : ∀ (rest : List Block) (k : BlockIntake), k.Kept P s₀ blocks →
      (∀ b ∈ rest, b ∈ blocks) → (k.onBlocks P clock rest).Kept P s₀ blocks := by
    intro rest
    induction rest with
    | nil => exact fun k kept _ => kept
    | cons block rest ih =>
        intro k kept listed
        exact ih _ (kept.onBlock sound opened (listed block List.mem_cons_self))
          fun b mem => listed b (List.mem_cons_of_mem _ mem)
  exact each blocks _ (kept_new P s₀ blocks) fun _ mem => mem

end BlockIntake

namespace SmallNetwork

/-- A block on top of `blockOne`, with a coinbase of its own. -/
def blockOnOne : Block :=
  mine (blockOne.getHash smallNetwork.sha256) 2 2 [mint 3 10] (by simp [Block.maxTransactions])

theorem callbacks_refine_blockOnOne :
    ((BlockIntake.new node).onBlocks smallNetwork (fun _ => 20) [blockOnOne, blockOne]).Kept
      smallNetwork node [blockOnOne, blockOne] :=
  BlockIntake.callbacks_refine soundGenesis_smallNetwork node_opened (fun _ => 20)
    [blockOnOne, blockOne]

end SmallNetwork

end QmaskCore
