import Mathlib.Data.List.TakeWhile
import QmaskCore.Ledger.Following
import QmaskCore.Net.OrphanBlocks

/-!
The blocks of a chain in any order.

A new node that gets the blocks of a chain from its peers, in any order and as
often as they send them, stands on the longest part of the chain, from genesis
up, all of which has come, and has parked what came above the gap. The one
condition is that no more blocks wait than the table holds.
-/

namespace QmaskCore

/-- How far up the blocks that came reach without a gap. -/
def reach (chain came : List Block) : Nat :=
  (chain.reverse.takeWhile fun block => block ∈ came).length

/-- The blocks that came above the gap. -/
def waiting (chain came : List Block) : List Block :=
  (chain.reverse.drop (reach chain came)).filter fun block => block ∈ came

namespace OrphanPool

/-- A list without repetitions has one element that is a given one of its. -/
theorem filter_eq_singleton {α : Type} {l : List α} {p : α → Bool} {a : α} (nodup : l.Nodup)
    (mem : a ∈ l) (holds : p a = true) (only : ∀ b ∈ l, p b = true → b = a) : l.filter p = [a] := by
  refine List.perm_singleton.mp ((List.perm_ext_iff_of_nodup (nodup.filter p)
    (List.nodup_singleton a)).mpr fun b => ?_)
  rw [List.mem_filter, List.mem_singleton]
  exact ⟨fun both => only b both.1 both.2, fun same => same ▸ ⟨mem, holds⟩⟩

/-- What is parked of a chain from a height on. -/
structure Parked (P : Params) (chain : List Connected) (came : List Block) (height : Nat)
    (pool : OrphanPool) : Prop where
  order : pool.gOrphanOrder = pool.gOrphanBlocks.map (·.1)
  nodup : pool.gOrphanBlocks.Nodup
  mem_iff : ∀ orphan, orphan ∈ pool.gOrphanBlocks ↔ ∃ i c, height ≤ i ∧
    chain.reverse[i]? = some c ∧ c.block ∈ came ∧ orphan = (hashOf P chain i, c.block)

namespace Parked

variable {P : Params} {chain : List Connected} {came : List Block} {height : Nat}
  {pool : OrphanPool} {c : Connected}

theorem lt_of_at {i : Nat} (at' : chain.reverse[i]? = some c) : i < chain.length := by
  have listed := (List.getElem?_eq_some_iff.mp at').1
  rwa [List.length_reverse] at listed

/-- Only the block above waits for the block at a height. -/
theorem parent_iff (parked : Parked P chain came height pool) (route : Route P chain) {h : Nat}
    (within : h ≤ chain.length) {orphan : Bytes32 × Block} (mem : orphan ∈ pool.gOrphanBlocks) :
    orphan.1 = hashOf P chain h ↔ ∃ c, chain.reverse[h]? = some c ∧
      orphan = (hashOf P chain h, c.block) := by
  obtain ⟨i, c, -, at', -, rfl⟩ := (parked.mem_iff orphan).mp mem
  constructor
  · intro same
    obtain rfl := route.apart (lt_of_at at').le within same
    exact ⟨c, at', rfl⟩
  · rintro ⟨d, -, same⟩
    exact congrArg Prod.fst same

/-- Nothing waits for a block when the one above did not come. -/
theorem take_absent (parked : Parked P chain came height pool) (route : Route P chain)
    (le : height ≤ chain.length)
    (gap : ∀ c, chain.reverse[height]? = some c → c.block ∉ came) :
    pool.takeOrphansOf (hashOf P chain height) = ([], pool) := by
  have none' : ∀ orphan ∈ pool.gOrphanBlocks, orphan.1 ≠ hashOf P chain height := by
    intro orphan mem same
    obtain ⟨c, at', rfl⟩ := (parked.parent_iff route le mem).mp same
    obtain ⟨i, d, -, there, listed, equal⟩ := (parked.mem_iff _).mp mem
    obtain ⟨hash, block⟩ := Prod.mk.inj equal
    exact gap c at' (block ▸ listed)
  have blocks : pool.gOrphanBlocks.filter (fun orphan => orphan.1 ≠ hashOf P chain height) =
      pool.gOrphanBlocks :=
    List.filter_eq_self.mpr fun orphan mem => decide_eq_true (none' orphan mem)
  have order : pool.gOrphanOrder.filter (· ≠ hashOf P chain height) = pool.gOrphanOrder := by
    refine List.filter_eq_self.mpr fun parent mem => decide_eq_true ?_
    rw [parked.order] at mem
    obtain ⟨orphan, listed, rfl⟩ := List.mem_map.mp mem
    exact none' orphan listed
  have nothing : pool.equalRange (hashOf P chain height) = [] := by
    rw [equalRange, List.map_eq_nil_iff, List.filter_eq_nil_iff]
    exact fun orphan mem => by simpa using none' orphan mem
  rw [takeOrphansOf, nothing, blocks, order]

/-- The block above is the one that waits for a block. -/
theorem take_present (parked : Parked P chain came height pool) (route : Route P chain)
    (at' : chain.reverse[height]? = some c) (listed : c.block ∈ came) :
    (pool.takeOrphansOf (hashOf P chain height)).1 = [c.block] ∧
      Parked P chain came (height + 1) (pool.takeOrphansOf (hashOf P chain height)).2 := by
  have within := (lt_of_at at').le
  have here : (hashOf P chain height, c.block) ∈ pool.gOrphanBlocks :=
    (parked.mem_iff _).mpr ⟨height, c, le_rfl, at', listed, rfl⟩
  refine ⟨?_, ?_, parked.nodup.filter _, fun orphan => ?_⟩
  · change (pool.gOrphanBlocks.filter _).map _ = _
    rw [filter_eq_singleton parked.nodup here (by simp), List.map_singleton]
    intro orphan mem same
    obtain ⟨d, there, rfl⟩ := (parked.parent_iff route within mem).mp (of_decide_eq_true same)
    rw [Option.some.inj (there.symm.trans at')]
  · change pool.gOrphanOrder.filter _ = _
    rw [parked.order, List.filter_map]
    rfl
  · change orphan ∈ pool.gOrphanBlocks.filter _ ↔ _
    rw [List.mem_filter, parked.mem_iff]
    constructor
    · rintro ⟨⟨i, d, le, there, came', rfl⟩, apart⟩
      refine ⟨i, d, Nat.lt_of_le_of_ne le ?_, there, came', rfl⟩
      rintro rfl
      exact of_decide_eq_true apart rfl
    · rintro ⟨i, d, le, there, came', rfl⟩
      refine ⟨⟨i, d, Nat.le_of_succ_le le, there, came', rfl⟩, decide_eq_true fun same => ?_⟩
      have equal := route.apart (lt_of_at there).le within same
      omega

end Parked

end OrphanPool

namespace BlockIntake

open OrphanPool

variable {P : Params} {chain : List Connected} {clock : Nat → UInt64} {came : List Block}
  {height : Nat} {k : BlockIntake} {c : Connected}

theorem drain_nil (fuel : Nat) (k : BlockIntake) : drain P clock fuel [] k = ([], k) := by
  cases fuel <;> rfl

/-- The call of `AcceptBlock` for the block above. -/
theorem accept_above (upTo : k.chainState.UpTo P chain height) (route : Route P chain)
    (at' : chain.reverse[height]? = some c) (due : ∀ n, Due (clock n) c.block) :
    ∃ s, s.UpTo P chain (height + 1) ∧ k.accept P clock c.block =
      (true, ⟨s, k.orphans, k.calls + 1, k.relayed ++ [c.block]⟩) := by
  obtain ⟨answer, upTo'⟩ := upTo.accept route at' (due k.calls)
  refine ⟨_, upTo', ?_⟩
  rw [accept]
  dsimp only
  rw [answer]
  rfl

/-- The loop goes up to the next gap. -/
theorem drain_upTo (route : Route P chain) (due : ∀ n, ∀ c ∈ chain, Due (clock n) c.block) :
    ∀ {fuel height : Nat} {k : BlockIntake}, height ≤ chain.length →
    k.chainState.UpTo P chain height → Parked P chain came height k.orphans →
    k.orphans.gOrphanBlocks.length < fuel →
    ∃ top k', height ≤ top ∧ top ≤ chain.length ∧
      drain P clock fuel [hashOf P chain height] k = ([], k') ∧
      k'.chainState.UpTo P chain top ∧ Parked P chain came top k'.orphans ∧
      (∀ i c, height ≤ i → i < top → chain.reverse[i]? = some c → c.block ∈ came) ∧
      ∀ c, chain.reverse[top]? = some c → c.block ∉ came := by
  intro fuel
  induction fuel with
  | zero => exact fun _ _ _ room => absurd room (Nat.not_lt_zero _)
  | succ fuel ih =>
      intro height k le upTo parked room
      by_cases gap : ∀ c, chain.reverse[height]? = some c → c.block ∉ came
      · refine ⟨height, k, le_rfl, le, ?_, upTo, parked, fun i c low high => by omega, gap⟩
        rw [drain, parked.take_absent route le gap]
        exact drain_nil fuel k
      · push Not at gap
        obtain ⟨c, at', listed⟩ := gap
        have found := parked.take_present route at' listed
        have fewer := length_take (hashOf P chain height) k.orphans
        have inside := Parked.lt_of_at at'
        have new : k.chainState.mBlockData.hasBlock (c.block.getHash P.sha256) = false := by
          rw [(route.above at').hash, Bool.eq_false_iff]
          exact mt (upTo.hasBlock_hashOf route le inside).mp (by omega)
        have member : c ∈ chain := List.mem_reverse.mp (List.mem_of_getElem? at')
        rw [drain]
        generalize k.orphans.takeOrphansOf (hashOf P chain height) = out at found fewer ⊢
        obtain ⟨waiting, orphans⟩ := out
        obtain ⟨rfl, left⟩ := found
        obtain ⟨s, upTo', accepted⟩ := accept_above (k := { k with orphans }) upTo route at'
          fun n => due n c member
        have room' : orphans.gOrphanBlocks.length < fuel := by
          change 1 + orphans.gOrphanBlocks.length = _ at fewer
          omega
        obtain ⟨top, k', low, high, drained, upTo'', parked', between, gap⟩ :=
          ih (k := ⟨s, orphans, k.calls + 1, k.relayed ++ [c.block]⟩) inside upTo' left room'
        refine ⟨top, k', by omega, high, ?_, upTo'', parked', fun i d below above there => ?_, gap⟩
        · dsimp only
          rw [acceptWaiting, new, if_neg Bool.false_ne_true, accepted]
          dsimp only
          rw [acceptWaiting, (route.above at').hash]
          exact drained
        · rcases Nat.eq_or_lt_of_le below with rfl | above'
          · rwa [← Option.some.inj (at'.symm.trans there)]
          · exact between i d above' above there

/-- A block below the height is known. -/
theorem onBlock_below (upTo : k.chainState.UpTo P chain height) (route : Route P chain)
    (le : height ≤ chain.length) {j : Nat} (at' : chain.reverse[j]? = some c) (low : j < height) :
    k.onBlock P clock c.block = (k, false) := by
  have known : k.chainState.mBlockData.hasBlock (c.block.getHash P.sha256) = true := by
    rw [(route.above at').hash]
    exact (upTo.hasBlock_hashOf route le (Parked.lt_of_at at')).mpr low
  rw [onBlock, if_pos known]

/-- A block above the gap is for the table. -/
theorem onBlock_above (upTo : k.chainState.UpTo P chain height) (route : Route P chain)
    (le : height ≤ chain.length) {j : Nat} (at' : chain.reverse[j]? = some c) (high : height < j) :
    k.onBlock P clock c.block =
      ({ k with orphans := k.orphans.parkOrphanBlock P.sha256 (hashOf P chain j) c.block }, true) := by
  have inside := Parked.lt_of_at at'
  have above := route.above at'
  have new : k.chainState.mBlockData.hasBlock (c.block.getHash P.sha256) = false := by
    rw [above.hash, Bool.eq_false_iff]
    exact mt (upTo.hasBlock_hashOf route le inside).mp (by omega)
  have parent : k.chainState.mBlockData.hasBlock c.block.header.prevBlockHash = false := by
    rw [above.prev, Bool.eq_false_iff]
    exact mt (upTo.hasBlock_hashOf route le inside.le).mp (by omega)
  have size : ¬ P.maxBlockSize.toNat < c.block.getSerializedSize P :=
    not_lt.mpr above.passes.readable
  have work : ¬ P.checkProofOfWork (c.block.getHash P.sha256) c.block.header.bits = false := by
    have next := above.passes.follows
    simp only [follows, Bool.and_eq_true] at next
    rw [next.2]
    exact Bool.noConfusion
  have taller : ¬ c.block.header.height.toNat ≤ k.chainState.mBestChain.height := by
    rw [above.level, upTo.mBestChain le]
    omega
  rw [onBlock]
  dsimp only
  rw [new, if_neg Bool.false_ne_true, if_pos parent, if_neg size, if_neg work, if_neg taller,
    above.prev]

/-- A node that got blocks of a chain and took all of them in. -/
structure Settled (P : Params) (chain : List Connected) (came : List Block) (height : Nat)
    (k : BlockIntake) : Prop where
  le : height ≤ chain.length
  upTo : k.chainState.UpTo P chain height
  below : ∀ i c, i < height → chain.reverse[i]? = some c → c.block ∈ came
  gap : ∀ c, chain.reverse[height]? = some c → c.block ∉ came
  parked : Parked P chain came height k.orphans

namespace Settled

/-- The height is that of the gap. -/
theorem reach_eq (settled : Settled P chain came height k) :
    reach (chain.map (·.block)) came = height := by
  have le := settled.le
  have all : ∀ b ∈ (chain.map (·.block)).reverse.take height, decide (b ∈ came) = true := by
    intro b mem
    obtain ⟨i, there⟩ := List.mem_iff_getElem?.mp mem
    rw [List.getElem?_take, ← List.map_reverse, List.getElem?_map] at there
    split at there
    · rename_i low
      obtain ⟨c, at', rfl⟩ := Option.map_eq_some_iff.mp there
      exact decide_eq_true (settled.below i c low at')
    · cases there
  have rest : ((chain.map (·.block)).reverse.drop height).takeWhile (fun b => b ∈ came) = [] := by
    cases left : (chain.map (·.block)).reverse.drop height with
    | nil => rfl
    | cons b more =>
        have first : ((chain.map (·.block)).reverse.drop height)[0]? = some b := by rw [left]; rfl
        rw [List.getElem?_drop, ← List.map_reverse, List.getElem?_map, Nat.add_zero] at first
        obtain ⟨c, at', rfl⟩ := Option.map_eq_some_iff.mp first
        exact List.takeWhile_cons_of_neg (by simpa using settled.gap c at')
  rw [reach, ← List.take_append_drop height (chain.map (·.block)).reverse,
    List.takeWhile_append_of_pos all, rest, List.append_nil, List.length_take, List.length_reverse,
    List.length_map]
  omega

/-- What is parked is what waits. -/
theorem perm_waiting (settled : Settled P chain came height k) (route : Route P chain) :
    (k.orphans.gOrphanBlocks.map (·.2)).Perm (waiting (chain.map (·.block)) came) := by
  have level {i : Nat} {d : Connected} (at' : chain.reverse[i]? = some d) :
      d.block.header.height.toNat = i + 1 := (route.above at').level
  have nodup : (chain.map (·.block)).reverse.Nodup := by
    rw [← List.map_reverse, List.nodup_iff_getElem?_ne_getElem?]
    intro i j less inside same
    rw [List.getElem?_map, List.getElem?_map] at same
    rw [List.length_map] at inside
    obtain ⟨d, at'⟩ : ∃ d, chain.reverse[j]? = some d := ⟨_, List.getElem?_eq_getElem inside⟩
    rw [at'] at same
    obtain ⟨e, there, equal⟩ := Option.map_eq_some_iff.mp same
    have heights := level there
    rw [equal, level at'] at heights
    omega
  refine (List.perm_ext_iff_of_nodup ?_ ((nodup.sublist (List.drop_sublist _ _)).filter _)).mpr ?_
  · refine (List.nodup_map_iff_inj_on settled.parked.nodup).mpr fun a memA b memB same => ?_
    obtain ⟨i, d, -, at', -, rfl⟩ := (settled.parked.mem_iff a).mp memA
    obtain ⟨j, e, -, there, -, rfl⟩ := (settled.parked.mem_iff b).mp memB
    have equal : d.block = e.block := same
    have heights := level at'
    rw [equal, level there] at heights
    obtain rfl : j = i := by omega
    rw [equal]
  · intro b
    rw [settled.reach_eq, List.mem_filter, decide_eq_true_eq]
    constructor
    · intro mem
      obtain ⟨orphan, listed, rfl⟩ := List.mem_map.mp mem
      obtain ⟨i, d, low, at', came', rfl⟩ := (settled.parked.mem_iff orphan).mp listed
      refine ⟨List.mem_iff_getElem?.mpr ⟨i - height, ?_⟩, came'⟩
      rw [List.getElem?_drop, ← List.map_reverse, List.getElem?_map,
        show height + (i - height) = i by omega, at']
      rfl
    · rintro ⟨mem, came'⟩
      obtain ⟨i, there⟩ := List.mem_iff_getElem?.mp mem
      rw [List.getElem?_drop, ← List.map_reverse, List.getElem?_map] at there
      obtain ⟨d, at', rfl⟩ := Option.map_eq_some_iff.mp there
      exact List.mem_map.mpr ⟨_, (settled.parked.mem_iff _).mpr
        ⟨height + i, d, Nat.le_add_right _ _, at', came', rfl⟩, rfl⟩

/-- Blocks of a chain at two heights differ. -/
theorem block_ne (route : Route P chain) {i j : Nat} {d e : Connected} (apart : i ≠ j)
    (at' : chain.reverse[i]? = some d) (there : chain.reverse[j]? = some e) : d.block ≠ e.block := by
  intro same
  have level := (route.above at').level
  rw [same, (route.above there).level] at level
  omega

/-- A block below the height changes nothing. -/
theorem again (settled : Settled P chain came height k) (route : Route P chain) {j : Nat}
    (at' : chain.reverse[j]? = some c) (low : j < height) :
    Settled P chain (came ++ [c.block]) height k := by
  refine ⟨settled.le, settled.upTo, fun i d below there => ?_, fun d there listed => ?_,
    settled.parked.order, settled.parked.nodup, fun orphan => ?_⟩
  · exact List.mem_append_left _ (settled.below i d below there)
  · rcases List.mem_append.mp listed with before | here
    · exact settled.gap d there before
    · exact block_ne route (Nat.ne_of_gt low) there at' (List.mem_singleton.mp here)
  · rw [settled.parked.mem_iff]
    refine exists_congr fun i => exists_congr fun d => and_congr_right fun high =>
      and_congr_right fun there => and_congr_left fun _ => ?_
    rw [List.mem_append, List.mem_singleton, or_iff_left]
    exact block_ne route (by omega) there at'

/-- The block above the height is accepted, and those that waited for it. -/
theorem onBlock_next (settled : Settled P chain came height k) (route : Route P chain)
    (due : ∀ n, ∀ c ∈ chain, Due (clock n) c.block) (at' : chain.reverse[height]? = some c) :
    ∃ top k', height < top ∧ Settled P chain (came ++ [c.block]) top k' ∧
      k.onBlock P clock c.block = (k', true) ∧
      k'.orphans.gOrphanBlocks.Sublist k.orphans.gOrphanBlocks := by
  have inside := Parked.lt_of_at at'
  have above := route.above at'
  have new : k.chainState.mBlockData.hasBlock (c.block.getHash P.sha256) = false := by
    rw [above.hash, Bool.eq_false_iff]
    exact mt (settled.upTo.hasBlock_hashOf route settled.le inside).mp (by omega)
  have parent : k.chainState.mBlockData.hasBlock c.block.header.prevBlockHash = true := by
    rw [above.prev]
    exact (settled.upTo.hasBlock_hashOf route settled.le settled.le).mpr le_rfl
  have member : c ∈ chain := List.mem_reverse.mp (List.mem_of_getElem? at')
  obtain ⟨s, upTo', accepted⟩ := accept_above (k := k) settled.upTo route at' fun n => due n c member
  have parked : Parked P chain (came ++ [c.block]) (height + 1) k.orphans := by
    refine ⟨settled.parked.order, settled.parked.nodup, fun orphan => ?_⟩
    rw [settled.parked.mem_iff]
    constructor
    · rintro ⟨i, d, high, there, listed, rfl⟩
      refine ⟨i, d, Nat.lt_of_le_of_ne high ?_, there, List.mem_append_left _ listed, rfl⟩
      rintro rfl
      exact settled.gap d there listed
    · rintro ⟨i, d, high, there, listed, rfl⟩
      rcases List.mem_append.mp listed with before | here
      · exact ⟨i, d, Nat.le_of_succ_le high, there, before, rfl⟩
      · exact absurd (List.mem_singleton.mp here) (block_ne route (by omega) there at')
  obtain ⟨top, k', low, high, drained, upTo'', parked', between, gap⟩ :=
    drain_upTo route due (k := ⟨s, k.orphans, k.calls + 1, k.relayed ++ [c.block]⟩) inside upTo'
      parked (Nat.lt_succ_self _)
  have fewer := drain_parked P clock (k.orphans.gOrphanBlocks.length + 1)
    [hashOf P chain (height + 1)] ⟨s, k.orphans, k.calls + 1, k.relayed ++ [c.block]⟩
  rw [drained] at fewer
  refine ⟨top, k', low, ⟨high, upTo'', fun i d below there => ?_, gap, parked'⟩, ?_, fewer⟩
  swap
  · rw [onBlock]
    dsimp only
    rw [new, if_neg Bool.false_ne_true, parent, if_neg Bool.noConfusion, accepted]
    dsimp only
    rw [above.hash, drained]
  rcases Nat.lt_trichotomy i height with less | rfl | more
  · exact List.mem_append_left _ (settled.below i d less there)
  · rw [Option.some.inj (there.symm.trans at')]
    simp
  · exact between i d more below there

/-- A block above the gap that came before is in the table already. -/
theorem parked_again (settled : Settled P chain came height k) (listed : c.block ∈ came) :
    Settled P chain (came ++ [c.block]) height k := by
  have same (b : Block) : b ∈ came ++ [c.block] ↔ b ∈ came := by
    rw [List.mem_append, List.mem_singleton]
    exact or_iff_left_of_imp fun equal => equal ▸ listed
  refine ⟨settled.le, settled.upTo, fun i d below there => ?_, fun d there came' => ?_,
    settled.parked.order, settled.parked.nodup, fun orphan => ?_⟩
  · exact (same _).mpr (settled.below i d below there)
  · exact settled.gap d there ((same _).mp came')
  · simp only [same]
    exact settled.parked.mem_iff orphan

/-- A block above the gap is put into the table when it comes. -/
theorem park (settled : Settled P chain came height k) (route : Route P chain) {j : Nat}
    (at' : chain.reverse[j]? = some c) (high : height < j) (new : c.block ∉ came) :
    Settled P chain (came ++ [c.block]) height { k with orphans :=
      ⟨k.orphans.gOrphanBlocks ++ [(hashOf P chain j, c.block)],
        k.orphans.gOrphanBlocks.map (·.1) ++ [hashOf P chain j]⟩ } := by
  refine ⟨settled.le, settled.upTo, fun i d below there => ?_, fun d there listed => ?_, ?_, ?_,
    fun orphan => ?_⟩
  · exact List.mem_append_left _ (settled.below i d below there)
  · rcases List.mem_append.mp listed with before | here
    · exact settled.gap d there before
    · exact block_ne route (Nat.ne_of_lt high) there at' (List.mem_singleton.mp here)
  · rw [List.map_append, List.map_singleton]
  · refine List.nodup_append.mpr ⟨settled.parked.nodup, List.nodup_singleton _, ?_⟩
    intro orphan before other here same
    obtain ⟨i, d, -, -, came', equal⟩ := (settled.parked.mem_iff orphan).mp before
    rw [same, List.mem_singleton.mp here] at equal
    exact new ((Prod.mk.inj equal).2 ▸ came')
  · rw [List.mem_append, List.mem_singleton, settled.parked.mem_iff]
    constructor
    · rintro (⟨i, d, low, there, came', rfl⟩ | rfl)
      · exact ⟨i, d, low, there, List.mem_append_left _ came', rfl⟩
      · exact ⟨j, c, high.le, at', by simp, rfl⟩
    · rintro ⟨i, d, low, there, came', rfl⟩
      rcases List.mem_append.mp came' with before | here
      · exact .inl ⟨i, d, low, there, before, rfl⟩
      · obtain rfl : i = j := by
          by_contra apart
          exact block_ne route apart there at' (List.mem_singleton.mp here)
        rw [Option.some.inj (there.symm.trans at')]
        exact .inr rfl

/-- A block above the gap is parked, as there is room for it. -/
theorem parkOrphanBlock (settled : Settled P chain came height k) (route : Route P chain) {j : Nat}
    (at' : chain.reverse[j]? = some c) (high : height < j)
    (room : (waiting (chain.map (·.block)) (came ++ [c.block])).length ≤ maxOrphanBlocks) :
    Settled P chain (came ++ [c.block]) height
      { k with orphans := k.orphans.parkOrphanBlock P.sha256 (hashOf P chain j) c.block } := by
  have inside := Parked.lt_of_at at'
  rw [parkOrphanBlock_eq settled.parked.order]
  split
  · rename_i there
    obtain ⟨orphan, listed, same⟩ := List.mem_map.mp there
    obtain ⟨i, d, low, at'', came', rfl⟩ := (settled.parked.mem_iff orphan).mp listed
    obtain rfl := route.apart (Parked.lt_of_at at'').le inside.le (Prod.mk.inj same).1
    obtain rfl := Option.some.inj (at''.symm.trans at')
    exact settled.parked_again came'
  · rename_i apart
    have fresh : c.block ∉ came := by
      intro came'
      refine apart (List.mem_map.mpr ⟨(hashOf P chain j, c.block), ?_, rfl⟩)
      exact (settled.parked.mem_iff _).mpr ⟨j, c, high.le, at', came', rfl⟩
    have parked := settled.park route at' high fresh
    have size := (parked.perm_waiting route).length_eq
    have few : k.orphans.gOrphanBlocks.length + 1 ≤ maxOrphanBlocks := by
      rw [← size] at room
      simpa using room
    rw [Nat.sub_eq_zero_of_le few, List.drop_zero]
    exact parked

/-- The step lemma: whichever block of the chain comes, the node is settled with it. -/
theorem onBlock (settled : Settled P chain came height k) (route : Route P chain)
    (due : ∀ n, ∀ c ∈ chain, Due (clock n) c.block) (member : c ∈ chain)
    (room : (waiting (chain.map (·.block)) (came ++ [c.block])).length ≤ maxOrphanBlocks) :
    ∃ top, Settled P chain (came ++ [c.block]) top (k.onBlock P clock c.block).1 := by
  obtain ⟨j, at'⟩ := List.mem_iff_getElem?.mp (List.mem_reverse.mpr member)
  rcases Nat.lt_trichotomy j height with low | rfl | high
  · rw [onBlock_below settled.upTo route settled.le at' low]
    exact ⟨height, settled.again route at' low⟩
  · obtain ⟨top, k', -, next, called, -⟩ := settled.onBlock_next route due at'
    rw [called]
    exact ⟨top, next⟩
  · rw [onBlock_above settled.upTo route settled.le at' high]
    exact ⟨height, settled.parkOrphanBlock route at' high room⟩

/-- The run lemma. -/
theorem onBlocks (route : Route P chain) (due : ∀ n, ∀ c ∈ chain, Due (clock n) c.block) :
    ∀ {rest came : List Block} {height : Nat} {k : BlockIntake}, Settled P chain came height k →
    (∀ b ∈ rest, b ∈ chain.map (·.block)) →
    (∀ n, (waiting (chain.map (·.block)) (came ++ rest.take n)).length ≤ maxOrphanBlocks) →
    ∃ top, Settled P chain (came ++ rest) top (k.onBlocks P clock rest) := by
  intro rest
  induction rest with
  | nil => exact fun settled _ _ => ⟨_, by rwa [List.append_nil]⟩
  | cons block rest ih =>
      intro came height k settled theirs room
      obtain ⟨c, member, rfl⟩ := List.mem_map.mp (theirs block List.mem_cons_self)
      obtain ⟨top, next⟩ := settled.onBlock route due member (room 1)
      have last := ih next (fun b mem => theirs b (List.mem_cons_of_mem _ mem)) fun n => by
        rw [List.append_assoc]
        exact room (n + 1)
      rwa [List.append_assoc] at last

/-- A new node is settled. -/
theorem new {s₀ : ChainState} (sound : P.SoundGenesis)
    (opened : ChainState.initializeState P (.ofDisk .empty) = .ok s₀) (chain : List Connected) :
    Settled P chain [] 0 (new s₀) where
  le := Nat.zero_le _
  upTo := ChainState.upTo_initial sound opened chain
  below := nofun
  gap := by simp
  parked := ⟨rfl, List.nodup_nil, by simp [BlockIntake.new, OrphanPool.empty]⟩

end Settled

end BlockIntake

/-! ### Two blocks of the small network -/

namespace SmallNetwork

/-- The two blocks, as they came to a node. -/
def upToTwo : List (UInt64 × Block) := [(20, blockOne), (20, blockOnOne)]

theorem activeChain_upToTwo :
    (node.acceptAll smallNetwork upToTwo).activeChain smallNetwork = some [blockOnOne, blockOne] := by
  decide +kernel

theorem distinct_upToTwo :
    DistinctAmong ((node.acceptAll smallNetwork upToTwo).Retains smallNetwork) := by
  have three : ∀ b, (node.acceptAll smallNetwork upToTwo).Retains smallNetwork b →
      b ∈ [smallNetwork.buildGenesisBlock, blockOne, blockOnOne] := by
    intro b stored
    rcases ChainState.delivered_of_retains soundGenesis_smallNetwork node_opened stored with rfl | mem
    · exact List.mem_cons_self
    · exact List.mem_cons_of_mem _ mem
  constructor
  · have names : ∀ b ∈ [smallNetwork.buildGenesisBlock, blockOne, blockOnOne],
        ∀ b' ∈ [smallNetwork.buildGenesisBlock, blockOne, blockOnOne], ∀ tx ∈ b.transactions,
        ∀ tx' ∈ b'.transactions, tx.hash = tx'.hash → tx = tx' := by decide +kernel
    exact fun b here b' there => names b (three b here) b' (three b' there)
  · have names : ∀ b ∈ [smallNetwork.buildGenesisBlock, blockOne, blockOnOne],
        ∀ b' ∈ [smallNetwork.buildGenesisBlock, blockOne, blockOnOne], ∀ tx ∈ b.coinbase?,
        ∀ tx' ∈ b'.coinbase?, tx.hash = tx'.hash → b = b' := by decide +kernel
    exact fun b here b' there => names b (three b here) b' (three b' there)

theorem grows_upToTwo : Grows smallNetwork [blockOnOne, blockOne] :=
  ⟨by decide +kernel, by decide +kernel, trivial⟩

theorem due_upToTwo : ∀ b ∈ [blockOnOne, blockOne], Due 20 b := by
  unfold Due
  decide +kernel

end SmallNetwork

end QmaskCore
