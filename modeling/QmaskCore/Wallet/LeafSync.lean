import QmaskCore.Storage.HighestLeaf
import QmaskCore.Wallet.LeafUse

/-!
Does `SyncNoiseLeafPointer` mark every leaf the chain has consumed?

The leaves up to the highest spent one are walked only when the stored pointer
moves, and the highest is only looked for among the leaves held in memory.
`Walked` says when a leaf is reached; `leaves_synced_iff` that a spent leaf is
marked in both maps exactly when it is reached or was marked before.
-/

namespace QmaskCore

namespace NoiseFile

variable {nf : NoiseFile}

theorem isLeafUsed_markLeafUsed {first : UInt32} (inside : first.toNat < nf.mLeaves.length)
    (index : UInt32) : (nf.markLeafUsed first).isLeafUsed index = true ↔
      nf.isLeafUsed index = true ∨ first = index := by
  have near : first.toNat / 8 < (nf.mLeaves.length + 7) / 8 := by omega
  rw [markLeafUsed, if_neg (by omega), isLeafUsed, isLeafUsed, Bitmap.testBit_setBit, Bool.or_eq_true,
    Bool.and_eq_true, decide_eq_true_eq, decide_eq_true_eq, UInt32.toNat_inj]
  split
  · rename_i small
    rw [Bitmap.testBit_resize (by omega), length_resize]
    simp only [near, and_true]
  · rename_i large
    simp only [show first.toNat / 8 < nf.mUsed.length by omega, and_true]

theorem isLeafUsed_markLeaves (index : UInt32) : ∀ (indices : List UInt32) {nf : NoiseFile},
    (∀ i ∈ indices, i.toNat < nf.mLeaves.length) →
    ((indices.foldl (fun nf index => nf.markLeafUsed index) nf).isLeafUsed index = true ↔
      nf.isLeafUsed index = true ∨ index ∈ indices) := by
  intro indices
  induction indices with
  | nil => simp
  | cons first indices ih =>
      intro nf inside
      have rest : ∀ i ∈ indices, i.toNat < (nf.markLeafUsed first).mLeaves.length := by
        intro i mem
        rw [mLeaves_markLeafUsed]
        exact inside i (List.mem_cons_of_mem _ mem)
      rw [List.foldl_cons, ih rest, isLeafUsed_markLeafUsed (inside first List.mem_cons_self),
        List.mem_cons, eq_comm (a := first)]
      tauto

/-- The pointer moves up to the wanted leaf, within the pool. -/
theorem toNat_mNextLeaf_setNextLeaf (few : nf.mLeaves.length < 2 ^ 32) (next : UInt32) :
    (nf.setNextLeaf next).mNextLeaf.toNat =
      max nf.mNextLeaf.toNat (min next.toNat nf.mLeaves.length) := by
  unfold setNextLeaf
  dsimp only
  have clamped : (if nf.mLeaves.length < next.toNat then UInt32.ofNat nf.mLeaves.length
      else next).toNat = min next.toNat nf.mLeaves.length := by
    split
    · rw [UInt32.toNat_ofNat_of_lt' few]
      omega
    · omega
  rw [← clamped]
  generalize (if nf.mLeaves.length < next.toNat then UInt32.ofNat nf.mLeaves.length else next) = n
  split
  · rename_i moves
    exact (max_eq_right (UInt32.le_iff_toNat_le.mp (UInt32.le_of_lt moves))).symm
  · rename_i stays
    exact (max_eq_left (UInt32.le_iff_toNat_le.mp (UInt32.not_lt.mp stays))).symm

@[simp] theorem mUsed_setNextLeaf (next : UInt32) : (nf.setNextLeaf next).mUsed = nf.mUsed := by
  unfold setNextLeaf
  dsimp only
  generalize (if nf.mLeaves.length < next.toNat then UInt32.ofNat nf.mLeaves.length else next) = n
  split
  · rfl
  · rfl

end NoiseFile

namespace WalletManager

/-- `SyncNoiseLeafPointer` on a UTXO set. -/
def syncWith (u : UTXOSet) (writes : Bool) (w : WalletManager) : WalletManager :=
  (w.syncNoiseLeafPointer (u.getHighestSpentNoiseLeaf w.mNoiseKps)
    (fun i => u.isNoiseLeafSpent ⟨w.mNoiseKps, i⟩) writes).2

/-- A leaf is marked used in both maps. -/
def MarksUsed (w : WalletManager) (index : UInt32) : Prop :=
  w.isNoiseLeafUsed index = true ∧ ∃ nf, w.mNoiseFile = some nf ∧ nf.isLeafUsed index = true

/-- The walk takes place, as the pointer moves below a leaf it is told of, and
reaches the index. -/
def Reaches (highest : Option UInt32) (nf : NoiseFile) (index : UInt32) : Prop :=
  ∃ h, highest = some h ∧
    nf.mNextLeaf.toNat < min (h + 1).toNat nf.mLeaves.length ∧
    index.toNat < min (h + 1).toNat nf.mLeaves.length

section

variable {P : Params} {w : WalletManager}

/-- The leaves of a walk that stops before one. -/
theorem mem_walk {after index : UInt32} {isSpent : UInt32 → Bool} :
    index ∈ ((List.range after.toNat).map UInt32.ofNat).filter isSpent ↔
      index.toNat < after.toNat ∧ isSpent index = true := by
  rw [List.mem_filter, List.mem_map]
  refine and_congr_left fun _ => ⟨?_, fun inside =>
    ⟨index.toNat, List.mem_range.mpr inside, UInt32.ofNat_toNat⟩⟩
  rintro ⟨i, mem, rfl⟩
  have small := List.mem_range.mp mem
  rwa [UInt32.toNat_ofNat_of_lt' (small.trans after.toNat_lt)]

/-- Leaves of the pool are marked in both maps, and the saved wallet keeps them so. -/
theorem marksUsed_useLeaves (few : P.noiseLeafCount.toNat ≤ noiseLeafCountValue)
    (ready : w.Ready P) {nf : NoiseFile} (loaded : w.mNoiseFile = some nf) (writes : Bool)
    {indices : List UInt32} (within : ∀ i ∈ indices, i.toNat < nf.mLeaves.length) (index : UInt32) :
    ((indices.foldl useLeaf w).saveToFile writes).2.MarksUsed index ↔
      (w.isNoiseLeafUsed index = true ∧ nf.isLeafUsed index = true) ∨ index ∈ indices := by
  have saved : ((indices.foldl useLeaf w).saveToFile writes).2.MarksUsed index ↔
      (indices.foldl useLeaf w).MarksUsed index := by
    rcases saveToFile_eq writes (indices.foldl useLeaf w) with same | same
    · rw [same]
    · rw [same]
      exact Iff.rfl
  have place (mem : index ∈ indices) : index.toNat / 8 < mapBytes := by
    have inside := within index mem
    rw [(ready.noiseFile nf loaded).2] at inside
    rw [mapBytes]
    omega
  have file : (∃ nf', (indices.foldl useLeaf w).mNoiseFile = some nf' ∧
      nf'.isLeafUsed index = true) ↔ nf.isLeafUsed index = true ∨ index ∈ indices := by
    rw [foldl_useLeaf, loaded, ← NoiseFile.isLeafUsed_markLeaves index indices within]
    simp only [Option.map_some, Option.some.injEq, exists_eq_left']
  rw [saved, MarksUsed, file, isNoiseLeafUsed_useLeaves index indices ready.used,
    and_iff_left_of_imp place]
  exact and_or_right.symm

/-- What the walk reaches and finds spent is marked, and nothing else. -/
theorem syncNoiseLeafPointer_marks (few : P.noiseLeafCount.toNat ≤ noiseLeafCountValue)
    (ready : w.Ready P) {nf : NoiseFile} (loaded : w.mNoiseFile = some nf)
    (highest : Option UInt32) (isSpent : UInt32 → Bool) (writes : Bool) (index : UInt32) :
    (w.syncNoiseLeafPointer highest isSpent writes).2.MarksUsed index ↔
      (w.isNoiseLeafUsed index = true ∧ nf.isLeafUsed index = true) ∨
      Reaches highest nf index ∧ isSpent index = true := by
  -- Without a walk both maps are as they were.
  have idle (w' : WalletManager) (nf' : NoiseFile) (sameMap : w'.mNoiseUsed = w.mNoiseUsed)
      (sameFile : w'.mNoiseFile = some nf') (sameUsed : nf'.mUsed = nf.mUsed)
      (unreached : ¬ Reaches highest nf index) :
      w'.MarksUsed index ↔ (w.isNoiseLeafUsed index = true ∧ nf.isLeafUsed index = true) ∨
        Reaches highest nf index ∧ isSpent index = true := by
    simp only [MarksUsed, isNoiseLeafUsed, sameMap, sameFile, Option.some.injEq, exists_eq_left',
      NoiseFile.isLeafUsed, sameUsed, unreached, false_and, or_false]
  rw [syncNoiseLeafPointer, loaded]
  cases highest with
  | none => exact idle w nf rfl loaded rfl (by rintro ⟨h, found, -⟩; cases found)
  | some h =>
      have pointer :=
        NoiseFile.toNat_mNextLeaf_setNextLeaf (ready.noiseFile nf loaded).1.few (h + 1)
      have reaches : Reaches (some h) nf index ↔
          nf.mNextLeaf < (nf.setNextLeaf (h + 1)).mNextLeaf ∧
            index.toNat < (nf.setNextLeaf (h + 1)).mNextLeaf.toNat := by
        rw [UInt32.lt_iff_toNat_lt, pointer]
        constructor
        · rintro ⟨h', ⟨rfl⟩, moves, inside⟩
          omega
        · rintro ⟨moves, inside⟩
          exact ⟨h, rfl, by omega, by omega⟩
      dsimp only
      split
      · rename_i moves
        have within : ∀ i ∈ ((List.range (nf.setNextLeaf (h + 1)).mNextLeaf.toNat).map
            UInt32.ofNat).filter isSpent, i.toNat < (nf.setNextLeaf (h + 1)).mLeaves.length := by
          intro i mem
          have inside := (mem_walk.mp mem).1
          rw [UInt32.lt_iff_toNat_lt] at moves
          rw [NoiseFile.mLeaves_setNextLeaf]
          omega
        have moved := ready.setNextLeaf loaded (h + 1)
        refine (marksUsed_useLeaves few (w := { w with
            mNoiseFile := some (nf.setNextLeaf (h + 1))
            mNoiseNextLeaf := (nf.setNextLeaf (h + 1)).mNextLeaf })
          ⟨{ moved.writable with }, moved.used, moved.noiseFile⟩ rfl writes within index).trans ?_
        rw [mem_walk, reaches, NoiseFile.isLeafUsed, NoiseFile.mUsed_setNextLeaf,
          ← NoiseFile.isLeafUsed]
        simp only [moves, true_and]
        exact Iff.rfl
      · rename_i stays
        exact idle _ _ rfl rfl (NoiseFile.mUsed_setNextLeaf _) fun r => stays (reaches.mp r).1

/-- A leaf the walk reaches, from what the set holds in memory: one of its leaves
is at or past the pointer, one at or past the index, and none is the last 32-bit
number, whose successor is zero. -/
def Covers (u : UTXOSet) (kps : Bytes32) (nf : NoiseFile) (index : UInt32) : Prop :=
  nf.mNextLeaf.toNat < nf.mLeaves.length ∧ ⟨kps, 0xFFFFFFFF⟩ ∉ u.mSpentLeafCache ∧
  (∃ j, nf.mNextLeaf ≤ j ∧ ⟨kps, j⟩ ∈ u.mSpentLeafCache) ∧
  ∃ j, index ≤ j ∧ ⟨kps, j⟩ ∈ u.mSpentLeafCache

theorem reaches_iff_covers {u : UTXOSet} (wf : u.WF) (kps : Bytes32) {nf : NoiseFile}
    {index : UInt32} (inside : index.toNat < nf.mLeaves.length) :
    Reaches (u.getHighestSpentNoiseLeaf kps) nf index ↔ Covers u kps nf index := by
  have top := wf.highest_cached kps
  cases answer : u.getHighestSpentNoiseLeaf kps with
  | none =>
      rw [answer] at top
      constructor
      · rintro ⟨h, found, -⟩
        cases found
      · rintro ⟨-, -, ⟨j, -, mem⟩, -⟩
        exact absurd (top ▸ mem) (Set.notMem_empty j)
  | some h =>
      rw [answer] at top
      obtain ⟨held, above⟩ := top
      have below {i : UInt32} : (∃ j, i ≤ j ∧ ⟨kps, j⟩ ∈ u.mSpentLeafCache) ↔ i ≤ h :=
        ⟨fun ⟨j, le, mem⟩ => UInt32.le_trans le (above mem), fun le => ⟨h, le, held⟩⟩
      rw [Covers, below, below, UInt32.le_iff_toNat_le, UInt32.le_iff_toNat_le]
      by_cases last : h = 0xFFFFFFFF
      · -- The successor of the last number is zero, and nothing is walked.
        subst last
        constructor
        · rintro ⟨h', ⟨rfl⟩, moves, -⟩
          exact absurd moves (Nat.not_lt.mpr ((Nat.min_le_left _ _).trans (Nat.zero_le _)))
        · exact fun covers => absurd held covers.2.1
      · have unlast : ⟨kps, 0xFFFFFFFF⟩ ∉ u.mSpentLeafCache := fun mem =>
          last (UInt32.le_antisymm (UInt32.le_iff_toNat_le.mpr (Nat.le_of_lt_succ h.toNat_lt))
            (above mem))
        have next : (h + 1).toNat = h.toNat + 1 := by
          have small : h.toNat ≠ 2 ^ 32 - 1 := fun eq => last (UInt32.toNat_inj.mp eq)
          have bound := h.toNat_lt
          rw [UInt32.toNat_add, Nat.mod_eq_of_lt (by simp only [UInt32.toNat_one]; omega)]
          rfl
        constructor
        · rintro ⟨h', ⟨rfl⟩, moves, reached⟩
          exact ⟨by omega, unlast, by omega, by omega⟩
        · rintro ⟨room, -, moves, reached⟩
          exact ⟨h, rfl, by omega, by omega⟩

/-- **When leaf synchronisation is complete.** Every leaf spent on the chain is
marked in both maps afterwards exactly when each was marked before or is covered;
and then no transaction signed reveals a leaf the chain has consumed. -/
theorem leaves_synced_iff (few : P.noiseLeafCount.toNat ≤ noiseLeafCountValue) (ready : w.Ready P)
    {nf : NoiseFile} (loaded : w.mNoiseFile = some nf) (db : UTXODB) (ts : List SetTurn)
    (writes : Bool) :
    let u := (UTXOSet.ofDisk db).turns P ts
    let covered := ∀ i < P.noiseLeafCount, u.isNoiseLeafSpent ⟨w.mNoiseKps, i⟩ = true →
      (w.isNoiseLeafUsed i = true ∧ nf.isLeafUsed i = true) ∨ Covers u w.mNoiseKps nf i
    ((∀ i < P.noiseLeafCount, u.isNoiseLeafSpent ⟨w.mNoiseKps, i⟩ = true →
        (w.syncWith u writes).MarksUsed i) ↔ covered) ∧
      (covered → ∀ (K : WalletParams) (writes' : Bool) (tx tx' : Transaction) (w' : WalletManager),
        signTransaction P K writes' tx (w.syncWith u writes) = (.ok true, tx', w') →
        ∀ i ∈ tx'.handedOut, u.isNoiseLeafSpent ⟨w.mNoiseKps, i⟩ = false) := by
  intro u covered
  have wf : u.WF := (UTXOSet.wf_ofDisk db).turns P ts
  obtain ⟨built, count⟩ := ready.noiseFile nf loaded
  have marks (i : UInt32) (inside : i < P.noiseLeafCount)
      (spent : u.isNoiseLeafSpent ⟨w.mNoiseKps, i⟩ = true) :
      (w.syncWith u writes).MarksUsed i ↔
        (w.isNoiseLeafUsed i = true ∧ nf.isLeafUsed i = true) ∨ Covers u w.mNoiseKps nf i := by
    have place : i.toNat < nf.mLeaves.length := by
      rw [count]
      exact UInt32.lt_iff_toNat_lt.mp inside
    rw [syncWith, syncNoiseLeafPointer_marks few ready loaded, reaches_iff_covers wf _ place,
      and_iff_left spent]
  have complete : (∀ i < P.noiseLeafCount, u.isNoiseLeafSpent ⟨w.mNoiseKps, i⟩ = true →
      (w.syncWith u writes).MarksUsed i) ↔ covered :=
    forall_congr' fun i => forall_congr' fun inside => forall_congr' fun spent =>
      marks i inside spent
  refine ⟨complete, fun cover K writes' tx tx' w' signed i handed => ?_⟩
  have fits : (WalletOp.syncNoiseLeafPointer (u.getHighestSpentNoiseLeaf w.mNoiseKps)
      (fun i => u.isNoiseLeafSpent ⟨w.mNoiseKps, i⟩) writes).LabelFits := trivial
  have synced : (w.syncWith u writes).Ready P := ready.apply (K := K) fits
  obtain ⟨nf', held, loaded', unused, -⟩ := signTransaction_eq_ok synced signed
  obtain ⟨free, place⟩ := unused i handed
  rw [(synced.noiseFile nf' loaded').2] at place
  by_contra spent
  have used := (complete.mpr cover i (UInt32.lt_iff_toNat_lt.mpr place)
    (Bool.eq_true_of_not_eq_false spent)).1
  rw [free] at used
  cases used

end

end WalletManager

open WalletManager

namespace TwoLeaves

def network : Params := { smallNetwork with noiseLeafCount := 2 }

def file : NoiseFile := (NoiseFile.generate network (List.replicate 64 0) 2).getD .empty

/-- A wallet that has loaded its noise file of two leaves. -/
def wallet : WalletManager :=
  { OneLeaf.wallet with mNoiseFile := some file, mNoiseKps := file.mRoot }

/-- The chain once it has seen the second leaf, and once it has seen the first too. -/
def second : UTXOSet := (UTXOSet.ofDisk .empty).turns network [.op (.markNoiseLeafSpent ⟨file.mRoot, 1⟩)]

def both : UTXOSet := second.turns network [.op (.markNoiseLeafSpent ⟨file.mRoot, 0⟩)]

end TwoLeaves

theorem leaves_synced_iff_one_leaf :
    let u := (UTXOSet.ofDisk .empty).turns smallNetwork [.op (.markNoiseLeafSpent ⟨0, 0⟩)]
    ∀ i < smallNetwork.noiseLeafCount, u.isNoiseLeafSpent ⟨0, i⟩ = true →
      (OneLeaf.wallet.syncWith u true).MarksUsed i := by
  obtain ⟨nf, loaded, pool⟩ : ∃ nf, OneLeaf.wallet.mNoiseFile = some nf ∧
      nf.mNextLeaf = 0 ∧ nf.mLeaves.length = 1 := ⟨_, rfl, rfl, rfl⟩
  refine (leaves_synced_iff (by decide) OneLeaf.ready loaded .empty
    [.op (.markNoiseLeafSpent ⟨0, 0⟩)] true).1.mpr fun i inside _ => .inr ⟨?_, ?_, ?_, ?_⟩
  · rw [pool.1, pool.2]
    decide
  · decide
  · exact ⟨0, pool.1 ▸ UInt32.le_refl _, by decide⟩
  · exact ⟨0, UInt32.le_iff_toNat_le.mpr (Nat.le_of_lt_succ (UInt32.lt_iff_toNat_lt.mp inside)),
      by decide⟩

/-- The second synchronisation finds the pointer past both leaves and marks nothing. -/
theorem first_leaf_left_unmarked :
    let synced := TwoLeaves.wallet.syncWith TwoLeaves.second true
    TwoLeaves.both.isNoiseLeafSpent ⟨synced.mNoiseKps, 0⟩ = true ∧
      ¬ (synced.syncWith TwoLeaves.both true).MarksUsed 0 := by
  refine ⟨by decide +kernel, ?_⟩
  rintro ⟨-, nf, loaded, used⟩
  have unmarked : ((TwoLeaves.wallet.syncWith TwoLeaves.second true).syncWith TwoLeaves.both
      true).mNoiseFile.map (·.isLeafUsed 0) = some false := by decide +kernel
  rw [loaded, Option.map_some, used] at unmarked
  cases unmarked

end QmaskCore
