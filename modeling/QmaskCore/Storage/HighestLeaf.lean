import QmaskCore.SmallNetwork
import QmaskCore.Storage.CachedStore
import Mathlib.Order.Bounds.Basic

/-!
The highest spent leaf of a KPS.

`isNoiseLeafSpent` looks one leaf up; `getHighestSpentNoiseLeaf` takes the
highest of the leaves held in memory and of those an ordered walk over the
database's keys yields. The walk yields none (`scanLeaves_stored`): `GetKey`
takes a key only when it is as long as the C++ string object, and every key
the database holds has another length. So the query is right in exactly the
states where the greatest spent leaf is held in memory
(`highest_leaf_found_iff`), and `LeavesInMemory.turns` keeps that over a run
that reopens no database holding a leaf of the KPS.
-/

namespace QmaskCore

/-! ### The keys of the database -/

/-- `DataStream`: a string goes behind its length. -/
def putString (s : List UInt8) : List UInt8 := writeLE32 (UInt32.ofNat s.length) ++ s

/-- `DataStream`: a string is read back if the record is long enough. -/
def takeString (data : List UInt8) : Option (List UInt8) :=
  if data.length < 4 then none
  else
    let len := (readLE32 data).toNat
    if data.length - 4 < len then none else some ((data.drop 4).take len)

/-- `MakeNoiseLeafDBKey`: the letter `N`, the KPS and the index. -/
def NoiseLeafKey.dbKey (key : NoiseLeafKey) : List UInt8 :=
  78 :: (key.kps.toBytes ++ writeLE32 key.leafIndex)

/-- An outpoint as it lies in memory. -/
def OutPoint.dbKey (outpoint : OutPoint) : List UInt8 :=
  outpoint.txHash.toBytes ++ writeLE32 outpoint.index

/-- `OBFUSCATE_KEY_KEY`. -/
def obfuscateKeyKey : List UInt8 := [0, 111, 98, 102, 117, 115, 99, 97, 116, 101, 95, 107, 101, 121]

/-- The keys as the database sees them, in no order. -/
def UTXODB.rawKeys (db : UTXODB) : List (List UInt8) :=
  db.coins.keys.map OutPoint.dbKey ++ db.leaves.map (fun key => putString key.dbKey) ++
    (if db.best.isSome then [[117]] else []) ++ (if db.heads.isSome then [[104]] else []) ++
    [putString obfuscateKeyKey]

/-- `DBIterator::Seek`: the keys from the wanted one on, in byte order. -/
def UTXODB.seek (db : UTXODB) (wanted : List UInt8) : List (List UInt8) :=
  (db.rawKeys.filter fun raw => decide (¬ raw < wanted)).mergeSort fun a b => decide (a ≤ b)

/-- `sizeof(std::string)`. -/
def sizeofString : Nat := 32

/-- `DBIterator::GetKey`, for a string. -/
def getStringKey (raw : List UInt8) : Option (List UInt8) :=
  if raw.length ≠ sizeofString then none else takeString raw

/-! ### The query -/

namespace UTXOSet

/-- A leaf takes part unless its erasure waits for the next commit. -/
def consider (u : UTXOSet) (kps : Bytes32) (highest : Option UInt32) (index : UInt32) :
    Option UInt32 :=
  if ⟨kps, index⟩ ∈ u.mErasedLeafDirty then highest
  else
    match highest with
    | none => some index
    | some top => if top < index then some index else some top

/-- The walk, up to the first key that is not a leaf of the KPS. -/
def scanLeaves (u : UTXOSet) (kps : Bytes32) : List (List UInt8) → Option UInt32 → Option UInt32
  | [], highest => highest
  | raw :: rest, highest =>
      match getStringKey raw with
      | none => highest
      | some key =>
          if key.length ≠ 1 + 32 + 4 then highest
          else if key.take (1 + 32) ≠ (NoiseLeafKey.dbKey ⟨kps, 0⟩).take (1 + 32) then highest
          else scanLeaves u kps rest (u.consider kps highest (readLE32 (key.drop (1 + 32))))

def getHighestSpentNoiseLeaf (u : UTXOSet) (kps : Bytes32) : Option UInt32 :=
  let cached := (u.mSpentLeafCache.filter fun key => key.kps = kps).map (·.leafIndex)
  u.scanLeaves kps (u.mDB.seek (putString (NoiseLeafKey.dbKey ⟨kps, 0⟩)))
    (cached.foldl (u.consider kps) none)

/-! ### What it finds -/

/-- The answer is the greatest spent index, and none only when none is spent. -/
def FindsHighest (u : UTXOSet) (kps : Bytes32) : Prop :=
  (∀ m, u.getHighestSpentNoiseLeaf kps = some m ↔
    IsGreatest {i | u.isNoiseLeafSpent ⟨kps, i⟩ = true} m) ∧
  (u.getHighestSpentNoiseLeaf kps = none ↔ ∀ i, u.isNoiseLeafSpent ⟨kps, i⟩ = false)

/-- Each spent index on disk is at or below one held in memory. -/
def LeavesInMemory (u : UTXOSet) (kps : Bytes32) : Prop :=
  ∀ i, ⟨kps, i⟩ ∈ u.mDB.leaves → ⟨kps, i⟩ ∉ u.mErasedLeafDirty →
    ∃ j, i ≤ j ∧ ⟨kps, j⟩ ∈ u.mSpentLeafCache

end UTXOSet

theorem length_stored_key {db : UTXODB} {raw : List UInt8} (mem : raw ∈ db.rawKeys) :
    raw.length ≠ sizeofString := by
  simp only [UTXODB.rawKeys, List.mem_append, List.mem_map] at mem
  rcases mem with (((⟨o, -, rfl⟩ | ⟨key, -, rfl⟩) | best) | heads) | obfuscate
  · simp [OutPoint.dbKey, sizeofString]
  · simp [NoiseLeafKey.dbKey, putString, sizeofString]
  · split at best <;> simp_all [sizeofString]
  · split at heads <;> simp_all [sizeofString]
  · rw [List.mem_singleton.mp obfuscate]
    decide

/-- The walk over the stored keys ends at the first of them. -/
theorem UTXOSet.scanLeaves_stored (u : UTXOSet) (kps : Bytes32) (wanted : List UInt8)
    (highest : Option UInt32) : u.scanLeaves kps (u.mDB.seek wanted) highest = highest := by
  cases found : u.mDB.seek wanted with
  | nil => rfl
  | cons raw rest =>
      have stored : raw ∈ u.mDB.rawKeys := by
        have listed : raw ∈ u.mDB.seek wanted := found ▸ List.mem_cons_self
        exact List.mem_of_mem_filter (List.mem_mergeSort.mp listed)
      rw [UTXOSet.scanLeaves, getStringKey, if_pos (length_stored_key stored)]

/-! ### The greatest of a set, as it grows -/

/-- `none` stands for the empty set. -/
def HighestOf (S : Set UInt32) : Option UInt32 → Prop
  | none => S = ∅
  | some m => IsGreatest S m

theorem HighestOf.iff {S : Set UInt32} {o : Option UInt32} (top : HighestOf S o) :
    (∀ m, o = some m ↔ IsGreatest S m) ∧ (o = none ↔ S = ∅) := by
  cases o with
  | none =>
      have empty : S = ∅ := top
      refine ⟨fun m => ⟨nofun, fun great => ?_⟩, by simp [empty]⟩
      rw [empty] at great
      exact great.1.elim
  | some m =>
      have great : IsGreatest S m := top
      refine ⟨fun m' => ⟨?_, fun great' => ?_⟩, nofun, ?_⟩
      · rintro ⟨rfl⟩
        exact great
      · exact congrArg some (UInt32.le_antisymm (great'.2 great.1) (great.2 great'.1))
      · rintro rfl
        exact great.1.elim

namespace UTXOSet

theorem highestOf_consider {S : Set UInt32} {o : Option UInt32} (top : HighestOf S o) (u : UTXOSet)
    (kps : Bytes32) {i : UInt32} (kept : ⟨kps, i⟩ ∉ u.mErasedLeafDirty) :
    HighestOf (insert i S) (u.consider kps o i) := by
  cases o with
  | none =>
      have empty : S = ∅ := top
      rw [empty]
      simp only [consider, if_neg kept]
      exact ⟨.inl rfl, by rintro j (rfl | absurd); exacts [UInt32.le_refl _, absurd.elim]⟩
  | some m =>
      have great : IsGreatest S m := top
      simp only [consider, if_neg kept]
      split
      · rename_i below
        refine ⟨.inl rfl, ?_⟩
        rintro j (rfl | mem)
        · exact UInt32.le_refl _
        · exact UInt32.le_trans (great.2 mem) (UInt32.le_of_lt below)
      · rename_i above
        refine ⟨.inr great.1, ?_⟩
        rintro j (rfl | mem)
        · exact UInt32.not_lt.mp above
        · exact great.2 mem

theorem consider_foldl (u : UTXOSet) (kps : Bytes32) (indices : List UInt32) :
    (∀ i ∈ indices, ⟨kps, i⟩ ∉ u.mErasedLeafDirty) → ∀ {S : Set UInt32} {o : Option UInt32},
      HighestOf S o → HighestOf (S ∪ {i | i ∈ indices}) (indices.foldl (u.consider kps) o) := by
  induction indices with
  | nil =>
      intro _ S o top
      have same : S ∪ {i | i ∈ ([] : List UInt32)} = S := by simp
      rw [same]
      exact top
  | cons i indices ih =>
      intro kept S o top
      have grown := ih (fun j mem => kept j (List.mem_cons_of_mem _ mem))
        (highestOf_consider top u kps (kept i List.mem_cons_self))
      have same : S ∪ {j | j ∈ i :: indices} = insert i S ∪ {j | j ∈ indices} := by
        ext j
        simp only [List.mem_cons, Set.mem_union, Set.mem_ofPred_eq, Set.mem_insert_iff]
        tauto
      rw [same]
      exact grown

/-- The query finds the greatest index held in memory. -/
theorem WF.highest_cached {u : UTXOSet} (wf : u.WF) (kps : Bytes32) :
    HighestOf {i | ⟨kps, i⟩ ∈ u.mSpentLeafCache} (u.getHighestSpentNoiseLeaf kps) := by
  rw [getHighestSpentNoiseLeaf, scanLeaves_stored]
  have listed (i : UInt32) :
      i ∈ (u.mSpentLeafCache.filter fun key => key.kps = kps).map (·.leafIndex) ↔
        ⟨kps, i⟩ ∈ u.mSpentLeafCache := by
    simp only [List.mem_map, List.mem_filter, decide_eq_true_eq]
    constructor
    · rintro ⟨⟨_, _⟩, ⟨mem, rfl⟩, rfl⟩
      exact mem
    · exact fun mem => ⟨_, ⟨mem, rfl⟩, rfl⟩
  have kept : ∀ i ∈ (u.mSpentLeafCache.filter fun key => key.kps = kps).map (·.leafIndex),
      ⟨kps, i⟩ ∉ u.mErasedLeafDirty :=
    fun i mem erased => wf.erasedLeaf erased ((listed i).mp mem)
  have found := consider_foldl u kps _ kept (S := ∅) (o := none) rfl
  simpa only [Set.empty_union, listed] using found

theorem isNoiseLeafSpent_iff (u : UTXOSet) (key : NoiseLeafKey) :
    u.isNoiseLeafSpent key = true ↔
      key ∈ u.mSpentLeafCache ∨ (key ∉ u.mErasedLeafDirty ∧ key ∈ u.mDB.leaves) := by
  unfold isNoiseLeafSpent
  split
  · simp_all
  · split <;> simp_all

/-- The query is right exactly when the greatest spent index is held in memory. -/
theorem WF.findsHighest_iff {u : UTXOSet} (wf : u.WF) (kps : Bytes32) :
    u.FindsHighest kps ↔ u.LeavesInMemory kps := by
  have top := wf.highest_cached kps
  have within {i : UInt32} (mem : ⟨kps, i⟩ ∈ u.mSpentLeafCache) :
      u.isNoiseLeafSpent ⟨kps, i⟩ = true := (u.isNoiseLeafSpent_iff _).mpr (.inl mem)
  constructor
  · rintro ⟨some_iff, none_iff⟩ i stored kept
    have spent : u.isNoiseLeafSpent ⟨kps, i⟩ = true :=
      (u.isNoiseLeafSpent_iff _).mpr (.inr ⟨kept, stored⟩)
    cases answer : u.getHighestSpentNoiseLeaf kps with
    | none =>
        rw [none_iff.mp answer i] at spent
        cases spent
    | some m =>
        have great := (some_iff m).mp answer
        rw [answer] at top
        exact ⟨m, great.2 spent, top.1⟩
  · intro held
    have same : HighestOf {i | u.isNoiseLeafSpent ⟨kps, i⟩ = true}
        (u.getHighestSpentNoiseLeaf kps) := by
      have below {i : UInt32} (spent : u.isNoiseLeafSpent ⟨kps, i⟩ = true) :
          ∃ j, i ≤ j ∧ ⟨kps, j⟩ ∈ u.mSpentLeafCache := by
        rcases (u.isNoiseLeafSpent_iff _).mp spent with mem | ⟨kept, stored⟩
        · exact ⟨i, UInt32.le_refl _, mem⟩
        · exact held i stored kept
      cases answer : u.getHighestSpentNoiseLeaf kps with
      | none =>
          rw [answer] at top
          refine Set.eq_empty_of_forall_notMem fun i spent => ?_
          obtain ⟨j, -, mem⟩ := below spent
          exact Set.notMem_empty j (top ▸ mem)
      | some m =>
          rw [answer] at top
          refine ⟨within top.1, fun i spent => ?_⟩
          obtain ⟨j, le, mem⟩ := below spent
          exact UInt32.le_trans le (top.2 mem)
    refine ⟨same.iff.1, same.iff.2.trans ?_⟩
    simp [Set.eq_empty_iff_forall_notMem]

end UTXOSet

/-! ### Runs with reopenings -/

/-- What happens to the set: an operation, or its database is opened again,
after the destructor's commit or after the process was killed. -/
inductive SetTurn where
  | op (op : CoinOp)
  | reopen
  | kill

namespace UTXOSet

def turn (P : Params) (u : UTXOSet) : SetTurn → UTXOSet
  | .op op => (u.step P op).2
  | .reopen => ofDisk (u.flush P).mDB
  | .kill => ofDisk u.mDB

def turns (P : Params) (u : UTXOSet) (ts : List SetTurn) : UTXOSet := ts.foldl (turn P) u

/-- No database opened on the way holds a leaf of the KPS. -/
def OpensWithout (P : Params) (kps : Bytes32) : UTXOSet → List SetTurn → Prop
  | _, [] => True
  | u, t :: ts =>
      (match t with
        | .op _ => True
        | _ => ∀ i, ⟨kps, i⟩ ∉ (u.turn P t).mDB.leaves) ∧
      OpensWithout P kps (u.turn P t) ts

theorem WF.turn {u : UTXOSet} (wf : u.WF) (P : Params) (t : SetTurn) : (u.turn P t).WF := by
  cases t with
  | op op => exact wf.step P op
  | reopen => exact wf_ofDisk _
  | kill => exact wf_ofDisk _

theorem WF.turns (P : Params) (ts : List SetTurn) : ∀ {u : UTXOSet}, u.WF → (u.turns P ts).WF := by
  induction ts with
  | nil => exact fun wf => wf
  | cons t ts ih => exact fun wf => ih (wf.turn P t)

/-- Every leaf of the KPS on disk is held in memory or about to be erased. -/
def Held (kps : Bytes32) (u : UTXOSet) : Prop :=
  ∀ i, ⟨kps, i⟩ ∈ u.mDB.leaves → ⟨kps, i⟩ ∉ u.mErasedLeafDirty → ⟨kps, i⟩ ∈ u.mSpentLeafCache

theorem Held.steady (kps : Bytes32) : Steady (Held kps) where
  cacheEntry _ _ _ held := held
  eraseOutput _ held := held
  markNoiseLeafSpent k held i stored kept := by
    simp only [UTXOSet.markNoiseLeafSpent, List.mem_insert_iff, List.mem_filter,
      decide_eq_true_eq, not_and, not_not] at kept ⊢
    by_cases same : ⟨kps, i⟩ = k
    · exact .inl same
    · exact .inr (held i stored fun erased => same (kept erased))
  unmarkNoiseLeafSpent k held i stored kept := by
    simp only [UTXOSet.unmarkNoiseLeafSpent, List.mem_insert_iff, List.mem_filter,
      decide_eq_true_eq, not_or] at kept ⊢
    exact ⟨held i stored kept.2, kept.1⟩

theorem Held.flush {kps : Bytes32} {u : UTXOSet} (held : Held kps u) (wf : u.WF) (P : Params) :
    Held kps (u.flush P) := by
  have done := u.flushCache_spec P u.mBestBlock
  intro i stored _
  rw [UTXOSet.flush, done.sameLeafCache]
  obtain ⟨stored | dirty, kept⟩ := (done.leaves _).mp stored
  · exact held i stored kept
  · exact wf.dirtyLeaf dirty

theorem Held.step {kps : Bytes32} {u : UTXOSet} (held : Held kps u) (wf : u.WF) (P : Params)
    (op : CoinOp) : Held kps (u.step P op).2 := by
  have steady := Held.steady kps
  cases op with
  | addCoin o c => exact steady.addCoin o c held
  | spendCoin o => exact steady.spendCoin o held
  | applyTransaction tx height isCoinbase => exact steady.applyTransaction tx height isCoinbase held
  | undoTransaction tx spentCoins => exact steady.undoTransaction tx spentCoins held
  | markNoiseLeafSpent k => exact steady.markNoiseLeafSpent k held
  | unmarkNoiseLeafSpent k => exact steady.unmarkNoiseLeafSpent k held
  | flush => exact held.flush wf P
  | sync => exact held.flush wf P

theorem Held.turns {kps : Bytes32} (P : Params) (ts : List SetTurn) : ∀ {u : UTXOSet}, u.WF →
    Held kps u → OpensWithout P kps u ts → Held kps (u.turns P ts) := by
  induction ts with
  | nil => exact fun _ held _ => held
  | cons t ts ih =>
      intro u wf held fresh
      refine ih (wf.turn P t) ?_ fresh.2
      cases t with
      | op op => exact held.step wf P op
      | reopen => exact fun i stored => absurd stored (fresh.1 i)
      | kill => exact fun i stored => absurd stored (fresh.1 i)

/-- **When the highest spent leaf is found.** In every state of every run from
any database the query for a KPS is right exactly when each of its spent leaves
on disk is at or below one held in memory; over a run that opens no database
holding a leaf of the KPS it is right at every point. -/
theorem highest_leaf_found_iff (P : Params) (db : UTXODB) (kps : Bytes32) (ts : List SetTurn) :
    (((ofDisk db).turns P ts).FindsHighest kps ↔ ((ofDisk db).turns P ts).LeavesInMemory kps) ∧
    ((∀ i, ⟨kps, i⟩ ∉ db.leaves) → OpensWithout P kps (ofDisk db) ts →
      ((ofDisk db).turns P ts).FindsHighest kps) := by
  have wf := (wf_ofDisk db).turns P ts
  refine ⟨wf.findsHighest_iff kps, fun without fresh => (wf.findsHighest_iff kps).mpr ?_⟩
  have held : Held kps ((ofDisk db).turns P ts) :=
    Held.turns P ts (wf_ofDisk db) (fun i stored => absurd stored (without i)) fresh
  exact fun i stored kept => ⟨i, UInt32.le_refl i, held i stored kept⟩

theorem highest_leaf_found_marked :
    ((ofDisk .empty).turns smallNetwork
      [.op (.markNoiseLeafSpent ⟨1, 5⟩), .op .flush]).FindsHighest 1 :=
  (highest_leaf_found_iff smallNetwork .empty 1
    [.op (.markNoiseLeafSpent ⟨1, 5⟩), .op .flush]).2 (fun _ => nofun) ⟨trivial, trivial, trivial⟩

/-- A leaf marked and committed is spent, but not found, once the database is reopened. -/
theorem highest_leaf_lost_reopened :
    let u := (ofDisk .empty).turns smallNetwork [.op (.markNoiseLeafSpent ⟨1, 5⟩), .reopen]
    u.isNoiseLeafSpent ⟨1, 5⟩ = true ∧ u.getHighestSpentNoiseLeaf 1 = none ∧
      ¬ u.FindsHighest 1 := by
  have spent : ((ofDisk .empty).turns smallNetwork
      [.op (.markNoiseLeafSpent ⟨1, 5⟩), .reopen]).isNoiseLeafSpent ⟨1, 5⟩ = true := by
    decide +kernel
  have lost : ((ofDisk .empty).turns smallNetwork
      [.op (.markNoiseLeafSpent ⟨1, 5⟩), .reopen]).getHighestSpentNoiseLeaf 1 = none := by
    rw [getHighestSpentNoiseLeaf, scanLeaves_stored]
    decide +kernel
  refine ⟨spent, lost, fun right => ?_⟩
  rw [right.2.mp lost 5] at spent
  cases spent

end UTXOSet

end QmaskCore
