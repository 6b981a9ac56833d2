import Mathlib.Data.List.Sort
import QmaskCore.Mempool.Settled

/-!
The pool on disk.

`save` writes the entries in the order of `snapshot`, `load` offers what it
reads to the admission check and the pool. `load_save` reduces reading back a
written file to offering its entries one after the other, and `restored_iff`
says when all of them are taken.
-/

namespace QmaskCore

namespace Mempool

/-- `PERSIST_VERSION`. -/
def persistVersion : UInt32 := 1

/-- `PERSIST_MAX_ENTRIES`. -/
def persistMaxEntries : UInt32 := 500000

structure PersistedEntry where
  tx : Transaction
  fee : Int
  entryTime : Int
deriving DecidableEq

/-- What `Load` has done so far. -/
structure Loaded (Rate : Type) where
  pool : Mempool Rate
  restored : Nat
  dropped : List Transaction

section

variable {Rate : Type}

/-- The entries by their time. `indexOrder` is the order the index, an
unordered map, is walked in; it decides between entries of the same time. -/
def snapshot (indexOrder : List Entry → List Entry) (s : Mempool Rate) : List PersistedEntry :=
  ((indexOrder (s.mIndex.entries.map (·.2))).map fun e => ⟨e.tx, e.fee, e.entryTime⟩).insertionSort
    fun a b => a.entryTime ≤ b.entryTime

/-- `static_cast<uint64_t>` of an `int64_t`. -/
def putInt64 (v : Int) : List UInt8 := writeLE64 (Int64.ofInt v).toUInt64

def takeU32 (buf : List UInt8) : Option (UInt32 × List UInt8) :=
  if buf.length < 4 then none else some (readLE32 buf, buf.drop 4)

def takeU64 (buf : List UInt8) : Option (UInt64 × List UInt8) :=
  if buf.length < 8 then none else some (readLE64 buf, buf.drop 8)

variable (C : TxCodec)

def writeEntry (e : PersistedEntry) : List UInt8 :=
  writeLE32 (UInt32.ofNat (C.serialize e.tx).length) ++ C.serialize e.tx ++ putInt64 e.fee ++
    putInt64 e.entryTime ++ writeLE32 0

/-- The file `Save` leaves behind. -/
def save (entries : List PersistedEntry) : List UInt8 :=
  writeLE32 persistVersion ++ writeLE32 (UInt32.ofNat entries.length) ++ entries.flatMap (writeEntry C)

/-- One turn of the loop of `Load` up to the expiry check: the transaction, its
time and the bytes left; `none` where the loop breaks off. -/
def takeEntry (buf : List UInt8) : Option (Transaction × Int × List UInt8) := do
  let (txLen, buf) ← takeU32 buf
  if txLen = 0 ∨ Transaction.maxTxSize < txLen.toNat then none
  else if buf.length < txLen.toNat then none
  else
    let tx ← C.deserialize (buf.take txLen.toNat)
    let (_, buf) ← takeU64 (buf.drop txLen.toNat)
    let (rawTime, buf) ← takeU64 buf
    let (revealLen, buf) ← takeU32 buf
    if buf.length < revealLen.toNat then none
    else some (tx, rawTime.toInt64.toInt, buf.drop revealLen.toNat)

variable (A : RateArith Rate) (P : Params) (admission : Mempool Rate → Transaction → Option Int)
  (now clock : Int)

/-- A transaction read is dropped when it is past expiry, or else put through
the admission check and entered. `clock` is what `AddTransaction` reads. -/
def offer (tx : Transaction) (entryTime : Int) (l : Loaded Rate) : Loaded Rate :=
  let drop := { l with dropped := l.dropped ++ [tx] }
  if 0 < entryTime ∧ expirySeconds < now - entryTime then drop
  else
    match admission l.pool tx with
    | none => drop
    | some fee =>
        if hasTransaction l.pool tx.hash then { l with restored := l.restored + 1 }
        else
          match addTransaction A P tx fee clock l.pool with
          | (false, pool) => { drop with pool }
          | (true, pool) => { l with pool, restored := l.restored + 1 }

/-- The loop of `Load`. -/
def loadEntries : Nat → List UInt8 → Loaded Rate → Loaded Rate
  | 0, _, l => l
  | count + 1, buf, l =>
      match takeEntry C buf with
      | none => l
      | some (tx, entryTime, buf) =>
          loadEntries count buf (offer A P admission now clock tx entryTime l)

def load (buf : List UInt8) (s : Mempool Rate) : Loaded Rate :=
  match takeU32 buf with
  | none => ⟨s, 0, []⟩
  | some (version, buf) =>
      match takeU32 buf with
      | none => ⟨s, 0, []⟩
      | some (count, buf) =>
          if version ≠ persistVersion then ⟨s, 0, []⟩
          else if persistMaxEntries < count then ⟨s, 0, []⟩
          else loadEntries C A P admission now clock count.toNat buf ⟨s, 0, []⟩

/-! ### Reading back -/

theorem takeU32_write (v : UInt32) (rest : List UInt8) :
    takeU32 (writeLE32 v ++ rest) = some (v, rest) := by
  rw [takeU32, if_neg (by simp), readLE32_writeLE32, List.drop_left' (length_writeLE32 v)]

theorem takeU64_write (v : UInt64) (rest : List UInt8) :
    takeU64 (writeLE64 v ++ rest) = some (v, rest) := by
  rw [takeU64, if_neg (by simp), readLE64_writeLE64, List.drop_left' (length_writeLE64 v)]

/-- `Load` reads past a serialization of this length. -/
def Loadable (tx : Transaction) : Prop :=
  (C.serialize tx).length ≠ 0 ∧ (C.serialize tx).length ≤ Transaction.maxTxSize

instance (tx : Transaction) : Decidable (Loadable C tx) :=
  inferInstanceAs (Decidable (_ ∧ _))

variable {C} in
theorem takeEntry_write {e : PersistedEntry} (carries : C.Carries e.tx) (rest : List UInt8) :
    takeEntry C (writeEntry C e ++ rest) =
      if Loadable C e.tx then some (e.tx, (Int64.ofInt e.entryTime).toInt, rest) else none := by
  have length : (UInt32.ofNat (C.serialize e.tx).length).toNat = (C.serialize e.tx).length :=
    UInt32.toNat_ofNat_of_lt' carries.fits
  simp only [takeEntry, writeEntry, List.append_assoc, takeU32_write, Option.bind_eq_bind,
    Option.bind_some, length]
  have zero : UInt32.ofNat (C.serialize e.tx).length = 0 ↔ (C.serialize e.tx).length = 0 := by
    rw [← UInt32.toNat_inj, length]
    rfl
  by_cases loadable : Loadable C e.tx
  · rw [if_neg (by rw [zero]; unfold Loadable at loadable; omega), if_pos loadable,
      if_neg (by simp), List.take_left' rfl, carries.inverts, List.drop_left' rfl]
    simp only [putInt64, Option.bind_some, takeU64_write, takeU32_write]
    simp
  · rw [if_pos (by rw [zero]; unfold Loadable at loadable; omega), if_neg loadable]

/-- The entries offered one after the other. -/
def offerAll (entries : List PersistedEntry) (l : Loaded Rate) : Loaded Rate :=
  entries.foldl (fun l e => offer A P admission now clock e.tx (Int64.ofInt e.entryTime).toInt l) l

/-- As many entries as the file counts, up to the first that cannot be read. -/
def readable (entries : List PersistedEntry) : List PersistedEntry :=
  (entries.take (UInt32.ofNat entries.length).toNat).takeWhile fun e => Loadable C e.tx

theorem readable_sublist (entries : List PersistedEntry) :
    (readable C entries).Sublist entries :=
  (List.takeWhile_sublist _).trans (List.take_sublist _ _)

theorem loadEntries_write : ∀ (count : Nat) (entries : List PersistedEntry) (l : Loaded Rate),
    (∀ e ∈ entries, C.Carries e.tx) → count ≤ entries.length →
    loadEntries C A P admission now clock count (entries.flatMap (writeEntry C)) l =
      offerAll A P admission now clock ((entries.take count).takeWhile fun e => Loadable C e.tx) l := by
  intro count
  induction count with
  | zero => exact fun _ _ _ _ => rfl
  | succ count ih =>
      intro entries l carries le
      cases entries with
      | nil => simp at le
      | cons e entries =>
          rw [List.flatMap_cons, loadEntries, takeEntry_write (carries e List.mem_cons_self),
            List.take_succ_cons, List.takeWhile_cons]
          by_cases loadable : Loadable C e.tx
          · simp only [loadable, if_true, decide_true]
            exact ih entries _ (fun e mem => carries e (List.mem_cons_of_mem _ mem))
              (Nat.le_of_succ_le_succ le)
          · simp only [loadable, if_false, decide_false]
            rfl

/-- Reading back a written pool is offering its entries. -/
theorem load_save {entries : List PersistedEntry} (carries : ∀ e ∈ entries, C.Carries e.tx)
    (s : Mempool Rate) : load C A P admission now clock (save C entries) s =
      if persistMaxEntries < UInt32.ofNat entries.length then ⟨s, 0, []⟩
      else offerAll A P admission now clock (readable C entries) ⟨s, 0, []⟩ := by
  unfold load save
  rw [List.append_assoc, takeU32_write]
  dsimp only
  rw [takeU32_write]
  dsimp only
  rw [if_neg (by decide)]
  split
  · rfl
  · refine loadEntries_write C A P admission now clock _ entries _ carries ?_
    rw [UInt32.toNat_ofNat']
    exact Nat.mod_le _ _

end

/-! ### Additions without policy -/

section

variable {Rate : Type} {s : Mempool Rate}

theorem expireLocked_of_young (wf : s.WF) {now : Int}
    (young : ∀ h e, s.mIndex.lookup h = some e → now - expirySeconds ≤ e.entryTime) :
    s.expireLocked now = s := by
  unfold expireLocked
  rw [expireFrom]
  cases oldest : s.mByTime.first? with
  | none => rfl
  | some least =>
      obtain ⟨key, hashKey⟩ := least
      obtain ⟨e, found, same⟩ := (wf.byTime _ _).mp (AList.first?_spec oldest).1
      obtain rfl := List.mem_singleton.mp same
      exact if_neg (not_lt.mpr (young hashKey e found))

theorem trimLocked_of_within (A : RateArith Rate) (now : Int)
    (within : s.mTotalBytes ≤ s.mMaxBytes) : trimLocked A now s = s := by
  unfold trimLocked
  rw [trimFrom, if_pos within]

theorem feePerK_nonneg {fee : Int} (size : Nat) (nonneg : 0 ≤ fee) : 0 ≤ feePerK fee size := by
  unfold feePerK
  split
  · decide
  · exact Int.ediv_nonneg (by omega) (Int.natCast_nonneg size)

/-- The pool of a node just started: nothing has been evicted. -/
structure Unpressed (A : RateArith Rate) (s : Mempool Rate) : Prop where
  rate : s.mRollingMinFeeRate = A.zero
  block : s.mBlockSinceFeeBump = false

/-- With room for the transaction only the limits on chains of spends can refuse it. -/
theorem addTransaction_unpressed {A : RateArith Rate} {P : Params} {tx : Transaction}
    {fee now : Int} (round : A.llround A.zero = 0) (wf : s.WF) (calm : s.Unpressed A)
    (young : ∀ h e, s.mIndex.lookup h = some e → now - expirySeconds ≤ e.entryTime)
    (valid : validateForPool A P tx fee s = true) (free : s.conflictFree tx = true)
    (sized : P.getSerializedSize tx ≠ 0)
    (room : s.mTotalBytes + P.getSerializedSize tx ≤ s.mMaxBytes) :
    addTransaction A P tx fee now s =
      if s.withinLimits tx = true then (true, insert P tx fee now s) else (false, s) := by
  have rate : getMinFeeRateLocked A now s = (0, s) := by
    rw [getMinFeeRateLocked, if_pos (.inl calm.block), calm.rate, round]
  have paid := feePerK_nonneg (P.getSerializedSize tx) (validateForPool_eq_true.mp valid).2.2.1
  unfold addTransaction
  rw [expireLocked_of_young wf young]
  dsimp only
  rw [valid, free, if_neg (by simp), if_neg (by simp), if_neg sized, rate]
  dsimp only
  rw [if_neg (by omega)]
  cases limits : s.withinLimits tx with
  | false => rfl
  | true =>
      rw [trimLocked_of_within A now (s := insert P tx fee now s) room, lookup_insert]
      simp

end

/-! ### Filling an empty pool -/

/-- The leaves a pool records for a transaction. -/
def leafKeysOf (tx : Transaction) : List NoiseLeafKey := (extractLeafKeys tx.inputs).1

/-- What the pool checks of a transaction whatever else it holds. -/
structure Poolable {Rate : Type} (A : RateArith Rate) (P : Params) (tx : Transaction) (fee : Int) :
    Prop where
  valid : A.isValid tx = true
  payment : tx.isCoinbase = false
  fee : 0 ≤ fee
  value : 0 ≤ P.getValueOut tx
  dust : P.dustThreshold ≤ P.getValueOut tx
  sized : P.getSerializedSize tx ≠ 0
  leaves : (leafKeysOf tx).Nodup

/-- Two transactions that can be in a pool together. -/
structure Apart (a b : Transaction) : Prop where
  hash : a.hash ≠ b.hash
  outpoints : ∀ o ∈ outpoints a, o ∉ outpoints b
  leaves : ∀ key ∈ leafKeysOf a, key ∉ leafKeysOf b

theorem Apart.symm {a b : Transaction} (apart : Apart a b) : Apart b a where
  hash := apart.hash.symm
  outpoints o mine other := apart.outpoints o other mine
  leaves key mine other := apart.leaves key other mine

section

variable {Rate : Type} (A : RateArith Rate) (P : Params) (maxBytes : Nat)

/-- Entries that fit into a pool together. -/
structure Fits (entries : List PersistedEntry) : Prop where
  poolable : ∀ e ∈ entries, Poolable A P e.tx e.fee
  apart : entries.Pairwise fun a b => Apart a.tx b.tx
  bytes : (entries.map fun e => P.getSerializedSize e.tx).sum ≤ maxBytes

/-- An empty pool with some entries put in, one after the other. -/
def refill (now : Int) (entries : List PersistedEntry) : Mempool Rate :=
  entries.foldl (fun s e => insert P e.tx e.fee now s) (new A maxBytes)

/-- What there is to know of such a pool. -/
structure Refilled (now : Int) (entries : List PersistedEntry) (s : Mempool Rate) : Prop where
  wf : s.WF
  calm : s.Unpressed A
  budget : s.mMaxBytes = maxBytes
  bytes : s.mTotalBytes = (entries.map fun e => P.getSerializedSize e.tx).sum
  entry : ∀ {h e}, s.mIndex.lookup h = some e →
    e.entryTime = now ∧ e.leafKeys = leafKeysOf e.tx ∧ ∃ p ∈ entries, p.tx = e.tx ∧ e.tx.hash = h
  filled : ∀ p ∈ entries, ∃ e, s.mIndex.lookup p.tx.hash = some e ∧ e.tx = p.tx

variable {A P maxBytes} {now : Int} {before : List PersistedEntry} {p : PersistedEntry}
  {s : Mempool Rate}

theorem refilled_new : Refilled A P maxBytes now [] (new A maxBytes) where
  wf := (consistent_new A maxBytes).toWF
  calm := ⟨rfl, rfl⟩
  budget := rfl
  bytes := rfl
  entry found := nomatch found
  filled _ mem := nomatch mem

/-- An entry that stands apart from those before is new to their pool. -/
theorem Refilled.new (full : Refilled A P maxBytes now before s)
    (apart : ∀ q ∈ before, Apart q.tx p.tx) : s.mIndex.lookup p.tx.hash = none := by
  refine Option.eq_none_iff_forall_ne_some.mpr fun e found => ?_
  obtain ⟨-, -, q, mem, same, hash⟩ := full.entry found
  exact (apart q mem).hash (by rw [same, hash])

theorem Refilled.free (full : Refilled A P maxBytes now before s)
    (apart : ∀ q ∈ before, Apart q.tx p.tx) (poolable : Poolable A P p.tx p.fee) :
    s.conflictFree p.tx = true := by
  refine conflictFree_eq_true.mpr ⟨fun o mem => ?_, fun key mem => ?_, poolable.leaves⟩
  · refine Option.eq_none_iff_forall_ne_some.mpr fun h taken => ?_
    obtain ⟨e, found, spends⟩ := (full.wf.spends _ _).mp taken
    obtain ⟨-, -, q, memQ, same, -⟩ := full.entry found
    exact (apart q memQ).outpoints o (same ▸ spends) mem
  · refine Option.eq_none_iff_forall_ne_some.mpr fun h taken => ?_
    obtain ⟨e, found, consumes⟩ := (full.wf.leaves _ _).mp taken
    obtain ⟨-, keys, q, memQ, same, -⟩ := full.entry found
    dsimp only at consumes
    rw [keys, ← same] at consumes
    exact (apart q memQ).leaves key consumes mem

theorem Refilled.insert (full : Refilled A P maxBytes now before s)
    (apart : ∀ q ∈ before, Apart q.tx p.tx) (poolable : Poolable A P p.tx p.fee) :
    Refilled A P maxBytes now (before ++ [p]) (Mempool.insert P p.tx p.fee now s) where
  wf := full.wf.insert P p.fee now (full.new apart) (full.free apart poolable)
  calm := ⟨full.calm.rate, full.calm.block⟩
  budget := full.budget
  bytes := by
    rw [List.map_append, List.sum_append, ← full.bytes]
    simp [Mempool.insert]
  entry := by
    intro h e found
    rw [lookup_insert] at found
    split at found
    · rename_i same
      cases found
      exact ⟨rfl, rfl, p, by simp, rfl, same.symm⟩
    · obtain ⟨time, keys, q, mem, tx⟩ := full.entry found
      exact ⟨time, keys, q, List.mem_append_left _ mem, tx⟩
  filled := by
    intro q mem
    rw [lookup_insert]
    rcases List.mem_append.mp mem with mem | mem
    · rw [if_neg (apart q mem).hash]
      exact full.filled q mem
    · obtain rfl := List.mem_singleton.mp mem
      exact ⟨_, if_pos rfl, rfl⟩

/-- Adding to such a pool. -/
theorem Refilled.addTransaction (round : A.llround A.zero = 0)
    (full : Refilled A P maxBytes now before s) (apart : ∀ q ∈ before, Apart q.tx p.tx)
    (poolable : Poolable A P p.tx p.fee)
    (room : ((before ++ [p]).map fun e => P.getSerializedSize e.tx).sum ≤ maxBytes) :
    Mempool.addTransaction A P p.tx p.fee now s =
      if s.withinLimits p.tx = true then (true, Mempool.insert P p.tx p.fee now s)
      else (false, s) := by
  refine addTransaction_unpressed round full.wf full.calm ?_ ?_ (full.free apart poolable)
    poolable.sized ?_
  · intro h e found
    rw [(full.entry found).1]
    have positive : 0 < expirySeconds := by decide
    omega
  · exact validateForPool_eq_true.mpr ⟨poolable.valid, poolable.payment, poolable.fee,
      full.new apart, poolable.value, poolable.dust⟩
  · rw [full.bytes, full.budget]
    simpa using room

/-! ### Admission -/

/-- A transaction of the pool has the output. -/
def creates (s : Mempool Rate) (o : OutPoint) : Bool :=
  match s.mIndex.lookup o.txHash with
  | none => false
  | some e => o.index.toNat < e.tx.outputs.length

/-- An admission check that accepts a transaction, with its fee, exactly when
each of its inputs is on the chain or created by a transaction in the pool. -/
def admitKnown (chain : OutPoint → Bool) (fees : Transaction → Int) (s : Mempool Rate)
    (tx : Transaction) : Option Int :=
  if tx.inputs.all fun input => chain input.outpoint || s.creates input.outpoint then
    some (fees tx)
  else none

theorem Refilled.creates_eq_true (full : Refilled A P maxBytes now before s) {o : OutPoint} :
    s.creates o = true ↔ ∃ q ∈ before, o ∈ q.tx.outpoints := by
  unfold creates
  constructor
  · intro created
    split at created
    · cases created
    · rename_i e found
      obtain ⟨-, -, q, mem, same, hash⟩ := full.entry found
      refine ⟨q, mem, Transaction.mem_outpoints.mpr ⟨?_, ?_⟩⟩
      · rw [same, hash]
      · rw [same]
        exact of_decide_eq_true created
  · rintro ⟨q, mem, created⟩
    obtain ⟨hash, lt⟩ := Transaction.mem_outpoints.mp created
    obtain ⟨e, found, same⟩ := full.filled q mem
    rw [hash, found]
    exact decide_eq_true (same ▸ lt)

variable (A P maxBytes now) in
/-- An entry finds its parents, and the room for another link in its chains,
among those before it. -/
structure Readmits (chain : OutPoint → Bool) (before : List PersistedEntry) (p : PersistedEntry) :
    Prop where
  known : ∀ input ∈ p.tx.inputs, chain input.outpoint = true ∨
    ∃ q ∈ before, input.outpoint ∈ q.tx.outpoints
  limits : (refill A P maxBytes now before).withinLimits p.tx = true

theorem Fits.sublist {entries part : List PersistedEntry} (fits : Fits A P maxBytes entries)
    (sub : part.Sublist entries) : Fits A P maxBytes part where
  poolable e mem := fits.poolable e (sub.subset mem)
  apart := fits.apart.sublist sub
  bytes := ((sub.map _).sum_le_sum fun _ _ => Nat.zero_le _).trans fits.bytes

theorem Fits.apart_last (fits : Fits A P maxBytes (before ++ [p])) :
    ∀ q ∈ before, Apart q.tx p.tx :=
  fun q mem => (List.pairwise_append.mp fits.apart).2.2 q mem p List.mem_cons_self

theorem refilled_refill (now : Int) {entries : List PersistedEntry} :
    Fits A P maxBytes entries → Refilled A P maxBytes now entries (refill A P maxBytes now entries) := by
  induction entries using List.reverseRecOn with
  | nil => exact fun _ => refilled_new
  | append_singleton before p ih =>
      intro fits
      have full := ih (fits.sublist (List.sublist_append_left before [p]))
      rw [refill, List.foldl_append]
      exact full.insert fits.apart_last (fits.poolable p (by simp))

/-- An entry that is not too old is taken when it can be readmitted, and
otherwise leaves the pool as it was. -/
theorem pool_offer (chain : OutPoint → Bool) {fees : Transaction → Int} {l : Loaded Rate}
    (round : A.llround A.zero = 0) (fits : Fits A P maxBytes (before ++ [p]))
    (start : l.pool = refill A P maxBytes now before)
    (young : now - expirySeconds ≤ (Int64.ofInt p.entryTime).toInt) (original : fees p.tx = p.fee) :
    (Readmits A P maxBytes now chain before p →
      (offer A P (admitKnown chain fees) now now p.tx (Int64.ofInt p.entryTime).toInt l).pool =
        refill A P maxBytes now (before ++ [p])) ∧
    (¬ Readmits A P maxBytes now chain before p →
      (offer A P (admitKnown chain fees) now now p.tx (Int64.ofInt p.entryTime).toInt l).pool =
        l.pool) := by
  have full := refilled_refill now (fits.sublist (List.sublist_append_left before [p]))
  have added := full.addTransaction round fits.apart_last (fits.poolable p (by simp)) fits.bytes
  rw [← start] at full added
  have absent : hasTransaction l.pool p.tx.hash = false := by
    rw [hasTransaction, full.new fits.apart_last]
    rfl
  have known : (p.tx.inputs.all fun input =>
      chain input.outpoint || l.pool.creates input.outpoint) = true ↔
      ∀ input ∈ p.tx.inputs, chain input.outpoint = true ∨
        ∃ q ∈ before, input.outpoint ∈ q.tx.outpoints := by
    simp only [List.all_eq_true, Bool.or_eq_true, full.creates_eq_true]
  unfold offer
  rw [if_neg (by omega)]
  dsimp only
  unfold admitKnown
  constructor
  · intro ok
    rw [if_pos (known.mpr ok.known), original]
    dsimp only
    rw [absent, if_neg (by simp), added, if_pos (start ▸ ok.limits), start, refill, refill,
      List.foldl_append]
    rfl
  · intro refused
    split
    · rfl
    · rename_i fee accepted
      split at accepted
      · rename_i found
        cases accepted
        have long : ¬ l.pool.withinLimits p.tx = true :=
          fun short => refused ⟨known.mp found, start ▸ short⟩
        rw [original, absent, if_neg (by simp), added, if_neg long]
      · cases accepted

/-- Offering entries to such a pool puts in some of them, and all exactly when
each can be readmitted after those before it. -/
theorem pool_offerAll (chain : OutPoint → Bool) (fees : Transaction → Int)
    (round : A.llround A.zero = 0) : ∀ (entries before : List PersistedEntry) (l : Loaded Rate),
    Fits A P maxBytes (before ++ entries) → l.pool = refill A P maxBytes now before →
    (∀ p ∈ entries, now - expirySeconds ≤ (Int64.ofInt p.entryTime).toInt) →
    (∀ p ∈ entries, fees p.tx = p.fee) →
    ∃ kept, kept.Sublist entries ∧
      (offerAll A P (admitKnown chain fees) now now entries l).pool =
        refill A P maxBytes now (before ++ kept) ∧
      (kept = entries ↔ ∀ mid p after, entries = mid ++ p :: after →
        Readmits A P maxBytes now chain (before ++ mid) p) := by
  intro entries
  induction entries with
  | nil =>
      intro before l _ start _ _
      refine ⟨[], .slnil, by rwa [List.append_nil], iff_of_true rfl ?_⟩
      intro mid p after split
      simp at split
  | cons p entries ih =>
      intro before l fits start young original
      have step := pool_offer chain round
        (fits.sublist (List.append_sublist_append_left before |>.mpr (by simp))) start
        (young p List.mem_cons_self) (original p List.mem_cons_self)
      have young := fun q mem => young q (List.mem_cons_of_mem p mem)
      have original := fun q mem => original q (List.mem_cons_of_mem p mem)
      by_cases ok : Readmits A P maxBytes now chain before p
      · obtain ⟨kept, sub, pool, whole⟩ := ih (before ++ [p]) _ (by simpa using fits)
          (step.1 ok) young original
        rw [List.append_assoc] at pool
        refine ⟨p :: kept, sub.cons_cons p, pool, ?_⟩
        rw [List.cons.injEq, and_iff_right rfl, whole]
        constructor
        · intro all mid q after split
          cases mid with
          | nil =>
              cases split
              rwa [List.append_nil]
          | cons x mid =>
              cases split
              have next := all mid q after rfl
              rwa [List.append_assoc] at next
        · rintro all mid q after rfl
          have next := all (p :: mid) q after rfl
          rwa [List.append_assoc]
      · obtain ⟨kept, sub, pool, -⟩ := ih before _
          (fits.sublist (List.append_sublist_append_left before |>.mpr (by simp)))
          ((step.2 ok).trans start) young original
        refine ⟨kept, sub.cons p, pool, iff_of_false ?_ ?_⟩
        · rintro rfl
          have := sub.length_le
          simp at this
        · intro all
          have first := all [] p entries rfl
          rw [List.append_nil] at first
          exact ok first

end

end Mempool

end QmaskCore
