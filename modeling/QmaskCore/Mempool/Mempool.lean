import Mathlib.Data.Prod.Lex
import QmaskCore.Lib.AssocList
import QmaskCore.Lib.Search
import QmaskCore.Wallet.NoiseOtp

/-!
`Mempool`: the transactions waiting for a block.

The functions are those of the source, with hashes, outpoints and leaves as
keys instead of their byte strings. An ordered map is an association list read
from its smallest key. `now` is the clock, and the arithmetic on `double`
behind the rolling minimum fee is a parameter, `RateArith`.
-/

namespace QmaskCore

/-- What the pool takes from `double` and from the methods of `Transaction`. -/
structure RateArith (Rate : Type) where
  zero : Rate
  /-- `static_cast<double>` of an integer. -/
  ofInt : Int → Rate
  less : Rate → Rate → Bool
  isZero : Rate → Bool
  llround : Rate → Int
  /-- A rate after some seconds, with the divisor of the half-life. -/
  decay : Rate → Int → Nat → Rate
  /-- Below `INCREMENTAL_FEE_PER_K / 2.0`. -/
  faded : Rate → Bool
  isValid : Transaction → Bool

structure Mempool.Entry where
  tx : Transaction
  fee : Int
  size : Nat
  feePerK : Int
  seq : Nat
  entryTime : Int
  leafKeys : List NoiseLeafKey
deriving DecidableEq

structure Mempool (Rate : Type) where
  mIndex : AList fun _ : Bytes32 => Mempool.Entry
  mByFeeRate : AList fun _ : Int ×ₗ Nat => Bytes32
  mByTime : AList fun _ : Int ×ₗ Nat => Bytes32
  mSpends : AList fun _ : OutPoint => Bytes32
  mLeafSpends : AList fun _ : NoiseLeafKey => Bytes32
  mSequenceCounter : Nat
  mMaxBytes : Nat
  mTotalBytes : Nat
  mRollingMinFeeRate : Rate
  mLastRollingFeeUpdate : Int
  mBlockSinceFeeBump : Bool

namespace Mempool

/-- `MEMPOOL_EXPIRY_SECONDS`. -/
def expirySeconds : Int := 336 * 3600

/-- `INCREMENTAL_FEE_PER_K`. -/
def incrementalFeePerK : Int := 1000

/-- `MAX_ANCESTORS`. -/
def maxAncestors : Nat := 25

/-- `MAX_DESCENDANTS`. -/
def maxDescendants : Nat := 25

def Entry.feeKey (e : Entry) : Int ×ₗ Nat := toLex (e.feePerK, e.seq)

def Entry.timeKey (e : Entry) : Int ×ₗ Nat := toLex (e.entryTime, e.seq)

/-- The outpoints a transaction names, a coinbase's null one included. -/
def outpoints (tx : Transaction) : List OutPoint := tx.inputs.map (·.outpoint)

/-- The leaves the proofs of the inputs reveal, up to the first that does not
parse; the flag says whether all do. -/
def extractLeafKeys : List TxInput → List NoiseLeafKey × Bool
  | [] => ([], true)
  | input :: inputs =>
      match input.leaves with
      | (keys, false) => (keys, false)
      | (keys, true) => (keys ++ (extractLeafKeys inputs).1, (extractLeafKeys inputs).2)

section

variable {Rate : Type} (A : RateArith Rate) (P : Params)

/-- `Mempool::Mempool`. -/
def new (maxBytes : Nat) : Mempool Rate :=
  ⟨∅, ∅, ∅, ∅, ∅, 0, maxBytes, 0, A.zero, 0, false⟩

def validateForPool (tx : Transaction) (fee : Int) (s : Mempool Rate) : Bool :=
  A.isValid tx && !tx.isCoinbase && 0 ≤ fee && (s.mIndex.lookup tx.hash).isNone &&
    0 ≤ P.getValueOut tx && P.dustThreshold ≤ P.getValueOut tx

/-- The rate and the pool with the decay it noted down. -/
def getMinFeeRateLocked (now : Int) (s : Mempool Rate) : Int × Mempool Rate :=
  if s.mBlockSinceFeeBump = false ∨ A.isZero s.mRollingMinFeeRate then
    (A.llround s.mRollingMinFeeRate, s)
  else if s.mLastRollingFeeUpdate + 10 < now then
    let divisor :=
      if s.mTotalBytes < s.mMaxBytes / 4 then 4
      else if s.mTotalBytes < s.mMaxBytes / 2 then 2 else 1
    let rate := A.decay s.mRollingMinFeeRate (now - s.mLastRollingFeeUpdate) divisor
    if A.faded rate then
      (0, { s with mRollingMinFeeRate := A.zero, mLastRollingFeeUpdate := now })
    else
      (max (A.llround rate) incrementalFeePerK,
        { s with mRollingMinFeeRate := rate, mLastRollingFeeUpdate := now })
  else (max (A.llround s.mRollingMinFeeRate) incrementalFeePerK, s)

/-! ### Taking out -/

def removeLocked (hashKey : Bytes32) (s : Mempool Rate) : Bool × Mempool Rate :=
  match s.mIndex.lookup hashKey with
  | none => (false, s)
  | some e =>
      (true, { s with
        mByFeeRate := s.mByFeeRate.erase e.feeKey
        mByTime := s.mByTime.erase e.timeKey
        mSpends := (outpoints e.tx).foldl (fun m o => m.erase o) s.mSpends
        mLeafSpends := e.leafKeys.foldl (fun m key => m.erase key) s.mLeafSpends
        mTotalBytes := s.mTotalBytes - e.size
        mIndex := s.mIndex.erase hashKey })

/-- The transactions of the pool that spend an output of one. -/
def childrenOf (s : Mempool Rate) (hashKey : Bytes32) : List Bytes32 :=
  match s.mIndex.lookup hashKey with
  | none => []
  | some e => (List.range e.tx.outputs.length).filterMap fun i =>
      s.mSpends.lookup ⟨e.tx.hash, UInt32.ofNat i⟩

/-- A transaction and what depends on it. Every node of the search but the
first spends something. -/
def collectDescendantsLocked (s : Mempool Rate) (hashKey : Bytes32) : List Bytes32 :=
  Search.search s.childrenOf (s.mSpends.keys.length + 1) [hashKey] [hashKey]

/-- The last found goes first. -/
def removeRecursiveLocked (hashKey : Bytes32) (s : Mempool Rate) : Mempool Rate :=
  (s.collectDescendantsLocked hashKey).reverse.foldl (fun s h => (removeLocked h s).2) s

/-- The transactions of the pool whose outputs one spends. -/
def parentsOf (s : Mempool Rate) (tx : Transaction) : List Bytes32 :=
  (tx.inputs.map (·.prevTxHash)).filter fun h => (s.mIndex.lookup h).isSome

/-- With the transaction itself. -/
def countAncestorsLocked (s : Mempool Rate) (tx : Transaction) : Nat :=
  let starts := Search.fresh [] (s.parentsOf tx)
  let up := fun h =>
    match s.mIndex.lookup h with
    | none => []
    | some e => s.parentsOf e.tx
  (Search.search up s.mIndex.keys.length starts starts).length + 1

def countDescendantsLocked (s : Mempool Rate) (hashKey : Bytes32) : Nat :=
  (s.collectDescendantsLocked hashKey).length

/-- The rolling rate goes above the rate of what is evicted. -/
def bumpRate (now evictedRate : Int) (s : Mempool Rate) : Mempool Rate :=
  let bumped := A.ofInt (evictedRate + incrementalFeePerK)
  if A.less s.mRollingMinFeeRate bumped then
    { s with
      mRollingMinFeeRate := bumped
      mLastRollingFeeUpdate := now
      mBlockSinceFeeBump := false }
  else s

/-- The loop of `TrimLocked`; every turn takes out an entry. -/
def trimFrom (now : Int) : Nat → Mempool Rate → Mempool Rate
  | 0, s => s
  | fuel + 1, s =>
      if s.mTotalBytes ≤ s.mMaxBytes then s
      else
        match s.mByFeeRate.first? with
        | none => s
        | some (key, hashKey) =>
            trimFrom now fuel (removeRecursiveLocked hashKey (bumpRate A now (ofLex key).1 s))

def trimLocked (now : Int) (s : Mempool Rate) : Mempool Rate :=
  trimFrom A now (s.mByFeeRate.keys.length + 1) s

/-- The loop of `ExpireLocked`; every turn takes out an entry. -/
def expireFrom (cutoff : Int) : Nat → Mempool Rate → Mempool Rate
  | 0, s => s
  | fuel + 1, s =>
      match s.mByTime.first? with
      | none => s
      | some (key, hashKey) =>
          if (ofLex key).1 < cutoff then expireFrom cutoff fuel (removeLocked hashKey s).2 else s

def expireLocked (now : Int) (s : Mempool Rate) : Mempool Rate :=
  expireFrom (now - expirySeconds) (s.mByTime.keys.length + 1) s

/-! ### Putting in -/

/-- Neither an outpoint nor a leaf of the transaction is taken. -/
def conflictFree (s : Mempool Rate) (tx : Transaction) : Bool :=
  (outpoints tx).all (fun o => (s.mSpends.lookup o).isNone) &&
    (extractLeafKeys tx.inputs).1.all (fun key => (s.mLeafSpends.lookup key).isNone) &&
    decide (extractLeafKeys tx.inputs).1.Nodup

/-- The fee for a thousand bytes. -/
def feePerK (fee : Int) (size : Nat) : Int :=
  if (2 ^ 63 - 1) / 1000 < fee then 2 ^ 63 - 1 else fee * 1000 / size

/-- Neither a chain above nor one below gets too long. -/
def withinLimits (s : Mempool Rate) (tx : Transaction) : Bool :=
  s.countAncestorsLocked tx ≤ maxAncestors &&
    (s.parentsOf tx).all fun parent => s.countDescendantsLocked parent + 1 ≤ maxDescendants

def insert (tx : Transaction) (fee now : Int) (s : Mempool Rate) : Mempool Rate :=
  let size := P.getSerializedSize tx
  let e : Entry := ⟨tx, fee, size, feePerK fee size, s.mSequenceCounter + 1, now,
    (extractLeafKeys tx.inputs).1⟩
  { s with
    mSequenceCounter := s.mSequenceCounter + 1
    mIndex := s.mIndex.insert tx.hash e
    mByFeeRate := s.mByFeeRate.insert e.feeKey tx.hash
    mByTime := s.mByTime.insert e.timeKey tx.hash
    mSpends := (outpoints tx).foldl (fun m o => m.insert o tx.hash) s.mSpends
    mLeafSpends := e.leafKeys.foldl (fun m key => m.insert key tx.hash) s.mLeafSpends
    mTotalBytes := s.mTotalBytes + size }

def addTransaction (tx : Transaction) (fee now : Int) (s : Mempool Rate) : Bool × Mempool Rate :=
  let s := s.expireLocked now
  if validateForPool A P tx fee s = false then (false, s)
  else if s.conflictFree tx = false then (false, s)
  else if P.getSerializedSize tx = 0 then (false, s)
  else
    match getMinFeeRateLocked A now s with
    | (minRate, s) =>
        if feePerK fee (P.getSerializedSize tx) < minRate then (false, s)
        else if s.withinLimits tx = false then (false, s)
        else
          let s := trimLocked A now (insert P tx fee now s)
          ((s.mIndex.lookup tx.hash).isSome, s)

def removeTransaction (txHash : Bytes32) (s : Mempool Rate) : Bool × Mempool Rate :=
  removeLocked txHash s

/-- The pool transaction that holds an outpoint or a leaf goes, with what depends on it. -/
def removeHolder (holder : Option Bytes32) (s : Mempool Rate) : Mempool Rate :=
  match holder with
  | none => s
  | some hashKey => removeRecursiveLocked hashKey s

/-- What one transaction of a connected block removes. -/
def removeForTransaction (tx : Transaction) (s : Mempool Rate) : Mempool Rate :=
  if tx.isCoinbase then s
  else
    let s := removeRecursiveLocked tx.hash s
    let s := (outpoints tx).foldl (fun s o => removeHolder (s.mSpends.lookup o) s) s
    match extractLeafKeys tx.inputs with
    | (_, false) => s
    | (keys, true) => keys.foldl (fun s key => removeHolder (s.mLeafSpends.lookup key) s) s

def removeForBlock (blockTxs : List Transaction) (s : Mempool Rate) : Mempool Rate :=
  { blockTxs.foldl (fun s tx => removeForTransaction tx s) s with mBlockSinceFeeBump := true }

def hasTransaction (s : Mempool Rate) (txHash : Bytes32) : Bool := (s.mIndex.lookup txHash).isSome

/-- The best paid first. -/
def getTransactions (maxCount : Nat) (s : Mempool Rate) : List Transaction :=
  ((s.mByFeeRate.entries.mergeSort fun a b => b.1 ≤ a.1).filterMap fun x =>
    (s.mIndex.lookup x.2).map (·.tx)).take maxCount

def clear (s : Mempool Rate) : Mempool Rate :=
  { s with
    mIndex := ∅
    mByFeeRate := ∅
    mByTime := ∅
    mSpends := ∅
    mLeafSpends := ∅
    mTotalBytes := 0 }

end

/-! ### Runs -/

inductive Op where
  | addTransaction (tx : Transaction) (fee now : Int64)
  | removeTransaction (txHash : Bytes32)
  | removeForBlock (blockTxs : List Transaction)
  | clear

variable {Rate : Type} (A : RateArith Rate) (P : Params)

def step (s : Mempool Rate) : Op → Mempool Rate
  | .addTransaction tx fee now => (addTransaction A P tx fee.toInt now.toInt s).2
  | .removeTransaction txHash => (removeTransaction txHash s).2
  | .removeForBlock blockTxs => removeForBlock blockTxs s
  | .clear => clear s

def run (s : Mempool Rate) (ops : List Op) : Mempool Rate := ops.foldl (step A P) s

end Mempool

end QmaskCore
