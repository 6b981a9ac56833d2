import QmaskCore.Lib.AssocList
import QmaskCore.Net.AddressFilter
import QmaskCore.Primitives.Bytes

/-!
`AddrMan`, the addresses a node knows and its own experience with them.

An entry sits in a slot of `mNew` until a connection to it succeeded, and in a
slot of `mTried` from then on. The table is saved as one line of words for each
entry and loaded into a fresh table, under a new key for the slots. `AddrOp`
lists what happens to a table.
-/

namespace QmaskCore

open Scan Inet

structure AddrEntry where
  ip : List UInt8
  port : UInt16
  services : UInt32
  lastSeen : Int
  lastTry : Int
  lastSuccess : Int
  attempts : Int
  source : List UInt8
deriving DecidableEq

namespace AddrEntry

def keyOf (ip : List UInt8) (port : UInt16) : List UInt8 := ip ++ 58 :: decimal port.toNat

def key (e : AddrEntry) : List UInt8 := keyOf e.ip e.port

/-- `HORIZON_DAYS`, in seconds. -/
def horizon : Int := 30 * 24 * 60 * 60

/-- `RETRIES`. -/
def retries : Int := 3

/-- `MAX_FAILURES`. -/
def maxFailures : Int := 10

/-- `MIN_FAIL_DAYS`, in seconds. -/
def minFail : Int := 7 * 24 * 60 * 60

def isTerrible (now : Int) (e : AddrEntry) : Bool :=
  if e.lastTry ≠ 0 ∧ now - 60 ≤ e.lastTry then false
  else if now + 10 * 60 < e.lastSeen then true
  else if e.lastSeen = 0 ∨ horizon < now - e.lastSeen then true
  else if e.lastSuccess = 0 ∧ retries ≤ e.attempts then true
  else decide (minFail < now - e.lastSuccess ∧ maxFailures ≤ e.attempts)

end AddrEntry

/-- Keys by bucket and position; an empty slot is left out. -/
abbrev Slots := AList fun _ : Nat × Nat => List UInt8

structure AddrMan where
  mKey : UInt64
  mEntries : AList fun _ : List UInt8 => AddrEntry
  mNew : Slots
  mTried : Slots

namespace AddrMan

/-! ### Slots -/

def groupOf (ip : List UInt8) : List UInt8 :=
  match pton4 ip with
  | some v4 => text "4:" ++ decimal (v4.getD 0 0) ++ 46 :: decimal (v4.getD 1 0)
  | none =>
      match pton6 ip with
      | some v6 => text "6:" ++
          (v6.take 8).flatMap fun b => [ascii (b / 16).digitChar, ascii (b % 16).digitChar]
      | none => text "?:" ++ ip

section

variable (sha256 : List UInt8 → List UInt8)

/-- `Mix`: the first eight bytes of a digest. -/
def mix (seed : UInt64) (s : List UInt8) : UInt64 := readLE64 (sha256 (writeLE64 seed ++ s))

def mixValue (seed v : UInt64) : UInt64 := mix sha256 seed (writeLE64 v)

def newBucketFor (m : AddrMan) (e : AddrEntry) : Nat :=
  let addrGroup := groupOf e.ip
  let sourceGroup := groupOf e.source
  let h1 := mix sha256 (mix sha256 m.mKey addrGroup) sourceGroup
  let h2 := mixValue sha256 (mix sha256 m.mKey sourceGroup) (h1 % 64)
  (h2 % 1024).toNat

def triedBucketFor (m : AddrMan) (e : AddrEntry) : Nat :=
  let h1 := mix sha256 m.mKey e.key
  let h2 := mixValue sha256 (mix sha256 m.mKey (groupOf e.ip)) (h1 % 8)
  (h2 % 256).toNat

def positionIn (m : AddrMan) (bucket : Nat) (key : List UInt8) : Nat :=
  (mixValue sha256 (mix sha256 m.mKey key) (UInt64.ofNat bucket) % 64).toNat

def newSlot (m : AddrMan) (e : AddrEntry) (key : List UInt8) : Nat × Nat :=
  (m.newBucketFor sha256 e, m.positionIn sha256 (m.newBucketFor sha256 e) key)

def triedSlot (m : AddrMan) (e : AddrEntry) (key : List UInt8) : Nat × Nat :=
  (m.triedBucketFor sha256 e, m.positionIn sha256 (m.triedBucketFor sha256 e) key)

/-! ### Operations -/

def isInTried (m : AddrMan) (key : List UInt8) : Bool :=
  m.mTried.entries.any fun slot => slot.2 = key

def addLocked (e : AddrEntry) (now : Int) (m : AddrMan) : Bool × AddrMan :=
  let key := e.key
  match m.mEntries.lookup key with
  | some existing =>
      let existing := { existing with
        lastSeen := if existing.lastSeen < e.lastSeen then e.lastSeen else existing.lastSeen
        services := if e.services ≠ 0 then e.services else existing.services }
      (false, { m with mEntries := m.mEntries.insert key existing })
  | none =>
      let m := { m with mEntries := m.mEntries.insert key e }
      let slot := m.newSlot sha256 e key
      let place (m : AddrMan) : Bool × AddrMan := (true, { m with mNew := m.mNew.insert slot key })
      match m.mNew.lookup slot with
      | none => place m
      | some displaced =>
          if displaced = key then place m
          else
            match m.mEntries.lookup displaced with
            | none => place m
            | some d =>
                if !d.isTerrible now then (false, { m with mEntries := m.mEntries.erase key })
                else if m.isInTried displaced then place m
                else place { m with mEntries := m.mEntries.erase displaced }

def add (ip : List UInt8) (port : UInt16) (services : UInt32) (source : List UInt8) (now : Int)
    (m : AddrMan) : Bool × AddrMan :=
  if ip = [] ∨ port = 0 then (false, m)
  else m.addLocked sha256 ⟨ip, port, services, now, 0, 0, 0, if source = [] then ip else source⟩ now

def attempt (ip : List UInt8) (port : UInt16) (now : Int) (m : AddrMan) : AddrMan :=
  let key := AddrEntry.keyOf ip port
  match m.mEntries.lookup key with
  | none => m
  | some e =>
      let e := { e with lastTry := now, attempts := e.attempts + 1 }
      { m with mEntries := m.mEntries.insert key e }

def good (ip : List UInt8) (port : UInt16) (now : Int) (m : AddrMan) : AddrMan :=
  let key := AddrEntry.keyOf ip port
  match m.mEntries.lookup key with
  | none => m
  | some e =>
      let e := { e with lastSuccess := now, lastSeen := now, attempts := 0 }
      let m := { m with mEntries := m.mEntries.insert key e }
      if m.isInTried key then m
      else
        let slot := m.triedSlot sha256 e key
        let displaced := m.mTried.lookup slot
        let m := { m with
          mTried := m.mTried.insert slot key
          mNew := m.mNew.filter fun _ k => k ≠ key }
        match displaced with
        | none => m
        | some displaced =>
            if displaced = key then m
            else
              match m.mEntries.lookup displaced with
              | none => m
              | some d =>
                  let slot := m.newSlot sha256 d displaced
                  if slot ∈ m.mNew then { m with mEntries := m.mEntries.erase displaced }
                  else { m with mNew := m.mNew.insert slot displaced }

/-- `Sweep` only counts. -/
def sweep (now : Int) (m : AddrMan) : Nat := m.mEntries.entries.countP fun e => e.2.isTerrible now

/-! ### The file -/

/-- One line of the file, up to its end. -/
def saveLine (e : AddrEntry) : List UInt8 :=
  e.ip ++ 32 :: (decimal e.port.toNat ++ 32 :: (decimal e.services.toNat ++
    32 :: (decimalInt e.lastSeen ++ 32 :: (decimalInt e.lastTry ++
    32 :: (decimalInt e.lastSuccess ++ 32 :: (decimalInt e.attempts ++
    32 :: (if e.source = [] then e.ip else e.source)))))))

/-- The entries, in the order of their keys. -/
def inKeyOrder (m : AddrMan) : List AddrEntry :=
  (m.mEntries.entries.mergeSort fun a b => decide (a.1 ≤ b.1)).map (·.2)

def save (m : AddrMan) : List UInt8 := m.inKeyOrder.flatMap fun e => saveLine e ++ [10]

/-- What `std::getline` yields one after the other; the last line need not end. -/
def getlines : List UInt8 → List UInt8 → List (List UInt8)
  | [], line => if line = [] then [] else [line]
  | b :: s, line => if b = 10 then line :: getlines s [] else getlines s (line ++ [b])

def readEntry (line : List UInt8) : Option AddrEntry := do
  let (ip, s) ← word line
  let (port, s) ← unsigned 32 s
  let (services, s) ← unsigned 32 s
  let (lastSeen, s) ← signed 64 s
  let (lastTry, s) ← signed 64 s
  let (lastSuccess, s) ← signed 64 s
  let (attempts, s) ← signed 32 s
  let (source, _) ← word s
  if port = 0 ∨ 65535 < port then none
  else some ⟨ip, UInt16.ofNat port, UInt32.ofNat services, lastSeen, lastTry, lastSuccess, attempts,
    source⟩

def loadEntry (now : Int) (m : AddrMan) (e : AddrEntry) : AddrMan :=
  if e.isTerrible now then m
  else
    let m := (m.addLocked sha256 e now).2
    if e.lastSuccess = 0 then m
    else
      match m.mEntries.lookup e.key with
      | none => m
      | some e' =>
          let slot := m.triedSlot sha256 e' e.key
          if slot ∈ m.mTried then m else { m with mTried := m.mTried.insert slot e.key }

def load (file : List UInt8) (now : Int) (m : AddrMan) : AddrMan :=
  ((getlines file []).filterMap readEntry).foldl (loadEntry sha256 now) m

def new (key : UInt64) : AddrMan := ⟨key, ∅, ∅, ∅⟩

end

end AddrMan

/-! ### Runs -/

inductive AddrOp where
  /-- An address someone vouched for; the ones that are not relayable are dropped. -/
  | add (ip : List UInt8) (port : UInt16) (services : UInt32) (source : List UInt8) (now : Int)
  | attempt (ip : List UInt8) (port : UInt16) (now : Int)
  | good (ip : List UInt8) (port : UInt16) (now : Int)
  | sweep (now : Int)
  /-- The table is saved and loaded into a fresh one. -/
  | restart (key : UInt64) (now : Int)

namespace AddrMan

variable (sha256 : List UInt8 → List UInt8)

def step (m : AddrMan) : AddrOp → AddrMan
  | .add ip port services source now =>
      if isRelayableAddress ip then (m.add sha256 ip port services source now).2 else m
  | .attempt ip port now => m.attempt ip port now
  | .good ip port now => m.good sha256 ip port now
  | .sweep _ => m
  | .restart key now => (new key).load sha256 m.save now

def run (key : UInt64) (ops : List AddrOp) : AddrMan := ops.foldl (step sha256) (new key)

end AddrMan

end QmaskCore
