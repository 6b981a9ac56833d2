import QmaskCore.Net.AddrMan
import QmaskCore.Net.ConnManager
import Mathlib.Data.Finset.Card

/-!
`ConnManager` as far as addresses go: what it learns and what it sends to whom.

Addresses come from peers, from the operator, from the seeds and the file of
the last run, and from the interfaces of the machine. They go out in answer to
a handshake or a request, when one just learned is passed on, and when the node
announces itself. `pushed` records the addresses of every `ADDR` message.
-/

namespace QmaskCore

open LittleEndian Scan Inet

structure NetAddress where
  ip : List UInt8
  port : UInt16
  lastSeen : UInt64
  services : UInt32
deriving DecidableEq

/-- `ADDR_RELAY_PEERS`. -/
def addrRelayPeers : Nat := 2

/-- `MAX_ADDR_KNOWN_PER_PEER`. -/
def maxAddrKnownPerPeer : Nat := 5000

/-- `MAX_KNOWN_ADDRESSES`. -/
def maxKnownAddresses : Nat := 10000

/-- `ADDR_HORIZON_SECONDS`. -/
def addrHorizonSeconds : UInt64 := 30 * 24 * 60 * 60

/-! ### Payloads -/

/-- The addresses of a payload, as the loop of `HandleAddr` reads them; it stops
at the first that is cut off or too long, and skips those without a port. -/
def readAddrs : Nat → List UInt8 → List NetAddress
  | 0, _ => []
  | count + 1, rest =>
      if rest.length < 2 then []
      else
        let port := ofLE (rest.take 2)
        let rest := rest.drop 2
        if rest.length < 4 then []
        else
          let ipLen := (readLE32 rest).toNat
          let rest := rest.drop 4
          if ipLen = 0 ∨ 64 < ipLen then []
          else if rest.length < ipLen then []
          else
            let later := readAddrs count (rest.drop ipLen)
            if 0 < port ∧ port < 65535 then ⟨rest.take ipLen, UInt16.ofNat port, 0, 0⟩ :: later
            else later

/-- The addresses an `ADDR` message brings. -/
def announced (payload : List UInt8) : List NetAddress :=
  if payload.length < 4 then []
  else if maxAddrToSend < (readLE32 payload).toNat then []
  else readAddrs (readLE32 payload).toNat (payload.drop 4)

/-- What `SendAddr` writes for some addresses. -/
def addrPayload (addrs : List NetAddress) : List UInt8 :=
  writeLE32 (UInt32.ofNat addrs.length) ++ addrs.flatMap fun a =>
    leBytes 2 a.port.toNat ++ (writeLE32 (UInt32.ofNat a.ip.length) ++ a.ip)

/-! ### State -/

structure AddrPeer where
  addr : NetAddress
  inbound : Bool
  connected : Bool
  versionSent : Bool
  versionAcked : Bool
  addrKnown : Finset (List UInt8)

def AddrPeer.isFullyConnected (p : AddrPeer) : Bool := p.connected && p.versionSent && p.versionAcked

/-- An `ADDR` message, with the addresses its payload is written from. -/
structure AddrMessage where
  peer : NodeId
  addrs : List NetAddress

def AddrMessage.payload (msg : AddrMessage) : List UInt8 := addrPayload msg.addrs

structure AddrBook where
  mAddrMan : AddrMan
  mKnownAddresses : List NetAddress
  mExternalAddress : NetAddress
  mLocalAddresses : List NetAddress
  /-- The node objects. -/
  nodes : NodeId → AddrPeer
  mNodes : List NodeId
  mNextNodeId : NodeId
  pushed : List AddrMessage

namespace AddrBook

/-- An address that was not set. -/
def noAddress : NetAddress := ⟨[], 0, 0, 0⟩

def new (key : UInt64) : AddrBook :=
  ⟨.new key, [], noAddress, [], fun _ => ⟨noAddress, false, false, false, false, ∅⟩, [], 1, []⟩

def modify (id : NodeId) (f : AddrPeer → AddrPeer) (m : AddrBook) : AddrBook :=
  { m with nodes := Function.update m.nodes id (f (m.nodes id)) }

def sendAddr (id : NodeId) (addrs : List NetAddress) (m : AddrBook) : AddrBook :=
  if addrs = [] then m
  else { m with pushed := m.pushed ++ [⟨id, addrs.take maxAddrToSend⟩] }

/-! ### Learning -/

/-- The first of the addresses seen longest ago. -/
def oldest (known : List NetAddress) : Nat :=
  (known.zipIdx.foldl (fun (best : Nat × UInt64) e =>
    if e.1.lastSeen < best.2 then (e.2, e.1.lastSeen) else best)
    (0, (known.head?.map (·.lastSeen)).getD 0)).1

/-- An address is seen, or becomes known in place of the oldest. -/
def remember (addr : NetAddress) (now : Int) (known : List NetAddress) : List NetAddress :=
  match known.findIdx? fun a => a.ip = addr.ip ∧ a.port = addr.port with
  | some i => known.modify i fun a => { a with
      lastSeen := if a.lastSeen < UInt64.ofInt now then UInt64.ofInt now else a.lastSeen
      services := if addr.services ≠ 0 then addr.services else a.services }
  | none =>
      (if maxKnownAddresses ≤ known.length then known.eraseIdx (oldest known) else known) ++
        [{ addr with lastSeen := if addr.lastSeen = 0 then UInt64.ofInt now else addr.lastSeen }]

section

variable (sha256 : List UInt8 → List UInt8)

def addKnownAddressFrom (addr : NetAddress) (source : List UInt8) (now : Int) (m : AddrBook) :
    Bool × AddrBook :=
  if !isRelayableAddress addr.ip then (false, m)
  else
    let (isNew, man) := m.mAddrMan.add sha256 addr.ip addr.port addr.services source now
    (isNew, { m with
      mAddrMan := man
      mKnownAddresses := remember addr now m.mKnownAddresses })

def addOperatorAddress (addr : NetAddress) (now : Int) (m : AddrBook) : AddrBook :=
  if addr.ip = [] ∨ addr.port = 0 then m
  else if !isUsableAddress addr.ip then m
  else
    let m := { m with
      mAddrMan := (m.mAddrMan.add sha256 addr.ip addr.port addr.services addr.ip now).2 }
    if m.mKnownAddresses.any fun a => a.ip = addr.ip ∧ a.port = addr.port then m
    else { m with mKnownAddresses := m.mKnownAddresses ++
      [{ addr with lastSeen := if addr.lastSeen = 0 then UInt64.ofInt now else addr.lastSeen }] }

/-! ### Passing on -/

/-- The hash an address is spread by, before the id of the peer is mixed in. -/
def relaySeed (key : List UInt8) : UInt64 :=
  key.foldl (fun seed b => (seed ^^^ b.toUInt64) * 1099511628211) 1469598103934665603

def relayHash (key : List UInt8) (id : NodeId) : UInt64 :=
  (relaySeed key ^^^ UInt64.ofNat id) * 1099511628211

/-- The peers an address may be passed on to, by falling hash. -/
def candidates (addr : NetAddress) (originator : NodeId) (m : AddrBook) : List NodeId :=
  let key := AddrEntry.keyOf addr.ip addr.port
  let able := m.mNodes.filter fun id => (m.nodes id).isFullyConnected && id ≠ originator &&
    AddrEntry.keyOf (m.nodes id).addr.ip (m.nodes id).addr.port ≠ key
  able.mergeSort fun a b => decide (relayHash key b ≤ relayHash key a)

/-- The loop of `RelayAddress`, after some peers were sent the address. -/
def relayTo (addr : NetAddress) : Nat → List NodeId → AddrBook → AddrBook
  | _, [], m => m
  | sent, id :: ids, m =>
      if addrRelayPeers ≤ sent then m
      else
        let key := AddrEntry.keyOf addr.ip addr.port
        if key ∈ (m.nodes id).addrKnown then relayTo addr sent ids m
        else
          let m := m.modify id fun p =>
            let kept := if maxAddrKnownPerPeer ≤ p.addrKnown.card then ∅ else p.addrKnown
            { p with addrKnown := insert key kept }
          relayTo addr (sent + 1) ids (m.sendAddr id [addr])

def relayAddress (addr : NetAddress) (originator : NodeId) (m : AddrBook) : AddrBook :=
  if addr.ip = [] ∨ addr.port = 0 then m
  else if !isRelayableAddress addr.ip then m
  else relayTo addr 0 (m.candidates addr originator) m

/-- One address of an `ADDR` message, if the token bucket of the peer lets it through. -/
def learn (id : NodeId) (addr : NetAddress) (admitted : Bool) (now : Int) (m : AddrBook) :
    AddrBook :=
  if !admitted then m
  else
    let (isNew, m) := m.addKnownAddressFrom sha256 addr (m.nodes id).addr.ip now
    if isNew then m.relayAddress addr id else m

/-- `HandleAddr`, with what the token bucket and the clock say for each address. -/
def handleAddr (id : NodeId) (payload : List UInt8) (admits : Nat → Bool) (now : Nat → Int)
    (m : AddrBook) : AddrBook :=
  (announced payload).zipIdx.foldl (fun m e => m.learn sha256 id e.1 (admits e.2) (now e.2)) m

end

/-! ### Telling -/

def getKnownAddresses (now : Int) (m : AddrBook) : List NetAddress :=
  m.mKnownAddresses.filter fun a => isRelayableAddress a.ip &&
    (a.lastSeen = 0 || UInt64.ofInt now < a.lastSeen ||
      UInt64.ofInt now - a.lastSeen ≤ addrHorizonSeconds)

def reachabilityScore (own peer : List UInt8) : Nat :=
  if !isUsableAddress own then 0
  else if isPrivateAddress peer then if isPrivateAddress own then 4 else 1
  else if isPrivateAddress own then 0 else 4

/-- The first of the own addresses with the best score. -/
def selectLocalAddressFor (peer : NetAddress) (m : AddrBook) : Option NetAddress :=
  (m.mLocalAddresses.foldl (fun (best : Nat × Option NetAddress) a =>
    if best.1 < reachabilityScore a.ip peer.ip then (reachabilityScore a.ip peer.ip, some a)
    else best) (0, none)).2

def advertiseSelf (id : NodeId) (m : AddrBook) : AddrBook :=
  match m.selectLocalAddressFor (m.nodes id).addr with
  | none => m
  | some self => m.sendAddr id [self]

def handleVerack (sha256 : List UInt8 → List UInt8) (id : NodeId) (now : Int) (m : AddrBook) :
    AddrBook :=
  let m := m.modify id fun p => { p with versionAcked := true }
  let m := if (m.nodes id).inbound then m
    else { m with
      mAddrMan := m.mAddrMan.good sha256 (m.nodes id).addr.ip (m.nodes id).addr.port now }
  (m.sendAddr id (m.getKnownAddresses now)).advertiseSelf id

def handleGetAddr (id : NodeId) (now : Int) (m : AddrBook) : AddrBook :=
  m.sendAddr id (m.getKnownAddresses now)

def setExternalAddress (ip : List UInt8) (port : UInt16) (now : Int) (m : AddrBook) : AddrBook :=
  { m with mExternalAddress := ⟨ip, port, UInt64.ofInt now, 0⟩ }

/-- `DiscoverLocalAddresses`, given the numeric texts of the interfaces that are up. -/
def discoverLocalAddresses (interfaces : List (List UInt8)) (listenPort : UInt16) (now : Int)
    (m : AddrBook) : AddrBook :=
  let external := if m.mExternalAddress.ip = [] then [] else [m.mExternalAddress]
  { m with mLocalAddresses := interfaces.foldl (fun found ip =>
      if !isRelayableAddress ip then found
      else if found.any fun a => a.ip = ip then found
      else found ++ [⟨ip, listenPort, UInt64.ofInt now, 0⟩]) external }

end AddrBook

/-! ### Runs -/

inductive BookOp where
  | connect (addr : NetAddress) (inbound : Bool)
  | disconnect (id : NodeId)
  /-- The `VERSION` message of a peer is accepted. -/
  | handleVersion (id : NodeId)
  | handleVerack (id : NodeId) (now : Int)
  | handleGetAddr (id : NodeId) (now : Int)
  | handleAddr (id : NodeId) (payload : List UInt8) (admits : Nat → Bool) (now : Nat → Int)
  /-- A seed, or a line of the file of addresses. -/
  | addKnownAddress (addr : NetAddress) (now : Int)
  | addOperatorAddress (addr : NetAddress) (now : Int)
  | setExternalAddress (ip : List UInt8) (port : UInt16) (now : Int)
  | discoverLocalAddresses (interfaces : List (List UInt8)) (listenPort : UInt16) (now : Int)
  | advertiseSelf (id : NodeId)
  | attempt (addr : NetAddress) (now : Int)

namespace AddrBook

variable (sha256 : List UInt8 → List UInt8)

def step (m : AddrBook) : BookOp → AddrBook
  | .connect addr inbound => { m with
      nodes := Function.update m.nodes m.mNextNodeId ⟨addr, inbound, true, false, false, ∅⟩
      mNodes := m.mNodes ++ [m.mNextNodeId]
      mNextNodeId := m.mNextNodeId + 1 }
  | .disconnect id => { m.modify id fun p => { p with connected := false } with
      mNodes := m.mNodes.filter (· ≠ id) }
  | .handleVersion id => m.modify id fun p => { p with versionSent := true }
  | .handleVerack id now => m.handleVerack sha256 id now
  | .handleGetAddr id now => m.handleGetAddr id now
  | .handleAddr id payload admits now => m.handleAddr sha256 id payload admits now
  | .addKnownAddress addr now => (m.addKnownAddressFrom sha256 addr addr.ip now).2
  | .addOperatorAddress addr now => m.addOperatorAddress sha256 addr now
  | .setExternalAddress ip port now => m.setExternalAddress ip port now
  | .discoverLocalAddresses interfaces listenPort now =>
      m.discoverLocalAddresses interfaces listenPort now
  | .advertiseSelf id => m.advertiseSelf id
  | .attempt addr now => { m with mAddrMan := m.mAddrMan.attempt addr.ip addr.port now }

def run (key : UInt64) (ops : List BookOp) : AddrBook := ops.foldl (step sha256) (new key)

end AddrBook

end QmaskCore
