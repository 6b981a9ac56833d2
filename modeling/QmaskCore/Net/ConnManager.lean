import QmaskCore.Net.Framing
import QmaskCore.Net.InFlight
import Mathlib.Data.Finset.Basic
import Mathlib.Logic.Function.Basic

/-!
`ConnManager` as far as downloads go: the node objects, which of them are in
`mNodes`, and what was asked of whom.

`NetOp` lists what the threads of the manager do. A read, a disconnection and
a look at the progress of the downloads each run to their end before the next
begins; a read may be of a peer that was disconnected after its completion was
queued, for the handler keeps the node object.
-/

namespace QmaskCore

/-! ### Constants -/

/-- `MAX_INV_SIZE`. -/
def maxInvSize : Nat := 50000

/-- `MAX_GETDATA_SIZE`. -/
def maxGetDataSize : Nat := 1000

/-- `MAX_ADDR_TO_SEND`. -/
def maxAddrToSend : Nat := 1000

/-- `MAX_BLOCKS_IN_FLIGHT_PER_PEER`. -/
def maxBlocksInFlightPerPeer : Nat := 16

/-- `MAX_TX_IN_FLIGHT_PER_PEER`. -/
def maxTxInFlightPerPeer : Nat := 100

/-- `BLOCK_DOWNLOAD_WINDOW`. -/
def blockDownloadWindow : Nat := 1024

/-- `BLOCK_IN_FLIGHT_TIMEOUT_SEC`. -/
def blockInFlightTimeoutSec : Int := 1800

/-- `TX_REQUEST_TIMEOUT_SEC`. -/
def txRequestTimeoutSec : Int := 60

/-- `BLOCK_STALL_TIMEOUT_SEC`. -/
def blockStallTimeoutSec : Int := 60

/-- `MIN_PROTOCOL_VERSION`. -/
def minProtocolVersion : UInt32 := 1

/-- `MIN_TX_PAYLOAD`. -/
def minTxPayload : Nat := 10

/-- `MIN_BLOCK_PAYLOAD`. -/
def minBlockPayload : Nat := 80

/-! ### Payloads -/

/-- What reading a payload depends on. The two decoders give the id of what
they read, and nothing where they throw. -/
structure Wire where
  networkMagic : UInt32
  /-- `mLocalNonce`. -/
  localNonce : UInt64
  /-- `NetParams::BLOCK_TIME_TARGET`. -/
  blockTimeTarget : Int
  txHash : List UInt8 → Option Bytes32
  blockHash : List UInt8 → Option Bytes32

structure VersionMessage where
  version : UInt32
  nonce : UInt64

def VersionMessage.deserialize (data : List UInt8) : Option VersionMessage :=
  if data.length < 4 + 8 + 4 + 8 + 8 + 32 + 4 then none
  else
    let agentLen := readLE32 (data.drop 64)
    if 256 < agentLen then none
    else if data.length < 68 + agentLen.toNat then none
    else some ⟨readLE32 data, readLE64 (data.drop 24)⟩

structure InvItem where
  /-- `InvType`, cast from any byte. -/
  type : UInt8
  hash : Bytes32
deriving DecidableEq

/-- The items of an inventory, as the loop reads them: 33 bytes each, as long as
they last. -/
def readItems : Nat → List UInt8 → List InvItem
  | 0, _ => []
  | count + 1, rest =>
      if rest.length < 33 then []
      else ⟨rest.getD 0 0, Bytes32.ofBytes ((rest.drop 1).take 32)⟩ :: readItems count (rest.drop 33)

/-! ### State -/

structure Peer where
  node : Node
  versionSent : Bool
  versionAcked : Bool

/-- An object no connection was made on. -/
def Peer.unused : Peer := ⟨⟨[], 0, 0, false⟩, false, false⟩

structure ConnManager where
  /-- The node objects. One that was removed lives on while a read of it is queued. -/
  nodes : NodeId → Peer
  mNodes : Finset NodeId
  mNextNodeId : NodeId
  mBlocksInFlight : InFlight
  mTxInFlight : InFlight
  mStallingSince : AList fun _ : NodeId => Int

/-- What the world answers while one message is handled. -/
structure Surroundings where
  /-- The clock, read once for every item of an inventory. -/
  now : Nat → Int
  /-- An unset callback answers no. -/
  haveTx : Nat → Bytes32 → Bool
  haveBlock : Nat → Bytes32 → Bool
  /-- Whether `getBlockHashesAfterLocator` is set. -/
  serves : Bool
  /-- The peers `onTransaction` or `onBlock` disconnects. -/
  drops : List NodeId
  /-- Whether that callback throws. -/
  throws : Bool

namespace ConnManager

def new : ConnManager := ⟨fun _ => .unused, ∅, 1, ∅, ∅, ∅⟩

def modify (id : NodeId) (f : Peer → Peer) (m : ConnManager) : ConnManager :=
  { m with nodes := Function.update m.nodes id (f (m.nodes id)) }

theorem nodes_modify_self (id : NodeId) (f : Peer → Peer) (m : ConnManager) :
    (m.modify id f).nodes id = f (m.nodes id) := Function.update_self ..

theorem nodes_modify_of_ne {id other : NodeId} (f : Peer → Peer) (m : ConnManager)
    (ne : other ≠ id) : (m.modify id f).nodes other = m.nodes other := Function.update_of_ne ne ..

def addMisbehavior (id : NodeId) (score : Int) : ConnManager → ConnManager :=
  modify id fun p => { p with node := p.node.addMisbehavior score }

/-- `AcceptLoop` and `ConnectToAddress`, once the connection stands. -/
def connect (m : ConnManager) : ConnManager :=
  { m with
    nodes := Function.update m.nodes m.mNextNodeId ⟨⟨[], 0, 0, true⟩, false, false⟩
    mNodes := insert m.mNextNodeId m.mNodes
    mNextNodeId := m.mNextNodeId + 1 }

def disconnectNode (id : NodeId) (m : ConnManager) : ConnManager :=
  if (m.nodes id).node.connected = false then m
  else
    let m := { m with
      mBlocksInFlight := m.mBlocksInFlight.clearForPeer id
      mTxInFlight := m.mTxInFlight.clearForPeer id }
    let m := m.modify id fun p => { p with node := p.node.disconnect }
    { m with mNodes := m.mNodes.erase id }

theorem nodes_disconnectNode (m : ConnManager) (id peer : NodeId) :
    (m.disconnectNode id).nodes peer =
      if peer = id then { m.nodes id with node := (m.nodes id).node.disconnect }
      else m.nodes peer := by
  unfold disconnectNode
  split
  · rename_i gone
    split
    · rename_i here
      rw [here, Node.disconnect, ← gone]
    · rfl
  · split
    · rename_i here
      simp [modify, here]
    · rename_i ne
      simp [modify, ne]

/-- A disconnection is of one peer. -/
theorem connected_disconnectNode {m : ConnManager} {id peer : NodeId} :
    ((m.disconnectNode id).nodes peer).node.connected = true ↔
      peer ≠ id ∧ (m.nodes peer).node.connected = true := by
  rw [nodes_disconnectNode]
  by_cases here : peer = id <;> simp [here, Node.disconnect]

@[simp] theorem misbehavior_disconnectNode (m : ConnManager) (id peer : NodeId) :
    ((m.disconnectNode id).nodes peer).node.misbehavior = (m.nodes peer).node.misbehavior := by
  rw [nodes_disconnectNode]
  by_cases here : peer = id <;> simp [here, Node.disconnect]

theorem mem_mNodes_disconnectNode {m : ConnManager} {id peer : NodeId} (listed : peer ∈ m.mNodes)
    (ne : peer ≠ id) : peer ∈ (m.disconnectNode id).mNodes := by
  unfold disconnectNode
  split
  · exact listed
  · exact Finset.mem_erase.mpr ⟨ne, listed⟩

/-- `DisconnectNode(NodeId)`: only a peer that is listed is found. -/
def disconnectById (id : NodeId) (m : ConnManager) : ConnManager :=
  if id ∈ m.mNodes then m.disconnectNode id else m

/-! ### Requests -/

def shouldRequestBlock (hash : Bytes32) (peer : NodeId) (now : Int) (m : ConnManager) :
    Bool × ConnManager :=
  let (asked, t) := InFlight.request blockInFlightTimeoutSec (some blockDownloadWindow)
    maxBlocksInFlightPerPeer hash peer now m.mBlocksInFlight
  (asked, { m with mBlocksInFlight := t })

def shouldRequestTx (hash : Bytes32) (peer : NodeId) (now : Int) (m : ConnManager) :
    Bool × ConnManager :=
  let (asked, t) := InFlight.request txRequestTimeoutSec none maxTxInFlightPerPeer hash peer now
    m.mTxInFlight
  (asked, { m with mTxInFlight := t })

def clearInFlight (hash : Bytes32) (m : ConnManager) : ConnManager :=
  { m with mBlocksInFlight := m.mBlocksInFlight.erase hash }

def clearTxInFlight (hash : Bytes32) (m : ConnManager) : ConnManager :=
  { m with mTxInFlight := m.mTxInFlight.erase hash }

/-! ### Messages -/

section

variable (W : Wire) (world : Surroundings) (id : NodeId) (msg : NetMessage)

def handleVersion (m : ConnManager) : ConnManager :=
  if (m.nodes id).versionSent && (m.nodes id).versionAcked then m.addMisbehavior id 10
  else if msg.payload.length < 4 + 8 + 4 + 8 + 8 + 32 + 4 then m.disconnectNode id
  else
    match VersionMessage.deserialize msg.payload with
    | none => m.disconnectNode id
    | some verMsg =>
        if verMsg.nonce ≠ 0 ∧ verMsg.nonce = W.localNonce then m.disconnectNode id
        else if verMsg.version < minProtocolVersion then m.disconnectNode id
        else m.modify id fun p => { p with versionSent := true }

def handleVerack (m : ConnManager) : ConnManager :=
  m.modify id fun p => { p with versionAcked := true }

/-- `HandlePing` and `HandlePong`. -/
def handlePing (m : ConnManager) : ConnManager :=
  if msg.payload.length < 8 then m.addMisbehavior id 5 else m

/-- `HandleAddr`, up to the addresses. -/
def handleAddr (m : ConnManager) : ConnManager :=
  if msg.payload.length < 4 then m.addMisbehavior id 5
  else if maxAddrToSend < (readLE32 msg.payload).toNat then m.addMisbehavior id 20
  else m

/-- One item of an inventory: whether it is asked for, and the state after. -/
def handleItem (i : Nat) (item : InvItem) (m : ConnManager) : Bool × ConnManager :=
  if item.type = 1 then
    if world.haveTx i item.hash then (false, m) else m.shouldRequestTx item.hash id (world.now i)
  else if item.type = 2 then
    if world.haveBlock i item.hash then (false, m)
    else m.shouldRequestBlock item.hash id (world.now i)
  else (false, m)

/-- The items from the `i`-th on. -/
def handleItems : Nat → List InvItem → ConnManager → ConnManager
  | _, [], m => m
  | i, item :: items, m => handleItems (i + 1) items (handleItem world id i item m).2

/-- The items `HandleInv` gets to see. -/
def invItems : List InvItem :=
  if msg.payload.length < 4 then []
  else
    let count := (readLE32 msg.payload).toNat
    if maxInvSize < count then []
    else if msg.payload.length < 4 + count * 33 then []
    else readItems count (msg.payload.drop 4)

def handleInv (m : ConnManager) : ConnManager :=
  if msg.payload.length < 4 then m.addMisbehavior id 5
  else
    let count := (readLE32 msg.payload).toNat
    if maxInvSize < count then m.addMisbehavior id 20
    else if msg.payload.length < 4 + count * 33 then m.addMisbehavior id 10
    else handleItems world id 0 (readItems count (msg.payload.drop 4)) m

/-- The callback that is handed what was read. -/
def callback (score : Int) (m : ConnManager) : ConnManager :=
  let m := world.drops.foldl (fun m dropped => m.disconnectById dropped) m
  if world.throws then m.addMisbehavior id score else m

def handleTx (m : ConnManager) : ConnManager :=
  if msg.payload.length < minTxPayload then m.addMisbehavior id 10
  else if maxProtocolMsgSize.toNat < msg.payload.length then
    (m.addMisbehavior id 20).disconnectNode id
  else
    match W.txHash msg.payload with
    | none => m.addMisbehavior id 10
    | some hash => (m.clearTxInFlight hash).callback world id 10

def handleBlock (m : ConnManager) : ConnManager :=
  if msg.payload.length < minBlockPayload then m.addMisbehavior id 20
  else if maxProtocolMsgSize.toNat < msg.payload.length then
    (m.addMisbehavior id 20).disconnectNode id
  else
    match W.blockHash msg.payload with
    | none => m.addMisbehavior id 20
    | some hash => (m.clearInFlight hash).callback world id 20

/-- `HandleGetData`, up to what it serves. -/
def handleGetData (m : ConnManager) : ConnManager :=
  if msg.payload.length < 4 then m.addMisbehavior id 5
  else if maxGetDataSize < (readLE32 msg.payload).toNat then m.addMisbehavior id 20
  else m

/-- `HandleGetBlocks`, up to what it serves. -/
def handleGetBlocks (m : ConnManager) : ConnManager :=
  if msg.payload.length < 4 then m.addMisbehavior id 5
  else if !world.serves then m
  else
    let count := (readLE32 msg.payload).toNat
    if count = 0 ∨ 64 < count then m.addMisbehavior id 20
    else if msg.payload.length < 4 + count * 32 then m.addMisbehavior id 10
    else m

def handleMessage (m : ConnManager) : ConnManager :=
  match msg.type with
  | 1 => m.handleVersion W id msg
  | 2 => m.handleVerack id
  | 3 | 4 => m.handlePing id msg
  | 5 => m.handleAddr id msg
  | 6 => m
  | 7 => m.handleInv world id msg
  | 8 => m.handleGetData id msg
  | 11 => m.handleGetBlocks world id msg
  | 12 => m
  | 9 => m.handleTx W world id msg
  | 15 | 10 => m.handleBlock W world id msg
  | 14 => m
  | _ => m.addMisbehavior id 5

end

/-! ### Reading -/

section

variable (W : Wire)

/-- The loop of `HandleRead`, with what the world answers for each message to come. -/
def processFrom (id : NodeId) : Nat → (Nat → Surroundings) → ConnManager → ConnManager
  | 0, _, m => m
  | fuel + 1, world, m =>
      let recvBuffer := (m.nodes id).node.recvBuffer
      if recvBuffer.length < kHeader then m
      else
        let payloadSize := NetMessage.payloadSize recvBuffer
        if maxProtocolMsgSize < payloadSize then (m.addMisbehavior id 20).disconnectNode id
        else
          let total := kHeader + payloadSize.toNat
          if recvBuffer.length < total then m
          else
            match NetMessage.deserialize W.networkMagic (recvBuffer.take total) with
            | none =>
                let m := m.addMisbehavior id 10
                if (m.nodes id).node.isBanned then m.disconnectNode id else m
            | some msg =>
                let rest := recvBuffer.drop total
                let m := m.modify id fun p => { p with node := { p.node with recvBuffer := rest } }
                let m := m.handleMessage W (world 0) id msg
                if (m.nodes id).node.connected then processFrom id fuel (fun n => world (n + 1)) m
                else m

def handleRead (id : NodeId) (bytes : List UInt8) (world : Nat → Surroundings) (m : ConnManager) :
    ConnManager :=
  if bytes = [] then m
  else
    let recvBuffer := (m.nodes id).node.recvBuffer ++ bytes
    let m := m.modify id fun p => { p with node := { p.node with
      recvBuffer := recvBuffer
      bytesRecv := p.node.bytesRecv + bytes.length } }
    if maxProtocolMsgSize.toNat + kHeader < recvBuffer.length then
      (m.addMisbehavior id 20).disconnectNode id
    else m.processFrom W id (recvBuffer.length + 1) world

/-! ### Progress -/

/-- `oldestPerPeer`. -/
def oldestPerPeer (t : InFlight) : AList fun _ : NodeId => Int :=
  t.entries.foldl (fun oldest e =>
    match oldest.lookup e.2.peer with
    | none => oldest.insert e.2.peer e.2.requestedAt
    | some at' => if e.2.requestedAt < at' then oldest.insert e.2.peer e.2.requestedAt else oldest) ∅

/-- The entries of a map, by rising key. -/
def inOrder (s : AList fun _ : NodeId => Int) : List (NodeId × Int) :=
  (s.entries.map fun e => (e.1, e.2)).mergeSort fun a b => a.1 ≤ b.1

/-- The peer that holds the oldest request, the first of them. -/
def blocker (now : Int) (oldest : List (NodeId × Int)) : Option NodeId :=
  (oldest.foldl (fun (best : Int × Option NodeId) e =>
    if e.2 < best.1 then (e.2, some e.1) else best) (now + 1, none)).2

/-- The peers that hold up the download, and since when the next stalls. -/
def toDrop (now : Int) (m : ConnManager) : List NodeId × AList fun _ : NodeId => Int :=
  let perPeer := oldestPerPeer m.mBlocksInFlight
  let oldest := inOrder perPeer
  let stalling := m.mStallingSince.filter fun peer _ => decide (peer ∈ perPeer)
  let (drop, stalling) : List NodeId × AList fun _ : NodeId => Int :=
    match blocker now oldest with
    | none => ([], stalling)
    | some blocker =>
        let stalling := if blocker ∈ stalling then stalling else stalling.insert blocker now
        let stalling := stalling.filter fun peer _ => decide (peer = blocker)
        (if blockStallTimeoutSec < now - (stalling.lookup blocker).getD 0 then [blocker] else [],
          stalling)
  let others := perPeer.entries.length - 1
  -- the limit is the time target and a half of it for every other peer
  let late := oldest.filter fun e =>
    decide (W.blockTimeTarget * (2 + others) < 2 * (now - e.2)) && !drop.contains e.1
  (drop ++ late.map (·.1), stalling)

def checkDownloadProgress (now : Int) (m : ConnManager) : ConnManager :=
  if m.mBlocksInFlight.entries = [] then { m with mStallingSince := ∅ }
  else
    let (drop, stalling) := m.toDrop W now
    drop.foldl (fun m peer =>
      if peer ∈ m.mNodes then
        let m := m.disconnectNode peer
        { m with mStallingSince := m.mStallingSince.erase peer }
      else m) { m with mStallingSince := stalling }

end

end ConnManager

/-! ### Runs -/

inductive NetOp where
  | connect
  | handleRead (id : NodeId) (bytes : List UInt8) (world : Nat → Surroundings)
  | disconnectNode (id : NodeId)
  | checkDownloadProgress (now : Int)

namespace ConnManager

variable (W : Wire)

/-- Only an object that was made has reads queued. -/
def step (m : ConnManager) : NetOp → ConnManager
  | .connect => m.connect
  | .handleRead id bytes world =>
      if 0 < id ∧ id < m.mNextNodeId then m.handleRead W id bytes world else m
  | .disconnectNode id => m.disconnectNode id
  | .checkDownloadProgress now => m.checkDownloadProgress W now

def run (ops : List NetOp) : ConnManager := ops.foldl (step W) new

end ConnManager

end QmaskCore
