import QmaskCore.Net.ConnManager
import QmaskCore.Net.OrphanBlocks
import QmaskCore.Storage.ChainQueries

/-!
Two nodes on one connection, one of which may download blocks of the other.

`SyncNode` is a node with the tables of its `ConnManager` and what it knows of
its peer; `receive` is what it does with a message on blocks and what it sends
for it. `BlockSync` puts two of them at the ends of two queues. Messages are as
they are once parsed. The handshake is over, and the connection lasts.
-/

namespace QmaskCore

/-- The messages on blocks. An inventory lists blocks only. -/
inductive SyncMessage where
  | getBlocks (locator : List Bytes32)
  | inv (hashes : List Bytes32)
  | getData (hashes : List Bytes32)
  | block (block : Block)

/-- What a node reads while it handles one message: the clock at each item of an
inventory, and which of the blocks it relays find the queue of the peer full. -/
structure SyncWorld where
  now : Nat → Int
  saturated : Nat → Bool

namespace ChainState

def getBlock (P : Params) (s : ChainState) (blockHash : Bytes32) : Option Block :=
  match s.readBlockIndex blockHash with
  | none => none
  | some entry => s.mBlockData.readBlock P entry.blockPos

/-- The callback `getBlockHashesAfterLocator`. -/
def getBlockHashesAfterLocator (locator : List Bytes32) (max : Nat) (s : ChainState) :
    List Bytes32 :=
  match s.findForkPoint locator with
  | none => []
  | some forkHeight =>
      match s.getBlockHashByHeightLocked forkHeight with
      | none => []
      | some forkHash => s.getBlockHashesAfter forkHash max

end ChainState

/-! ### One node -/

structure SyncNode where
  intake : BlockIntake
  connManager : ConnManager
  peer : NodeId
  /-- The height the version message of the peer gave. -/
  bestHeight : Nat

namespace SyncNode

/-- The turns a locator may take. -/
def locatorTurns : Nat := 64

def requestBlocksFrom (k : SyncNode) : List SyncMessage :=
  match k.intake.chainState.getBlockLocator locatorTurns with
  | none => []
  | some locator => if locator.isEmpty then [] else [.getBlocks locator]

/-- `MaybeStartSync`, and what `SyncFromAllPeers` does for one peer. -/
def maybeStartSync (k : SyncNode) : List SyncMessage :=
  if k.bestHeight ≤ k.intake.chainState.mBestChain.height then [] else k.requestBlocksFrom

def addMisbehavior (score : Int) (k : SyncNode) : SyncNode :=
  { k with connManager := k.connManager.addMisbehavior k.peer score }

def handleGetBlocks (locator : List Bytes32) (k : SyncNode) : SyncNode × List SyncMessage :=
  if locator.length = 0 ∨ 64 < locator.length then (k.addMisbehavior 20, [])
  else
    let hashes := k.intake.chainState.getBlockHashesAfterLocator locator maxGetDataSize
    (k, if hashes.isEmpty then [] else [.inv hashes])

/-- The loop of `HandleInv` from the `i`-th item on: what it asks for. -/
def askFor (s : ChainState) (peer : NodeId) (now : Nat → Int) :
    Nat → List Bytes32 → ConnManager → List Bytes32 × ConnManager
  | _, [], m => ([], m)
  | i, hash :: hashes, m =>
      if s.mBlockData.hasBlock hash then askFor s peer now (i + 1) hashes m
      else
        match m.shouldRequestBlock hash peer (now i) with
        | (false, m) => askFor s peer now (i + 1) hashes m
        | (true, m) =>
            let (asked, m) := askFor s peer now (i + 1) hashes m
            (hash :: asked, m)

def handleInv (world : SyncWorld) (hashes : List Bytes32) (k : SyncNode) :
    SyncNode × List SyncMessage :=
  if maxInvSize < hashes.length then (k.addMisbehavior 20, [])
  else
    let (asked, connManager) := askFor k.intake.chainState k.peer world.now 0 hashes k.connManager
    ({ k with connManager }, if asked.isEmpty then [] else [.getData asked])

/-- `BroadcastBlock` of some blocks. They go to every peer, so also to the one they
came from. -/
def broadcastBlocks (world : SyncWorld) (blocks : List Block) : List SyncMessage :=
  (blocks.zipIdx.filter fun relay => !world.saturated relay.2).map fun relay => .block relay.1

section

variable (P : Params) (clock : Nat → UInt64)

/-- `HandleGetData` and `onGetData`. -/
def handleGetData (hashes : List Bytes32) (k : SyncNode) : SyncNode × List SyncMessage :=
  if maxGetDataSize < hashes.length then (k.addMisbehavior 20, [])
  else (k, (hashes.filterMap (k.intake.chainState.getBlock P)).map .block)

/-- `HandleBlock` with `onBlock`. -/
def handleBlock (world : SyncWorld) (block : Block) (k : SyncNode) :
    SyncNode × List SyncMessage :=
  let connManager := k.connManager.clearInFlight (block.getHash P.sha256)
  let (intake, asks) := k.intake.onBlock P clock block
  let relays := broadcastBlocks world (intake.relayed.drop k.intake.relayed.length)
  let k := { k with intake, connManager }
  (k, relays ++ if asks then k.requestBlocksFrom else [])

def receive (world : SyncWorld) (msg : SyncMessage) (k : SyncNode) : SyncNode × List SyncMessage :=
  match msg with
  | .getBlocks locator => k.handleGetBlocks locator
  | .inv hashes => k.handleInv world hashes
  | .getData hashes => k.handleGetData P hashes
  | .block block => k.handleBlock P clock world block

end

end SyncNode

/-! ### Two nodes -/

structure BlockSync where
  a : SyncNode
  b : SyncNode
  toA : List SyncMessage
  toB : List SyncMessage

/-- A node takes the oldest message that is on its way to it, or looks whether its
peer is ahead. -/
inductive SyncEvent where
  | atA (world : SyncWorld)
  | atB (world : SyncWorld)
  | lookA
  | lookB

namespace BlockSync

/-- Both nodes have just ended the handshake, in which each told its height. -/
def connected (a b : SyncNode) : BlockSync :=
  let a' := { a with bestHeight := b.intake.chainState.mBestChain.height }
  let b' := { b with bestHeight := a.intake.chainState.mBestChain.height }
  ⟨a', b', b'.maybeStartSync, a'.maybeStartSync⟩

section

variable (P : Params) (clock : Nat → UInt64)

def step : SyncEvent → BlockSync → BlockSync
  | .atA world, sys =>
      match sys.toA with
      | [] => sys
      | msg :: toA =>
          let (a, out) := sys.a.receive P clock world msg
          { sys with a, toA, toB := sys.toB ++ out }
  | .atB world, sys =>
      match sys.toB with
      | [] => sys
      | msg :: toB =>
          let (b, out) := sys.b.receive P clock world msg
          { sys with b, toB, toA := sys.toA ++ out }
  | .lookA, sys => { sys with toB := sys.toB ++ sys.a.maybeStartSync }
  | .lookB, sys => { sys with toA := sys.toA ++ sys.b.maybeStartSync }

def run (events : List SyncEvent) (sys : BlockSync) : BlockSync :=
  events.foldl (fun sys event => sys.step P clock event) sys

end

end BlockSync

end QmaskCore
