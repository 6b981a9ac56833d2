import Mathlib.Data.Finset.Sort
import Mathlib.Data.List.Sort
import Mathlib.Data.Multiset.MapFold
import QmaskCore.Lib.Runs
import QmaskCore.Lib.Tally
import QmaskCore.Net.AddrMan
import QmaskCore.Net.Announcements

/-!
The connections `ConnManager` holds, and how it counts them.

`mConnectionsPerIP` is raised before a node stands in `mNodes` and lowered on
each way out, so between two steps it is the tally of the addresses of the nodes
(`Accounted`, which every step keeps). `slots_exact_iff` says so and finds where
the number of nodes passes `maxConnections`: only `AcceptLoop` asks for it.

An iteration of `AcceptLoop`, a call of `ConnectToAddress` and a disconnection
are one step each. The orders the library leaves open are those of an
`Arrangement`.
-/

namespace QmaskCore

/-- `MAX_CONNECTIONS_PER_IP`. -/
def maxConnectionsPerIP : Int := 3

/-! ### State -/

/-- A node object, as far as its slot goes. -/
structure SlotNode where
  addr : NetAddress
  inbound : Bool
  connected : Bool
  versionSent : Bool
  versionAcked : Bool
  connTime : Int
  lastPingSent : Int
  lastPingRecv : Int
  lastNovelBlock : Int
  lastNovelTx : Int

namespace SlotNode

/-- The constructor. -/
def new (inbound : Bool) : SlotNode := ⟨⟨[], 0, 0, 0⟩, inbound, false, false, false, 0, 0, 0, 0, 0⟩

def disconnect (n : SlotNode) : SlotNode := { n with connected := false }

def isFullyConnected (n : SlotNode) : Bool := n.connected && n.versionSent && n.versionAcked

end SlotNode

structure ConnSlots where
  /-- The node objects, those that were removed among them. -/
  nodes : NodeId → SlotNode
  mNodes : Finset NodeId
  mNextNodeId : NodeId
  mConnectionsPerIP : AList fun _ : List UInt8 => Int
  mBannedIPs : List (List UInt8)

/-- A peer that could be evicted. -/
structure Candidate where
  id : NodeId
  group : List UInt8
  keyedGroup : UInt64
  connTime : Int
  minPing : Int
  lastBlock : Int
  lastTx : Int

/-- The order in which `mNodes` is walked, and what `std::sort` makes of candidates
that compare equal. -/
structure Arrangement where
  walk : Finset NodeId → List NodeId
  mem_walk : ∀ s id, id ∈ walk s ↔ id ∈ s
  sort : (Candidate → Candidate → Bool) → List Candidate → List Candidate
  sort_perm : ∀ better l, (sort better l).Perm l

/-- `mOptions` and what is chosen when the program starts. -/
structure SlotOptions where
  maxConnections : UInt32
  mLocalNonce : UInt64
  arrangement : Arrangement

namespace ConnSlots

def new : ConnSlots := ⟨fun _ => .new false, ∅, 1, ∅, []⟩

def modify (id : NodeId) (f : SlotNode → SlotNode) (m : ConnSlots) : ConnSlots :=
  { m with nodes := Function.update m.nodes id (f (m.nodes id)) }

theorem nodes_modify_self (id : NodeId) (f : SlotNode → SlotNode) (m : ConnSlots) :
    (m.modify id f).nodes id = f (m.nodes id) := Function.update_self ..

theorem nodes_modify_of_ne {id other : NodeId} (f : SlotNode → SlotNode) (m : ConnSlots)
    (ne : other ≠ id) : (m.modify id f).nodes other = m.nodes other := Function.update_of_ne ne ..

/-- `GetNextNodeId` and the constructor of the node. -/
def makeNode (inbound : Bool) (m : ConnSlots) : NodeId × ConnSlots :=
  (m.mNextNodeId, { m with
    nodes := Function.update m.nodes m.mNextNodeId (.new inbound)
    mNextNodeId := m.mNextNodeId + 1 })

theorem nodes_makeNode (inbound : Bool) (m : ConnSlots) (id : NodeId) :
    (m.makeNode inbound).2.nodes id = if id = m.mNextNodeId then .new inbound else m.nodes id :=
  Function.update_apply ..

def isIPBanned (ip : List UInt8) (m : ConnSlots) : Bool := m.mBannedIPs.any (· = ip)

/-! ### Counting -/

def checkConnectionLimitForIP (ip : List UInt8) (m : ConnSlots) : Bool × ConnSlots :=
  match m.mConnectionsPerIP.lookup ip with
  | some n =>
      if maxConnectionsPerIP ≤ n then (false, m)
      else (true, { m with mConnectionsPerIP := m.mConnectionsPerIP.insert ip (n + 1) })
  | none => (true, { m with mConnectionsPerIP := m.mConnectionsPerIP.insert ip 1 })

def decrementConnectionCount (ip : List UInt8) (m : ConnSlots) : ConnSlots :=
  match m.mConnectionsPerIP.lookup ip with
  | some n =>
      if n - 1 ≤ 0 then { m with mConnectionsPerIP := m.mConnectionsPerIP.erase ip }
      else { m with mConnectionsPerIP := m.mConnectionsPerIP.insert ip (n - 1) }
  | none => m

def removeNode (id : NodeId) (m : ConnSlots) : ConnSlots := { m with mNodes := m.mNodes.erase id }

/-- `DisconnectNode` of a node object. -/
def disconnectNode (id : NodeId) (m : ConnSlots) : ConnSlots :=
  if (m.nodes id).connected = false then m
  else
    let m := m.modify id SlotNode.disconnect
    let m := m.decrementConnectionCount (m.nodes id).addr.ip
    m.removeNode id

/-- `DisconnectNode` of an id. -/
def disconnectById (id : NodeId) (m : ConnSlots) : Bool × ConnSlots :=
  if id ∈ m.mNodes then (true, m.disconnectNode id) else (false, m)

/-! ### Evicting -/

section

variable (opts : SlotOptions)

def keyedNetGroup (ip : List UInt8) : UInt64 :=
  (AddrMan.groupOf ip).foldl (fun h b => (h ^^^ b.toUInt64) * 1099511628211) opts.mLocalNonce

def candidate (id : NodeId) (n : SlotNode) : Candidate where
  id
  group := AddrMan.groupOf n.addr.ip
  keyedGroup := keyedNetGroup opts n.addr.ip
  connTime := n.connTime
  minPing :=
    if 0 < n.lastPingRecv ∧ 0 < n.lastPingSent ∧ n.lastPingSent ≤ n.lastPingRecv then
      n.lastPingRecv - n.lastPingSent
    else 0x7FFFFFFFFFFFFFFF
  lastBlock := n.lastNovelBlock
  lastTx := n.lastNovelTx

/-- The `k` best are out of reach. -/
def protectBest (k : Nat) (better : Candidate → Candidate → Bool) (candidates : List Candidate) :
    List Candidate :=
  if candidates.length ≤ k then [] else (opts.arrangement.sort better candidates).drop k

/-- Those that no rule protects; a rule that leaves none leaves none to the next. -/
def evictable (candidates : List Candidate) : List Candidate :=
  let candidates := protectBest opts 4 (fun a b => a.keyedGroup < b.keyedGroup) candidates
  let candidates := protectBest opts 8 (fun a b => a.minPing < b.minPing) candidates
  let candidates := protectBest opts 4 (fun a b => b.lastTx < a.lastTx) candidates
  let candidates := protectBest opts 4 (fun a b => b.lastBlock < a.lastBlock) candidates
  protectBest opts (candidates.length / 2) (fun a b => a.connTime < b.connTime) candidates

end

/-- The group with the most candidates, between equals the one whose oldest is
youngest; `byGroup` is walked in the order of its keys. -/
def worstGroup (candidates : List Candidate) : List UInt8 :=
  let byGroup := ((candidates.map (·.group)).dedup).insertionSort (· ≤ ·)
  (byGroup.foldl (fun (worst : List UInt8 × Nat × Int) group =>
    let members := candidates.filter (·.group = group)
    let oldest := members.foldl (fun oldest c => min oldest c.connTime) 0x7FFFFFFFFFFFFFFF
    if worst.2.1 < members.length ∨ members.length = worst.2.1 ∧ worst.2.2 < oldest then
      (group, members.length, oldest)
    else worst) ([], 0, 0)).1

/-- The newest of the group, the first of those. -/
def victim (group : List UInt8) (candidates : List Candidate) : Option NodeId :=
  (candidates.foldl (fun (best : Option NodeId × Int) c =>
    if c.group ≠ group then best
    else if best.2 < c.connTime then (some c.id, c.connTime) else best) (none, -1)).1

def evictOneInboundPeer (opts : SlotOptions) (m : ConnSlots) : Bool × ConnSlots :=
  let candidates := (opts.arrangement.walk m.mNodes).filterMap fun id =>
    let n := m.nodes id
    if !n.isFullyConnected then none else if !n.inbound then none else some (candidate opts id n)
  let candidates := evictable opts candidates
  let group := worstGroup candidates
  if group = [] then (false, m)
  else
    match victim group candidates with
    | none => (false, m)
    | some id => if id ∈ m.mNodes then (true, m.disconnectNode id) else (false, m)

/-! ### Connecting -/

/-- An iteration of `AcceptLoop` for a connection that waits: where it is from, `none`
where it cannot be accepted or says no address. -/
def acceptIteration (opts : SlotOptions) (incoming : Option (List UInt8 × UInt16)) (now : Int)
    (m : ConnSlots) : ConnSlots :=
  let (id, m) := m.makeNode true
  match incoming with
  | none => m
  | some (ip, port) =>
      if m.isIPBanned ip then m
      else
        match m.checkConnectionLimitForIP ip with
        | (false, m) => m
        | (true, m) =>
            let made (m : ConnSlots) : ConnSlots :=
              let m := m.modify id fun n => { n with
                addr := { n.addr with ip, port }, connected := true, connTime := now }
              { m with mNodes := insert id m.mNodes }
            if opts.maxConnections.toNat ≤ m.mNodes.card then
              match m.evictOneInboundPeer opts with
              | (false, m) => m.decrementConnectionCount ip
              | (true, m) => made m
            else made m

def isAlreadyConnected (addr : NetAddress) (m : ConnSlots) : Bool :=
  decide (∃ id ∈ m.mNodes, (m.nodes id).addr.ip = addr.ip ∧ (m.nodes id).addr.port = addr.port)

/-- `ConnectToAddress`, with whether the connection comes about. -/
def connectToAddress (addr : NetAddress) (reached : Bool) (now : Int) (m : ConnSlots) :
    Bool × ConnSlots :=
  if m.isIPBanned addr.ip then (false, m)
  else if m.isAlreadyConnected addr then (false, m)
  else
    match m.checkConnectionLimitForIP addr.ip with
    | (false, m) => (false, m)
    | (true, m) =>
        let (id, m) := m.makeNode false
        if !reached then (false, m.decrementConnectionCount addr.ip)
        else
          let m := m.modify id fun n => { n with addr, connected := true, connTime := now }
          (true, { m with mNodes := insert id m.mNodes })

end ConnSlots

/-! ### Runs -/

/-- What happens to the connections, one after the other. -/
inductive SlotOp where
  | accept (incoming : Option (List UInt8 × UInt16)) (now : Int)
  | connectToAddress (addr : NetAddress) (reached : Bool) (now : Int)
  /-- For any reason, and as often as one likes. -/
  | disconnectNode (id : NodeId)
  | disconnectById (id : NodeId)
  /-- The handshake and the messages of a peer. -/
  | traffic (id : NodeId) (versionSent versionAcked : Bool)
      (lastPingSent lastPingRecv lastNovelBlock lastNovelTx : Int)
  | banNode (ip : List UInt8)
  | clearBanned

namespace ConnSlots

variable (opts : SlotOptions)

def step (m : ConnSlots) : SlotOp → ConnSlots
  | .accept incoming now => m.acceptIteration opts incoming now
  | .connectToAddress addr reached now => (m.connectToAddress addr reached now).2
  | .disconnectNode id => m.disconnectNode id
  | .disconnectById id => (m.disconnectById id).2
  | .traffic id versionSent versionAcked lastPingSent lastPingRecv lastNovelBlock lastNovelTx =>
      m.modify id fun n => { n with
        versionSent, versionAcked, lastPingSent, lastPingRecv, lastNovelBlock, lastNovelTx }
  | .banNode ip => { m with mBannedIPs := m.mBannedIPs ++ [ip] }
  | .clearBanned => { m with mBannedIPs := [] }

variable {opts}

/-! ### The tally of the nodes -/

/-- The addresses of the nodes, each as often as it has one. -/
def ips (m : ConnSlots) : Multiset (List UInt8) := m.mNodes.val.map fun id => (m.nodes id).addr.ip

/-- The counters are the tally of the nodes and of the connections that are still
being made, and none is too large. -/
structure Accounted (pending : Multiset (List UInt8)) (m : ConnSlots) : Prop where
  counts : Tally.Counts m.mConnectionsPerIP (pending + m.ips)
  limited : ∀ ip, ((pending + m.ips).count ip : Int) ≤ maxConnectionsPerIP
  connected : ∀ id, (m.nodes id).connected = true ↔ id ∈ m.mNodes
  made : ∀ id ∈ m.mNodes, id < m.mNextNodeId

section

variable {pending : Multiset (List UInt8)} {m m' : ConnSlots} {ip : List UInt8} {id : NodeId}

theorem decrementConnectionCount_eq (ip : List UInt8) (m : ConnSlots) :
    m.decrementConnectionCount ip =
      { m with mConnectionsPerIP := Tally.lower ip m.mConnectionsPerIP } := by
  rw [decrementConnectionCount, Tally.lower]
  cases m.mConnectionsPerIP.lookup ip with
  | none => rfl
  | some n =>
      dsimp only
      split <;> rfl

theorem mNextNodeId_disconnectNode (m : ConnSlots) (id : NodeId) :
    (m.disconnectNode id).mNextNodeId = m.mNextNodeId := by
  rw [disconnectNode]
  split
  · rfl
  · dsimp only
    rw [decrementConnectionCount_eq]
    rfl

namespace Accounted

theorem new : Accounted 0 new where
  counts := Tally.counts_empty
  limited _ := by simp [ConnSlots.new, ips, maxConnectionsPerIP]
  connected _ := by simp [ConnSlots.new, SlotNode.new]
  made _ mem := absurd mem (Finset.notMem_empty _)

/-- The limit is on the tally. -/
theorem checkConnectionLimitForIP_eq (accounted : Accounted pending m) (ip : List UInt8) :
    m.checkConnectionLimitForIP ip =
      if ((pending + m.ips).count ip : Int) < maxConnectionsPerIP then
        (true, { m with mConnectionsPerIP := Tally.raise ip m.mConnectionsPerIP })
      else (false, m) := by
  rw [checkConnectionLimitForIP, Tally.raise]
  cases found : m.mConnectionsPerIP.lookup ip with
  | some n =>
      rw [(accounted.counts.lookup_eq_some_iff.mp found).1]
      dsimp only
      by_cases full : maxConnectionsPerIP ≤ ((pending + m.ips).count ip : Int)
      · rw [if_pos full, if_neg (not_lt.mpr full)]
      · rw [if_neg full, if_pos (not_le.mp full)]
  | none =>
      have zero : (pending + m.ips).count ip = 0 := by
        by_contra some
        have own := accounted.counts ip
        rw [found, if_neg some] at own
        cases own
      rw [zero, if_pos (by decide)]

theorem raise (accounted : Accounted pending m)
    (below : ((pending + m.ips).count ip : Int) < maxConnectionsPerIP) :
    Accounted (ip ::ₘ pending)
      { m with mConnectionsPerIP := Tally.raise ip m.mConnectionsPerIP } where
  counts := by
    rw [Multiset.cons_add]
    exact accounted.counts.raise ip
  limited ip' := by
    change ((ip ::ₘ pending + m.ips).count ip' : Int) ≤ maxConnectionsPerIP
    rw [Multiset.cons_add]
    by_cases same : ip' = ip
    · rw [same, Multiset.count_cons_self]
      exact below
    · rw [Multiset.count_cons_of_ne same]
      exact accounted.limited ip'
  connected := accounted.connected
  made := accounted.made

theorem decrementConnectionCount (accounted : Accounted (ip ::ₘ pending) m) :
    Accounted pending (m.decrementConnectionCount ip) := by
  rw [decrementConnectionCount_eq]
  have counts := accounted.counts
  rw [Multiset.cons_add] at counts
  refine ⟨counts.lower, fun ip' => ?_, accounted.connected, accounted.made⟩
  have limited := accounted.limited ip'
  have fewer := Multiset.count_le_count_cons ip' ip (pending + m.ips)
  rw [Multiset.cons_add] at limited
  exact (Int.ofNat_le.mpr fewer).trans limited

/-- What the nodes that are listed keep. -/
theorem of_same (accounted : Accounted pending m) (nodes : m'.mNodes = m.mNodes)
    (next : m.mNextNodeId ≤ m'.mNextNodeId) (counters : m'.mConnectionsPerIP = m.mConnectionsPerIP)
    (addr : ∀ id ∈ m.mNodes, (m'.nodes id).addr.ip = (m.nodes id).addr.ip)
    (connected : ∀ id, (m'.nodes id).connected = (m.nodes id).connected) :
    Accounted pending m' := by
  have same : m'.ips = m.ips := by
    rw [ips, ips, nodes]
    exact Multiset.map_congr rfl addr
  refine ⟨?_, ?_, fun id => ?_, fun id mem => ?_⟩
  · rw [same, counters]
    exact accounted.counts
  · rw [same]
    exact accounted.limited
  · rw [connected, nodes]
    exact accounted.connected id
  · rw [nodes] at mem
    exact (accounted.made id mem).trans_le next

theorem next_notMem (accounted : Accounted pending m) : m.mNextNodeId ∉ m.mNodes :=
  fun mem => Nat.lt_irrefl _ (accounted.made _ mem)

theorem makeNode (accounted : Accounted pending m) (inbound : Bool) :
    Accounted pending (m.makeNode inbound).2 := by
  have free := accounted.next_notMem
  refine accounted.of_same rfl (Nat.le_succ _) rfl (fun id mem => ?_) fun id => ?_
  · have other : id ≠ m.mNextNodeId := fun same => free (same ▸ mem)
    rw [nodes_makeNode, if_neg other]
  · rw [nodes_makeNode]
    split
    · rename_i same
      rw [same]
      exact (Bool.eq_false_iff.mpr (mt (accounted.connected _).mp free)).symm
    · rfl

theorem mNodes_disconnectNode (accounted : Accounted pending m) (id : NodeId) :
    (m.disconnectNode id).mNodes = m.mNodes.erase id := by
  rw [ConnSlots.disconnectNode]
  split
  · rename_i gone
    have absent : id ∉ m.mNodes := fun mem => by
      rw [(accounted.connected id).mpr mem] at gone
      cases gone
    exact (Finset.erase_eq_of_notMem absent).symm
  · dsimp only
    rw [decrementConnectionCount_eq]
    rfl

theorem disconnectNode (accounted : Accounted pending m) (id : NodeId) :
    Accounted pending (m.disconnectNode id) := by
  rw [ConnSlots.disconnectNode]
  split
  · exact accounted
  rename_i here
  have mem : id ∈ m.mNodes := (accounted.connected id).mp (by simpa using here)
  have addr (k : NodeId) :
      ((m.modify id SlotNode.disconnect).nodes k).addr = (m.nodes k).addr := by
    by_cases same : k = id
    · rw [same, nodes_modify_self]
      rfl
    · rw [nodes_modify_of_ne _ _ same]
  have split : m.ips = (m.nodes id).addr.ip ::ₘ
      ((m.modify id SlotNode.disconnect).removeNode id).ips := by
    rw [ips, ← Multiset.cons_erase mem, Multiset.map_cons]
    refine congrArg _ ?_
    rw [ips]
    exact Multiset.map_congr rfl fun k _ => (congrArg NetAddress.ip (addr k)).symm
  have counts := accounted.counts
  rw [split, Multiset.add_cons] at counts
  have limited := accounted.limited
  rw [split] at limited
  dsimp only
  rw [decrementConnectionCount_eq, addr]
  refine ⟨counts.lower, fun ip' => ?_, fun k => ?_, fun k listed => ?_⟩
  · refine le_trans (Int.ofNat_le.mpr ?_) (limited ip')
    rw [Multiset.add_cons]
    exact Multiset.count_le_count_cons ..
  · by_cases same : k = id
    · rw [same]
      simp [removeNode, modify, SlotNode.disconnect]
    · have kept : ((m.modify id SlotNode.disconnect).nodes k).connected =
          (m.nodes k).connected := by rw [nodes_modify_of_ne _ _ same]
      simp only [removeNode, kept, accounted.connected k]
      simp [modify, same]
  · exact accounted.made k (Finset.mem_of_mem_erase listed)

/-- A connection that was counted becomes a node. -/
theorem insertNode (accounted : Accounted (ip ::ₘ pending) m) (free : id ∉ m.mNodes)
    (made : id < m.mNextNodeId) {f : SlotNode → SlotNode} (here : (f (m.nodes id)).addr.ip = ip)
    (connected : (f (m.nodes id)).connected = true) :
    Accounted pending { m.modify id f with mNodes := insert id m.mNodes } := by
  have kept (k : NodeId) (other : k ≠ id) := nodes_modify_of_ne f m other
  have self := nodes_modify_self id f m
  have joined : ips { m.modify id f with mNodes := insert id m.mNodes } = ip ::ₘ m.ips := by
    rw [ips, Finset.insert_val_of_notMem free, Multiset.map_cons]
    dsimp only
    rw [self, here, ips]
    refine congrArg _ (Multiset.map_congr rfl fun k mem => ?_)
    rw [kept k fun same => free (same ▸ mem)]
  have counts := accounted.counts
  have limited := accounted.limited
  rw [Multiset.cons_add, ← Multiset.add_cons, ← joined] at counts limited
  refine ⟨counts, limited, fun k => ?_, fun k mem => ?_⟩
  · by_cases same : k = id
    · rw [same]
      simp [self, connected]
    · simp [kept k same, accounted.connected k, same]
  · rcases Finset.mem_insert.mp mem with same | mem
    · rw [same]
      exact made
    · exact accounted.made k mem

end Accounted

/-- Whoever is evicted was listed. -/
theorem evictOneInboundPeer_cases (opts : SlotOptions) (m : ConnSlots) :
    m.evictOneInboundPeer opts = (false, m) ∨
      ∃ id ∈ m.mNodes, m.evictOneInboundPeer opts = (true, m.disconnectNode id) := by
  rw [evictOneInboundPeer]
  dsimp only
  split
  · exact .inl rfl
  split
  · exact .inl rfl
  · split
    · rename_i id _ listed
      exact .inr ⟨id, listed, rfl⟩
    · exact .inl rfl

/-- A capacity that was kept is kept, and one that was passed is not passed further. -/
theorem acceptIteration_spec (accounted : Accounted 0 m) (opts : SlotOptions)
    (incoming : Option (List UInt8 × UInt16)) (now : Int) :
    Accounted 0 (m.acceptIteration opts incoming now) ∧
      (m.acceptIteration opts incoming now).mNodes.card ≤
        max m.mNodes.card opts.maxConnections.toNat := by
  have start := accounted.makeNode true
  have free : m.mNextNodeId ∉ (m.makeNode true).2.mNodes := accounted.next_notMem
  have next : m.mNextNodeId < (m.makeNode true).2.mNextNodeId := Nat.lt_succ_self _
  have size : (m.makeNode true).2.mNodes.card = m.mNodes.card := rfl
  have pair : m.makeNode true = (m.mNextNodeId, (m.makeNode true).2) := rfl
  rw [acceptIteration, pair]
  dsimp only
  generalize (m.makeNode true).2 = m₁ at *
  cases incoming with
  | none => exact ⟨start, by dsimp only; omega⟩
  | some incoming =>
      obtain ⟨ip, port⟩ := incoming
      dsimp only
      split
      · exact ⟨start, by omega⟩
      rw [start.checkConnectionLimitForIP_eq]
      by_cases below : ((0 + m₁.ips).count ip : Int) < maxConnectionsPerIP
      · rw [if_pos below]
        dsimp only
        have raised := start.raise below
        split
        · rename_i full
          rcases evictOneInboundPeer_cases opts
            { m₁ with mConnectionsPerIP := Tally.raise ip m₁.mConnectionsPerIP } with
            kept | ⟨victim, listed, gone⟩
          · rw [kept]
            refine ⟨raised.decrementConnectionCount, ?_⟩
            dsimp only
            rw [decrementConnectionCount_eq]
            dsimp only
            omega
          · rw [gone]
            have erased := raised.mNodes_disconnectNode victim
            have dropped := raised.disconnectNode victim
            refine ⟨dropped.insertNode ?_ ?_ rfl rfl, ?_⟩
            · rw [erased]
              exact fun mem => free (Finset.mem_of_mem_erase mem)
            · rw [mNextNodeId_disconnectNode]
              exact next
            · have grown := Finset.card_insert_le m.mNextNodeId (m₁.mNodes.erase victim)
              have shrunk := Finset.card_erase_add_one listed
              dsimp only [modify] at erased shrunk ⊢
              rw [erased]
              omega
        · rename_i room
          refine ⟨raised.insertNode free next rfl rfl, ?_⟩
          have grown := Finset.card_insert_le m.mNextNodeId m₁.mNodes
          dsimp only [modify] at room ⊢
          omega
      · rw [if_neg below]
        exact ⟨start, by dsimp only; omega⟩

/-- The call gets as far as the connection, and that comes about. -/
def Connects (m : ConnSlots) (addr : NetAddress) (reached : Bool) : Prop :=
  m.isIPBanned addr.ip = false ∧ m.isAlreadyConnected addr = false ∧
    (m.checkConnectionLimitForIP addr.ip).1 = true ∧ reached = true

theorem connectToAddress_spec (accounted : Accounted 0 m) (addr : NetAddress) (reached : Bool)
    (now : Int) :
    Accounted 0 (m.connectToAddress addr reached now).2 ∧
      ((m.connectToAddress addr reached now).1 = true ↔ m.Connects addr reached) ∧
      (m.connectToAddress addr reached now).2.mNodes.card =
        m.mNodes.card + if (m.connectToAddress addr reached now).1 then 1 else 0 := by
  rw [connectToAddress, Connects]
  by_cases banned : m.isIPBanned addr.ip = true
  · rw [if_pos banned]
    simp [accounted, banned]
  by_cases already : m.isAlreadyConnected addr = true
  · rw [if_neg banned, if_pos already]
    simp [accounted, already]
  rw [if_neg banned, if_neg already, accounted.checkConnectionLimitForIP_eq]
  by_cases below : ((0 + m.ips).count addr.ip : Int) < maxConnectionsPerIP
  · rw [if_pos below]
    have raised := accounted.raise below
    have start := raised.makeNode false
    have free := raised.next_notMem
    dsimp only
    cases reached with
    | false =>
        refine ⟨start.decrementConnectionCount, by simp, ?_⟩
        simp [decrementConnectionCount_eq, makeNode]
    | true =>
        refine ⟨start.insertNode free (Nat.lt_succ_self _) rfl rfl, by simp [banned, already], ?_⟩
        exact Finset.card_insert_of_notMem free
  · rw [if_neg below]
    simp [accounted]

/-- Where a connection is made there is room for it. -/
def Roomy (opts : SlotOptions) (m : ConnSlots) : SlotOp → Prop
  | .connectToAddress addr reached _ =>
      m.Connects addr reached → m.mNodes.card < opts.maxConnections.toNat
  | _ => True

theorem step_accounted (accounted : Accounted 0 m) (op : SlotOp) : Accounted 0 (step opts m op) := by
  cases op with
  | accept incoming now => exact (acceptIteration_spec accounted opts incoming now).1
  | connectToAddress addr reached now => exact (connectToAddress_spec accounted addr reached now).1
  | disconnectNode id => exact accounted.disconnectNode id
  | disconnectById id =>
      rw [step, disconnectById]
      split
      · exact accounted.disconnectNode id
      · exact accounted
  | traffic id versionSent versionAcked lastPingSent lastPingRecv lastNovelBlock lastNovelTx =>
      refine accounted.of_same rfl (Nat.le_refl _) rfl (fun k _ => ?_) fun k => ?_
      · by_cases same : k = id
        · rw [same, step, nodes_modify_self]
        · rw [step, nodes_modify_of_ne _ _ same]
      · by_cases same : k = id
        · rw [same, step, nodes_modify_self]
        · rw [step, nodes_modify_of_ne _ _ same]
  | banNode ip => exact accounted.of_same rfl (Nat.le_refl _) rfl (fun _ _ => rfl) fun _ => rfl
  | clearBanned => exact accounted.of_same rfl (Nat.le_refl _) rfl (fun _ _ => rfl) fun _ => rfl

theorem step_room_iff (accounted : Accounted 0 m)
    (room : m.mNodes.card ≤ opts.maxConnections.toNat) (op : SlotOp) :
    (step opts m op).mNodes.card ≤ opts.maxConnections.toNat ↔ Roomy opts m op := by
  cases op with
  | accept incoming now =>
      have bound := (acceptIteration_spec accounted opts incoming now).2
      exact iff_of_true (bound.trans (Nat.max_le.mpr ⟨room, Nat.le_refl _⟩)) trivial
  | connectToAddress addr reached now =>
      obtain ⟨-, connects, card⟩ := connectToAddress_spec accounted addr reached now
      rw [step, card, Roomy, ← connects]
      split
      · rename_i made
        exact ⟨fun kept _ => kept, fun roomy => roomy made⟩
      · rename_i refused
        simp [refused, room]
  | disconnectNode id =>
      rw [step, accounted.mNodes_disconnectNode]
      exact iff_of_true (Finset.card_erase_le.trans room) trivial
  | disconnectById id =>
      rw [step, disconnectById]
      split
      · rw [accounted.mNodes_disconnectNode]
        exact iff_of_true (Finset.card_erase_le.trans room) trivial
      · exact iff_of_true room trivial
  | traffic => exact iff_of_true room trivial
  | banNode ip => exact iff_of_true room trivial
  | clearBanned => exact iff_of_true room trivial

/-- The counters hold for each address the number of connected nodes with it, at
most the limit, and nothing else. -/
structure Exact (m : ConnSlots) : Prop where
  counts : ∀ ip, m.mConnectionsPerIP.lookup ip =
    let held := (m.mNodes.filter fun id =>
      (m.nodes id).connected = true ∧ (m.nodes id).addr.ip = ip).card
    if held = 0 then none else some (held : Int)
  limited : ∀ ip n, m.mConnectionsPerIP.lookup ip = some n → n ≤ maxConnectionsPerIP

theorem Accounted.exact (accounted : Accounted 0 m) : m.Exact := by
  have held (ip : List UInt8) : (m.mNodes.filter fun id =>
      (m.nodes id).connected = true ∧ (m.nodes id).addr.ip = ip).card = (0 + m.ips).count ip := by
    rw [Multiset.zero_add, ips, Multiset.count_map, Finset.card_def, Finset.filter_val]
    refine congrArg _ (Multiset.filter_congr fun id mem => ?_)
    rw [(accounted.connected id).mpr mem]
    simp [eq_comm]
  constructor
  · intro ip
    dsimp only
    rw [held]
    exact accounted.counts ip
  · intro ip n found
    rw [(accounted.counts.lookup_eq_some_iff.mp found).1]
    exact accounted.limited ip

end

/-- **Connection slots.** The counters are exact all along; the capacity is kept all
along exactly when no connection is made by `ConnectToAddress` at capacity. -/
theorem slots_exact_iff (opts : SlotOptions) (ops : List SlotOp) :
    (∀ k, ((ops.take k).foldl (step opts) new).Exact) ∧
    ((∀ k, ((ops.take k).foldl (step opts) new).Exact ∧
      ((ops.take k).foldl (step opts) new).mNodes.card ≤ opts.maxConnections.toNat) ↔
      Run.Meets (step opts) (Roomy opts) ops new) := by
  have exact (k : Nat) : ((ops.take k).foldl (step opts) new).Exact :=
    (List.foldlRecOn (motive := Accounted 0) (ops.take k) (step opts) .new fun m accounted op _ =>
      step_accounted accounted op).exact
  refine ⟨exact, ?_⟩
  have room := @Run.meets_iff_forall_take _ _ (step opts) (Roomy opts)
    (fun m => Accounted 0 m ∧ m.mNodes.card ≤ opts.maxConnections.toNat)
    (fun m => m.mNodes.card ≤ opts.maxConnections.toNat) (fun _ now => now.2)
    (fun m op now roomy => ⟨step_accounted now.1 op, (step_room_iff now.1 now.2 op).mpr roomy⟩)
    (fun m op now kept => (step_room_iff now.1 now.2 op).mp kept) ops .new
    ⟨.new, Nat.zero_le _⟩
  rw [room]
  exact ⟨fun all k => (all k).2, fun all k => ⟨exact k, all k⟩⟩

end ConnSlots

namespace SmallNetwork

/-- Room for one connection. -/
def oneSlot : SlotOptions where
  maxConnections := 1
  mLocalNonce := 0
  arrangement := {
    walk s := s.sort (· ≤ ·)
    mem_walk _ _ := Finset.mem_sort (· ≤ ·)
    sort _ l := l
    sort_perm _ l := .refl l }

end SmallNetwork

open SmallNetwork in
/-- A peer connects, and the node connects to another. -/
theorem outbound_passes_capacity :
    ¬ ([SlotOp.accept (some ([49], 1)) 0, .connectToAddress ⟨[50], 1, 0, 0⟩ true 0].foldl
      (ConnSlots.step oneSlot) .new).mNodes.card ≤ oneSlot.maxConnections.toNat := by
  decide +kernel

end QmaskCore
