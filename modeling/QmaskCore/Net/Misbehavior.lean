import QmaskCore.Lib.Runs
import QmaskCore.Net.ConnManager

/-!
When a peer that misbehaves is cut off.

`Charges` says what a step does to the score of one peer: it grows by the given
points while the peer stays, and nothing else of the book-keeping of peers gets
worse. `penalty` is what a message costs, handler by handler
(`handleMessage_charges`). No handler looks at the score; the one place that does
is the branch for a frame that cannot be read. So the score stays below the
limit as long as no message that was read reaches it (`banned_dropped`).
-/

namespace QmaskCore

namespace ConnManager

variable {W : Wire} {world : Surroundings} {id other : NodeId} {msg : NetMessage}
variable {m m' m'' : ConnManager} {points more : Int}

/-! ### Points -/

/-- The score of a peer grows by `points` if the peer stays; no other score
changes, no peer comes back, and who stays is listed as before. -/
structure Charges (id : NodeId) (points : Int) (m m' : ConnManager) : Prop where
  own : (m'.nodes id).node.connected = true →
    (m'.nodes id).node.misbehavior = (m.nodes id).node.misbehavior + points
  others : ∀ other, other ≠ id →
    (m'.nodes other).node.misbehavior = (m.nodes other).node.misbehavior
  connected : ∀ peer, (m'.nodes peer).node.connected = true →
    (m.nodes peer).node.connected = true
  listed : ∀ peer, peer ∈ m.mNodes → (m'.nodes peer).node.connected = true →
    peer ∈ m'.mNodes

namespace Charges

/-- Nothing but downloads changes. -/
theorem same (nodes : m'.nodes = m.nodes) (mNodes : m'.mNodes = m.mNodes) :
    Charges id 0 m m' where
  own _ := by rw [nodes, Int.add_zero]
  others _ _ := by rw [nodes]
  connected _ live := nodes ▸ live
  listed _ mem _ := mNodes ▸ mem

theorem refl (m : ConnManager) : Charges id 0 m m := same rfl rfl

theorem trans (first : Charges id points m m') (second : Charges id more m' m'') :
    Charges id (points + more) m m'' where
  own live := by
    rw [second.own live, first.own (second.connected id live), Int.add_assoc]
  others other ne := (second.others other ne).trans (first.others other ne)
  connected peer live := first.connected peer (second.connected peer live)
  listed peer mem live :=
    second.listed peer (first.listed peer mem (second.connected peer live)) live

/-- Two steps of which the first is free. -/
theorem after (first : Charges id 0 m m') (second : Charges id points m' m'') :
    Charges id points m m'' := by
  have both := first.trans second
  rwa [Int.zero_add] at both

theorem modify {f : Peer → Peer}
    (score : (f (m.nodes id)).node.misbehavior = (m.nodes id).node.misbehavior + points)
    (same : (f (m.nodes id)).node.connected = (m.nodes id).node.connected) :
    Charges id points m (m.modify id f) where
  own _ := by rw [nodes_modify_self, score]
  others other ne := by rw [nodes_modify_of_ne f m ne]
  connected peer live := by
    by_cases here : peer = id
    · subst here
      rwa [nodes_modify_self, same] at live
    · rwa [nodes_modify_of_ne f m here] at live
  listed _ mem _ := mem

theorem addMisbehavior (score : Int) : Charges id score m (m.addMisbehavior id score) :=
  modify rfl rfl

theorem disconnectNode : Charges id 0 m (m.disconnectNode other) where
  own _ := by rw [misbehavior_disconnectNode, Int.add_zero]
  others peer _ := misbehavior_disconnectNode m other peer
  connected _ live := (connected_disconnectNode.mp live).2
  listed _ mem live := mem_mNodes_disconnectNode mem (connected_disconnectNode.mp live).1

theorem disconnectById :
    Charges id 0 m (m.disconnectById other) := by
  unfold ConnManager.disconnectById
  split
  · exact disconnectNode
  · exact refl m

theorem foldl {α : Type} {f : ConnManager → α → ConnManager}
    (each : ∀ m a, Charges id 0 m (f m a)) :
    ∀ (l : List α) (m : ConnManager), Charges id 0 m (l.foldl f m)
  | [], m => refl m
  | a :: l, m => (each m a).after (foldl each l (f m a))

/-- What a peer that is gone was charged does not count. -/
theorem gone (charges : Charges id points m m')
    (gone : (m'.nodes id).node.connected = false) : Charges id more m m' where
  own live := nomatch gone.symm.trans live
  others := charges.others
  connected := charges.connected
  listed := charges.listed

/-- A charge and the disconnection it comes with. -/
theorem andDisconnect (score : Int) :
    Charges id points m ((m.addMisbehavior id score).disconnectNode id) := by
  refine ((addMisbehavior score).trans disconnectNode).gone ?_
  rw [nodes_disconnectNode, if_pos rfl]
  rfl

/-- A branch is charged what it costs. -/
theorem ite {c : Prop} [Decidable c] (yes : c → Charges id points m m')
    (no : ¬ c → Charges id more m m'') :
    Charges id (if c then points else more) m (if c then m' else m'') := by
  by_cases holds : c
  · rw [if_pos holds, if_pos holds]
    exact yes holds
  · rw [if_neg holds, if_neg holds]
    exact no holds

end Charges

/-! ### What a message costs -/

/-- What `HandleTx` and `HandleBlock` charge, each its own score. -/
def decodePenalty (world : Surroundings) (id : NodeId) (minPayload : Nat) (score : Int)
    (hash : List UInt8 → Option Bytes32) (payload : List UInt8) : Int :=
  if payload.length < minPayload then score
  else if maxProtocolMsgSize.toNat < payload.length then 0
  else
    match hash payload with
    | none => score
    | some _ => if world.throws ∧ id ∉ world.drops then score else 0

/-- The points a message costs a peer that is not disconnected for it. -/
def penalty (W : Wire) (world : Surroundings) (id : NodeId) (peer : Peer) (msg : NetMessage) :
    Int :=
  let size := msg.payload.length
  let count := (readLE32 msg.payload).toNat
  match msg.type with
  | 1 => if peer.versionSent && peer.versionAcked then 10 else 0
  | 2 => 0
  | 3 | 4 => if size < 8 then 5 else 0
  | 5 => if size < 4 then 5 else if maxAddrToSend < count then 20 else 0
  | 6 => 0
  | 7 =>
      if size < 4 then 5
      else if maxInvSize < count then 20
      else if size < 4 + count * 33 then 10
      else 0
  | 8 => if size < 4 then 5 else if maxGetDataSize < count then 20 else 0
  | 11 =>
      if size < 4 then 5
      else if !world.serves then 0
      else if count = 0 ∨ 64 < count then 20
      else if size < 4 + count * 32 then 10
      else 0
  | 12 => 0
  | 9 => decodePenalty world id minTxPayload 10 W.txHash msg.payload
  | 15 | 10 => decodePenalty world id minBlockPayload 20 W.blockHash msg.payload
  | 14 => 0
  | _ => 5

theorem handleItem_same (i : Nat) (item : InvItem) :
    (handleItem world id i item m).2.nodes = m.nodes ∧
      (handleItem world id i item m).2.mNodes = m.mNodes := by
  unfold handleItem
  split
  · split <;> exact ⟨rfl, rfl⟩
  split
  · split <;> exact ⟨rfl, rfl⟩
  · exact ⟨rfl, rfl⟩

/-- Asking for what is announced costs nothing. -/
theorem handleItems_charges : ∀ (items : List InvItem) (i : Nat) (m : ConnManager),
    Charges id 0 m (handleItems world id i items m)
  | [], _, m => .refl m
  | item :: items, i, m => by
      rw [handleItems]
      have asked := @handleItem_same world id m i item
      exact (Charges.same asked.1 asked.2).after (handleItems_charges items (i + 1) _)

theorem disconnected_of_mem : ∀ {drops : List NodeId} {m : ConnManager},
    ((m.nodes id).node.connected = true → id ∈ m.mNodes) → id ∈ drops →
    ((drops.foldl (fun m dropped => m.disconnectById dropped) m).nodes id).node.connected =
      false := by
  intro drops
  induction drops with
  | nil => exact fun _ mem => nomatch mem
  | cons first drops ih =>
      intro m listed mem
      rw [List.foldl_cons]
      have step : Charges id 0 m (m.disconnectById first) := .disconnectById
      have rest : Charges id 0 (m.disconnectById first)
          (drops.foldl (fun m dropped => m.disconnectById dropped) (m.disconnectById first)) :=
        .foldl (fun _ _ => .disconnectById) drops _
      rcases List.mem_cons.mp mem with rfl | mem
      · refine Bool.eq_false_iff.mpr fun live => ?_
        have before := rest.connected id live
        rw [disconnectById, if_pos (listed (step.connected id before)), nodes_disconnectNode,
          if_pos rfl] at before
        cases before
      · exact ih (fun live => step.listed id (listed (step.connected id live)) live) mem

theorem callback_charges (score : Int)
    (listed : (m.nodes id).node.connected = true → id ∈ m.mNodes) :
    Charges id (if world.throws ∧ id ∉ world.drops then score else 0) m
      (m.callback world id score) := by
  have drops : Charges id 0 m (world.drops.foldl (fun m dropped => m.disconnectById dropped) m) :=
    .foldl (fun _ _ => .disconnectById) world.drops m
  unfold callback
  dsimp only
  by_cases dropped : id ∈ world.drops
  · rw [if_neg fun free => free.2 dropped]
    have gone := disconnected_of_mem listed dropped
    split
    · refine (drops.after (.addMisbehavior score)).gone ?_
      rw [addMisbehavior, nodes_modify_self]
      exact gone
    · exact drops
  · simp only [dropped, not_false_eq_true, and_true]
    exact .ite (fun _ => drops.after (.addMisbehavior score)) fun _ => drops

theorem handleVersion_charges :
    Charges id (if (m.nodes id).versionSent && (m.nodes id).versionAcked then 10 else 0) m
      (m.handleVersion W id msg) := by
  unfold handleVersion
  refine .ite (fun _ => .addMisbehavior 10) fun _ => ?_
  split
  · exact .disconnectNode
  split
  · exact .disconnectNode
  split
  · exact .disconnectNode
  split
  · exact .disconnectNode
  · exact .modify (Int.add_zero _).symm rfl

theorem handleTx_charges (listed : (m.nodes id).node.connected = true → id ∈ m.mNodes) :
    Charges id (decodePenalty world id minTxPayload 10 W.txHash msg.payload) m
      (m.handleTx W world id msg) := by
  unfold handleTx decodePenalty
  refine .ite (fun _ => .addMisbehavior 10) fun _ => .ite (fun _ => .andDisconnect 20) fun _ => ?_
  cases W.txHash msg.payload with
  | none => exact .addMisbehavior 10
  | some hash =>
      have cleared : Charges id 0 m (m.clearTxInFlight hash) := .same rfl rfl
      exact cleared.after (callback_charges 10 listed)

theorem handleBlock_charges (listed : (m.nodes id).node.connected = true → id ∈ m.mNodes) :
    Charges id (decodePenalty world id minBlockPayload 20 W.blockHash msg.payload) m
      (m.handleBlock W world id msg) := by
  unfold handleBlock decodePenalty
  refine .ite (fun _ => .addMisbehavior 20) fun _ => .ite (fun _ => .andDisconnect 20) fun _ => ?_
  cases W.blockHash msg.payload with
  | none => exact .addMisbehavior 20
  | some hash =>
      have cleared : Charges id 0 m (m.clearInFlight hash) := .same rfl rfl
      exact cleared.after (callback_charges 20 listed)

/-- Whatever the message, a peer that stays is charged its penalty. -/
theorem handleMessage_charges (listed : (m.nodes id).node.connected = true → id ∈ m.mNodes) :
    Charges id (penalty W world id (m.nodes id) msg) m (m.handleMessage W world id msg) := by
  have short (least : Nat) : Charges id (if msg.payload.length < least then 5 else 0) m
      (if msg.payload.length < least then m.addMisbehavior id 5 else m) :=
    .ite (fun _ => .addMisbehavior 5) fun _ => .refl m
  unfold penalty
  dsimp only
  split
  all_goals rename_i type
  all_goals try rw [handleMessage, type]
  · exact handleVersion_charges
  · exact .modify (f := fun p => { p with versionAcked := true }) (Int.add_zero _).symm rfl
  · exact short 8
  · exact short 8
  · exact .ite (fun _ => .addMisbehavior 5) fun _ =>
      .ite (fun _ => .addMisbehavior 20) fun _ => .refl m
  · exact .refl m
  · exact .ite (fun _ => .addMisbehavior 5) fun _ =>
      .ite (fun _ => .addMisbehavior 20) fun _ =>
      .ite (fun _ => .addMisbehavior 10) fun _ => handleItems_charges _ 0 m
  · exact .ite (fun _ => .addMisbehavior 5) fun _ =>
      .ite (fun _ => .addMisbehavior 20) fun _ => .refl m
  · exact .ite (fun _ => .addMisbehavior 5) fun _ => .ite (fun _ => .refl m) fun _ =>
      .ite (fun _ => .addMisbehavior 20) fun _ =>
      .ite (fun _ => .addMisbehavior 10) fun _ => .refl m
  · exact .refl m
  · exact handleTx_charges listed
  · exact handleBlock_charges listed
  · exact handleBlock_charges listed
  · exact .refl m
  · have unknown : m.handleMessage W world id msg = m.addMisbehavior id 5 := by
      unfold handleMessage
      split <;> first | rfl | contradiction
    rw [unknown]
    exact .addMisbehavior 5

/-! ### Reads -/

/-- A message on its way to `HandleMessage`: what the world answers meanwhile, and
its peer as it then is. -/
structure Handed where
  world : Surroundings
  peer : Peer
  msg : NetMessage

/-- The messages the loop of `HandleRead` hands over. -/
def handedFrom (W : Wire) (id : NodeId) :
    Nat → (Nat → Surroundings) → ConnManager → List Handed
  | 0, _, _ => []
  | fuel + 1, world, m =>
      let recvBuffer := (m.nodes id).node.recvBuffer
      let payloadSize := NetMessage.payloadSize recvBuffer
      let total := kHeader + payloadSize.toNat
      if recvBuffer.length < kHeader ∨ maxProtocolMsgSize < payloadSize ∨
          recvBuffer.length < total then []
      else
        match NetMessage.deserialize W.networkMagic (recvBuffer.take total) with
        | none => []
        | some msg =>
            let rest := recvBuffer.drop total
            let m := m.modify id fun p => { p with node := { p.node with recvBuffer := rest } }
            let handled := m.handleMessage W (world 0) id msg
            ⟨world 0, m.nodes id, msg⟩ ::
              if (handled.nodes id).node.connected then
                handedFrom W id fuel (fun n => world (n + 1)) handled
              else []

/-- The messages a read hands over. -/
def handed (W : Wire) (id : NodeId) (bytes : List UInt8) (world : Nat → Surroundings)
    (m : ConnManager) : List Handed :=
  let recvBuffer := (m.nodes id).node.recvBuffer ++ bytes
  if bytes = [] ∨ maxProtocolMsgSize.toNat + kHeader < recvBuffer.length then []
  else
    (m.modify id fun p => { p with node := { p.node with
      recvBuffer := recvBuffer
      bytesRecv := p.node.bytesRecv + bytes.length } }).handedFrom W id
        (recvBuffer.length + 1) world

/-- The message leaves the score of its peer below the limit. -/
def Handed.Spares (W : Wire) (id : NodeId) (h : Handed) : Prop :=
  h.peer.node.connected = true →
    h.peer.node.misbehavior + penalty W h.world id h.peer h.msg < 100

instance (W : Wire) (id : NodeId) : DecidablePred (Handed.Spares W id) := fun h =>
  inferInstanceAs (Decidable (h.peer.node.connected = true →
    h.peer.node.misbehavior + penalty W h.world id h.peer h.msg < 100))

/-- Every message of a read leaves the score of its peer below the limit. -/
def Spares (W : Wire) (m : ConnManager) : NetOp → Prop
  | .handleRead id bytes world => ∀ h ∈ m.handed W id bytes world, h.Spares W id
  | _ => True

instance (W : Wire) (m : ConnManager) : ∀ op, Decidable (Spares W m op)
  | .handleRead id bytes world =>
      inferInstanceAs (Decidable (∀ h ∈ m.handed W id bytes world, h.Spares W id))
  | .connect => .isTrue trivial
  | .disconnectNode _ => .isTrue trivial
  | .checkDownloadProgress _ => .isTrue trivial

/-- Whoever is connected is listed, and below the limit. -/
structure Tame (m : ConnManager) : Prop where
  listed : ∀ id, (m.nodes id).node.connected = true → id ∈ m.mNodes
  below : ∀ id, (m.nodes id).node.connected = true → (m.nodes id).node.misbehavior < 100

theorem Charges.tame (charges : Charges id points m m') (tame : m.Tame)
    (spared : (m'.nodes id).node.connected = true →
      (m.nodes id).node.misbehavior + points < 100) : m'.Tame where
  listed peer live := charges.listed peer (tame.listed peer (charges.connected peer live)) live
  below peer live := by
    by_cases here : peer = id
    · subst here
      rw [charges.own live]
      exact spared live
    · rw [charges.others peer here]
      exact tame.below peer (charges.connected peer live)

/-- What costs nothing keeps every score. -/
theorem Charges.tame_of_free (charges : Charges id 0 m m') (tame : m.Tame) : m'.Tame := by
  refine charges.tame tame fun live => ?_
  rw [Int.add_zero]
  exact tame.below id (charges.connected id live)

theorem processFrom_tame : ∀ {fuel : Nat} {world : Nat → Surroundings} {m : ConnManager},
    m.Tame → (∀ h ∈ m.handedFrom W id fuel world, h.Spares W id) →
    (m.processFrom W id fuel world).Tame := by
  intro fuel
  induction fuel with
  | zero => exact fun tame _ => tame
  | succ fuel ih =>
      intro world m tame spares
      have dropped (score : Int) : ((m.addMisbehavior id score).disconnectNode id).Tame :=
        Charges.tame_of_free (.andDisconnect score) tame
      rw [handedFrom] at spares
      rw [processFrom]
      dsimp only at spares ⊢
      split
      · exact tame
      rename_i header
      split
      · exact dropped 20
      rename_i allowed
      split
      · exact tame
      rename_i whole
      rw [if_neg (by simp only [not_or]; exact ⟨header, allowed, whole⟩)] at spares
      split
      · -- the branch that looks at the score
        split
        · exact dropped 10
        · rename_i notBanned
          have charged : Charges id 10 m (m.addMisbehavior id 10) := .addMisbehavior 10
          refine charged.tame tame fun live => ?_
          rw [← charged.own live]
          exact not_le.mp (mt decide_eq_true notBanned)
      · rename_i msg read
        rw [read] at spares
        obtain ⟨spared, spares⟩ := List.forall_mem_cons.mp spares
        set taken := m.modify id fun p =>
          { p with node := { p.node with recvBuffer := _ } } with taken_def
        have free : Charges id 0 m taken := .modify (Int.add_zero _).symm rfl
        have taken_tame : taken.Tame := free.tame_of_free tame
        have charged := @handleMessage_charges W (world 0) id msg taken (taken_tame.listed id)
        have handled : (taken.handleMessage W (world 0) id msg).Tame :=
          charged.tame taken_tame fun live => spared (charged.connected id live)
        split
        · rename_i live
          rw [if_pos live] at spares
          exact ih handled spares
        · exact handled

theorem handleRead_tame {bytes : List UInt8} {world : Nat → Surroundings} (tame : m.Tame)
    (spares : ∀ h ∈ m.handed W id bytes world, h.Spares W id) :
    (m.handleRead W id bytes world).Tame := by
  unfold handleRead
  split
  · exact tame
  rename_i some'
  have free : Charges id 0 m (m.modify id fun p => { p with node := { p.node with
      recvBuffer := (m.nodes id).node.recvBuffer ++ bytes
      bytesRecv := p.node.bytesRecv + bytes.length } }) := .modify (Int.add_zero _).symm rfl
  dsimp only
  split
  · exact (free.after (.andDisconnect 20)).tame_of_free tame
  · rename_i fits
    rw [handed, if_neg (by simp only [not_or]; exact ⟨some', fits⟩)] at spares
    exact processFrom_tame (free.tame_of_free tame) spares

theorem checkDownloadProgress_tame (now : Int) (tame : m.Tame) :
    (m.checkDownloadProgress W now).Tame := by
  unfold checkDownloadProgress
  split
  · exact ⟨tame.listed, tame.below⟩
  · dsimp only
    have thinned (stalling : AList fun _ : NodeId => Int) :
        Tame { m with mStallingSince := stalling } := ⟨tame.listed, tame.below⟩
    refine @Charges.tame_of_free 0 _ _ (.foldl (fun m peer => ?_) _ _) (thinned _)
    split
    · exact Charges.disconnectNode.after (.same rfl rfl)
    · exact .refl m

/-! ### Runs -/

theorem tame_new : Tame new where
  listed _ connected := nomatch connected
  below _ connected := nomatch connected

theorem step_tame {op : NetOp} (tame : m.Tame) (spares : Spares W m op) :
    (step W m op).Tame := by
  cases op with
  | connect =>
      constructor
      · intro peer live
        by_cases new : peer = m.mNextNodeId
        · subst new
          exact Finset.mem_insert_self ..
        · refine Finset.mem_insert_of_mem (tame.listed peer ?_)
          simpa [step, connect, new] using live
      · intro peer live
        by_cases new : peer = m.mNextNodeId
        · simp [step, connect, new]
        · simp only [step, connect, Function.update_of_ne new] at live ⊢
          exact tame.below peer live
  | handleRead id bytes world =>
      rw [step]
      split
      · exact handleRead_tame tame spares
      · exact tame
  | disconnectNode id =>
      have free : Charges id 0 m (m.disconnectNode id) := .disconnectNode
      exact free.tame_of_free tame
  | checkDownloadProgress now => exact checkDownloadProgress_tame now tame

/-- **A peer at the limit is cut off.** In a run whose messages each leave the
score of their peer below the limit, every peer is disconnected or below it after
every read. -/
theorem banned_dropped {ops : List NetOp} (spares : Run.Meets (step W) (Spares W) ops new)
    (id : NodeId) :
    ((run W ops).nodes id).node.connected = false ∨
      ((run W ops).nodes id).node.misbehavior < 100 := by
  have tame : (run W ops).Tame := spares.invariant (fun _ _ => step_tame) tame_new
  cases live : ((run W ops).nodes id).node.connected with
  | false => exact .inl rfl
  | true => exact .inr (tame.below id live)

/-! ### Blocks without a payload -/

private def terse : Wire := ⟨0, 0, 600, fun _ => none, fun _ => none⟩

private def silent : Surroundings :=
  ⟨fun _ => 0, fun _ _ => false, fun _ _ => false, false, [], false⟩

private def emptyBlocks (n : Nat) : List UInt8 :=
  (List.replicate n (NetMessage.mk 0 10 []).serialize).flatten

theorem banned_dropped_four :
    ((run terse [.connect, .handleRead 1 (emptyBlocks 4) fun _ => silent]).nodes 1).node.misbehavior
        = 80 ∧
      (((run terse [.connect, .handleRead 1 (emptyBlocks 4) fun _ => silent]).nodes
          1).node.connected = false ∨
        ((run terse [.connect, .handleRead 1 (emptyBlocks 4) fun _ => silent]).nodes
          1).node.misbehavior < 100) :=
  ⟨by decide +kernel, banned_dropped (by decide +kernel) 1⟩

/-- The fifth brings the score to the limit, and the peer stays. -/
theorem banned_stays :
    ¬ ∀ (W : Wire) (ops : List NetOp) (id : NodeId),
      ((run W ops).nodes id).node.connected = false ∨
        ((run W ops).nodes id).node.misbehavior < 100 := by
  intro dropped
  have stays : ((run terse [.connect, .handleRead 1 (emptyBlocks 5) fun _ => silent]).nodes
      1).node.connected = true := by
    decide +kernel
  have score : ((run terse [.connect, .handleRead 1 (emptyBlocks 5) fun _ => silent]).nodes
      1).node.misbehavior = 100 := by
    decide +kernel
  rcases dropped terse [.connect, .handleRead 1 (emptyBlocks 5) fun _ => silent] 1 with gone | below
  · exact nomatch gone.symm.trans stays
  · rw [score] at below
    exact absurd below (by decide)

end ConnManager

end QmaskCore
