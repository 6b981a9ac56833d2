import QmaskCore.Lib.Runs
import QmaskCore.Net.ConnManager

/-!
Who holds which download.

`ConnManager.Sound` says that every request in flight is with a peer that is
connected and listed, and that the limits hold. What a thread does either only
takes requests and peers away (`Releases`) or asks a peer for more; the second
keeps `Sound` as long as that peer is there (`handleItem_sound`). A read whose
completion was queued before its peer was removed is the one case where it is
not, and `downloads_held` says what such a read may bring.
-/

namespace QmaskCore

namespace ConnManager

/-- Connected and in `mNodes`. -/
def Live (m : ConnManager) (id : NodeId) : Prop :=
  id ∈ m.mNodes ∧ (m.nodes id).node.connected = true

/-- Every request is with a live peer, and no limit is exceeded. -/
structure Sound (m : ConnManager) : Prop where
  listed : ∀ id, (m.nodes id).node.connected = true → id ∈ m.mNodes
  blocks : ∀ hash e, m.mBlocksInFlight.lookup hash = some e → m.Live e.peer
  txs : ∀ hash e, m.mTxInFlight.lookup hash = some e → m.Live e.peer
  blocksPerPeer : ∀ id, m.mBlocksInFlight.heldBy id ≤ maxBlocksInFlightPerPeer
  txsPerPeer : ∀ id, m.mTxInFlight.heldBy id ≤ maxTxInFlightPerPeer
  window : m.mBlocksInFlight.Within (some blockDownloadWindow)

theorem sound_new : Sound new where
  listed _ connected := nomatch connected
  blocks _ _ found := nomatch found
  txs _ _ found := nomatch found
  blocksPerPeer _ := Nat.zero_le _
  txsPerPeer _ := Nat.zero_le _
  window _ _ := Nat.zero_le _

variable {m m' m'' : ConnManager} {id : NodeId} {W : Wire}

/-- Requests only go, and so do peers, those with requests left excepted. -/
structure Releases (m m' : ConnManager) : Prop where
  blocks : m'.mBlocksInFlight.entries.Sublist m.mBlocksInFlight.entries
  txs : m'.mTxInFlight.entries.Sublist m.mTxInFlight.entries
  listed : ∀ id, (m.nodes id).node.connected = true ∧ id ∈ m.mNodes →
    (m'.nodes id).node.connected = true → id ∈ m'.mNodes
  connected : ∀ id, (m'.nodes id).node.connected = true → (m.nodes id).node.connected = true
  kept : ∀ hash e, m'.mBlocksInFlight.lookup hash = some e ∨ m'.mTxInFlight.lookup hash = some e →
    (m.nodes e.peer).node.connected = true → (m'.nodes e.peer).node.connected = true

namespace Releases

theorem refl (m : ConnManager) : Releases m m where
  blocks := List.Sublist.refl _
  txs := List.Sublist.refl _
  listed _ live _ := live.2
  connected _ live := live
  kept _ _ _ live := live

theorem trans (first : Releases m m') (second : Releases m' m'') : Releases m m'' where
  blocks := second.blocks.trans first.blocks
  txs := second.txs.trans first.txs
  listed id live connected := by
    have between := second.connected id connected
    exact second.listed id ⟨between, first.listed id live between⟩ connected
  connected id live := first.connected id (second.connected id live)
  kept hash e found live := by
    refine second.kept hash e found (first.kept hash e ?_ live)
    exact found.imp (InFlight.lookup_of_sublist second.blocks)
      (InFlight.lookup_of_sublist second.txs)

theorem sound (releases : Releases m m') (sound : m.Sound) : m'.Sound where
  listed id connected := by
    have before := releases.connected id connected
    exact releases.listed id ⟨before, sound.listed id before⟩ connected
  blocks hash e found := by
    have live := sound.blocks hash e (InFlight.lookup_of_sublist releases.blocks found)
    have connected := releases.kept hash e (.inl found) live.2
    exact ⟨releases.listed _ ⟨live.2, live.1⟩ connected, connected⟩
  txs hash e found := by
    have live := sound.txs hash e (InFlight.lookup_of_sublist releases.txs found)
    have connected := releases.kept hash e (.inr found) live.2
    exact ⟨releases.listed _ ⟨live.2, live.1⟩ connected, connected⟩
  blocksPerPeer id := (InFlight.heldBy_le releases.blocks id).trans (sound.blocksPerPeer id)
  txsPerPeer id := (InFlight.heldBy_le releases.txs id).trans (sound.txsPerPeer id)
  window n mem := releases.blocks.length_le.trans (sound.window n mem)

/-- Thinning the tables alone. -/
theorem thin {blocks txs : InFlight} {stalling : AList fun _ : NodeId => Int}
    (subBlocks : blocks.entries.Sublist m.mBlocksInFlight.entries)
    (subTxs : txs.entries.Sublist m.mTxInFlight.entries) :
    Releases m { m with
      mBlocksInFlight := blocks
      mTxInFlight := txs
      mStallingSince := stalling } where
  blocks := subBlocks
  txs := subTxs
  listed _ live _ := live.2
  connected _ live := live
  kept _ _ _ live := live

theorem modify {f : Peer → Peer}
    (same : ∀ p, (f p).node.connected = p.node.connected) : Releases m (m.modify id f) := by
  have connected : ∀ other, ((m.modify id f).nodes other).node.connected =
      (m.nodes other).node.connected := by
    intro other
    by_cases here : other = id
    · subst here
      rw [nodes_modify_self, same]
    · rw [nodes_modify_of_ne f m here]
  constructor
  · exact List.Sublist.refl _
  · exact List.Sublist.refl _
  · exact fun _ live _ => live.2
  · exact fun other live => connected other ▸ live
  · exact fun _ e _ live => (connected e.peer).symm ▸ live

theorem addMisbehavior (score : Int) : Releases m (m.addMisbehavior id score) :=
  modify fun _ => rfl

/-- A disconnection takes the requests of the peer with it. -/
theorem disconnectNode : Releases m (m.disconnectNode id) := by
  refine ⟨?_, ?_, fun other live connected => ?_, fun other connected => ?_,
    fun hash e found live => ?_⟩
  · unfold ConnManager.disconnectNode
    split
    · exact List.Sublist.refl _
    · exact InFlight.clearForPeer_sublist _ _
  · unfold ConnManager.disconnectNode
    split
    · exact List.Sublist.refl _
    · exact InFlight.clearForPeer_sublist _ _
  · exact mem_mNodes_disconnectNode live.2 (connected_disconnectNode.mp connected).1
  · exact (connected_disconnectNode.mp connected).2
  · refine connected_disconnectNode.mpr ⟨?_, live⟩
    intro here
    unfold ConnManager.disconnectNode at found
    split at found
    · rename_i gone
      rw [here, gone] at live
      cases live
    · rcases found with found | found <;> exact InFlight.lookup_clearForPeer found here

theorem disconnectById : Releases m (m.disconnectById id) := by
  unfold ConnManager.disconnectById
  split
  · exact disconnectNode
  · exact refl m

theorem foldl {α : Type} {f : ConnManager → α → ConnManager}
    (each : ∀ m a, Releases m (f m a)) : ∀ (l : List α) (m : ConnManager), Releases m (l.foldl f m)
  | [], m => refl m
  | a :: l, m => (each m a).trans (foldl each l (f m a))

end Releases

/-! ### Handlers that only release -/

theorem releases_callback (world : Surroundings) (score : Int) :
    Releases m (m.callback world id score) := by
  unfold callback
  have drops := Releases.foldl (f := fun m dropped => m.disconnectById dropped)
    (fun _ _ => .disconnectById) world.drops m
  dsimp only
  split
  · exact drops.trans (.addMisbehavior _)
  · exact drops

theorem releases_handleVersion (msg : NetMessage) : Releases m (m.handleVersion W id msg) := by
  unfold handleVersion
  split
  · exact .addMisbehavior _
  split
  · exact .disconnectNode
  split
  · exact .disconnectNode
  split
  · exact .disconnectNode
  split
  · exact .disconnectNode
  · exact .modify fun _ => rfl

theorem releases_handleTx (world : Surroundings) (msg : NetMessage) :
    Releases m (m.handleTx W world id msg) := by
  unfold handleTx
  split
  · exact .addMisbehavior _
  split
  · exact (Releases.addMisbehavior _).trans .disconnectNode
  split
  · exact .addMisbehavior _
  · rename_i hash _
    exact (Releases.thin (List.Sublist.refl _) (InFlight.erase_sublist hash _)).trans
      (releases_callback world _)

theorem releases_handleBlock (world : Surroundings) (msg : NetMessage) :
    Releases m (m.handleBlock W world id msg) := by
  unfold handleBlock
  split
  · exact .addMisbehavior _
  split
  · exact (Releases.addMisbehavior _).trans .disconnectNode
  split
  · exact .addMisbehavior _
  · rename_i hash _
    exact (Releases.thin (InFlight.erase_sublist hash _) (List.Sublist.refl _)).trans
      (releases_callback world _)

/-- Whatever is not an inventory takes away at most. -/
theorem releases_handleMessage {world : Surroundings} {msg : NetMessage} (other : msg.type ≠ 7) :
    Releases m (m.handleMessage W world id msg) := by
  unfold handleMessage
  split
  · exact releases_handleVersion msg
  · exact .modify fun _ => rfl
  · unfold handlePing
    split
    · exact .addMisbehavior _
    · exact .refl m
  · unfold handlePing
    split
    · exact .addMisbehavior _
    · exact .refl m
  · unfold handleAddr
    split
    · exact .addMisbehavior _
    split
    · exact .addMisbehavior _
    · exact .refl m
  · exact .refl m
  · rename_i inventory
    exact absurd inventory other
  · unfold handleGetData
    split
    · exact .addMisbehavior _
    split
    · exact .addMisbehavior _
    · exact .refl m
  · unfold handleGetBlocks
    split
    · exact .addMisbehavior _
    split
    · exact .refl m
    dsimp only
    split
    · exact .addMisbehavior _
    split
    · exact .addMisbehavior _
    · exact .refl m
  · exact .refl m
  · exact releases_handleTx world msg
  · exact releases_handleBlock world msg
  · exact releases_handleBlock world msg
  · exact .refl m
  · exact .addMisbehavior _

theorem releases_checkDownloadProgress (now : Int) :
    Releases m (m.checkDownloadProgress W now) := by
  unfold checkDownloadProgress
  split
  · exact .thin (List.Sublist.refl _) (List.Sublist.refl _)
  · dsimp only
    refine Releases.trans (.thin (List.Sublist.refl _) (List.Sublist.refl _)) (.foldl ?_ _ _)
    intro m peer
    split
    · exact Releases.disconnectNode.trans (.thin (List.Sublist.refl _) (List.Sublist.refl _))
    · exact .refl m

/-! ### Inventories -/

/-- An inventory with nothing to ask for: what the node lacks is in flight
already, at the clock of its item, or is a block and the window is full. -/
def Superfluous (world : Surroundings) : Nat → List InvItem → InFlight → InFlight → Prop
  | _, [], _, _ => True
  | i, item :: items, blocks, txs =>
      if item.type = 1 ∧ world.haveTx i item.hash = false then
        let txs := txs.expire txRequestTimeoutSec (world.now i)
        item.hash ∈ txs ∧ Superfluous world (i + 1) items blocks txs
      else if item.type = 2 ∧ world.haveBlock i item.hash = false then
        let blocks := blocks.expire blockInFlightTimeoutSec (world.now i)
        (item.hash ∈ blocks ∨ blocks.room (some blockDownloadWindow) = false) ∧
          Superfluous world (i + 1) items blocks txs
      else Superfluous world (i + 1) items blocks txs

/-- What is asked of a live peer is with a live peer. -/
theorem handleItem_sound {world : Surroundings} {i : Nat} {item : InvItem} (sound : m.Sound)
    (live : m.Live id) :
    (handleItem world id i item m).2.Sound ∧ (handleItem world id i item m).2.Live id := by
  unfold handleItem
  split
  · split
    · exact ⟨sound, live⟩
    · refine ⟨?_, live⟩
      exact {
        listed := sound.listed
        blocks := sound.blocks
        txs := fun hash e found => by
          rcases InFlight.lookup_request found with before | mine
          · exact sound.txs hash e before
          · rw [mine]
            exact live
        blocksPerPeer := sound.blocksPerPeer
        txsPerPeer := fun p => InFlight.heldBy_request sound.txsPerPeer p
        window := sound.window }
  split
  · split
    · exact ⟨sound, live⟩
    · refine ⟨?_, live⟩
      exact {
        listed := sound.listed
        blocks := fun hash e found => by
          rcases InFlight.lookup_request found with before | mine
          · exact sound.blocks hash e before
          · rw [mine]
            exact live
        txs := sound.txs
        blocksPerPeer := fun p => InFlight.heldBy_request sound.blocksPerPeer p
        txsPerPeer := sound.txsPerPeer
        window := InFlight.within_request sound.window }
  · exact ⟨sound, live⟩

theorem handleItems_sound {world : Surroundings} : ∀ {items : List InvItem} {i : Nat}
    {m : ConnManager}, m.Sound → m.Live id → (handleItems world id i items m).Sound
  | [], _, _, sound, _ => sound
  | item :: items, i, m, sound, live => by
      rw [handleItems]
      have asked := @handleItem_sound _ id world i item sound live
      exact handleItems_sound asked.1 asked.2

/-- Nothing is asked for. -/
theorem handleItems_releases {world : Surroundings} : ∀ {items : List InvItem} {i : Nat}
    {m : ConnManager}, Superfluous world i items m.mBlocksInFlight m.mTxInFlight →
    Releases m (handleItems world id i items m) := by
  intro items
  induction items with
  | nil => exact fun _ => .refl _
  | cons item items ih =>
      intro i m superfluous
      rw [Superfluous] at superfluous
      rw [handleItems, handleItem]
      split at superfluous
      · rename_i lacked
        rw [if_pos lacked.1, lacked.2, if_neg Bool.false_ne_true]
        have refused : m.shouldRequestTx item.hash id (world.now i) = (false, { m with
            mTxInFlight := m.mTxInFlight.expire txRequestTimeoutSec (world.now i) }) := by
          simp [shouldRequestTx, InFlight.request, superfluous.1]
        rw [refused]
        exact (Releases.thin (List.Sublist.refl _) (InFlight.expire_sublist _ _ _)).trans
          (ih superfluous.2)
      split at superfluous
      · rename_i notTx lacked
        have block : item.type ≠ 1 := by
          rw [lacked.1]
          decide
        rw [if_neg block, if_pos lacked.1, lacked.2, if_neg Bool.false_ne_true]
        have refused : m.shouldRequestBlock item.hash id (world.now i) = (false, { m with
            mBlocksInFlight :=
              m.mBlocksInFlight.expire blockInFlightTimeoutSec (world.now i) }) := by
          rcases superfluous.1 with asked | full
          · simp [shouldRequestBlock, InFlight.request, asked]
          · simp [shouldRequestBlock, InFlight.request, full]
        rw [refused]
        exact (Releases.thin (InFlight.expire_sublist _ _ _) (List.Sublist.refl _)).trans
          (ih superfluous.2)
      · rename_i notTx notBlock
        have unchanged : (if item.type = 1 then
            if world.haveTx i item.hash = true then (false, m)
            else m.shouldRequestTx item.hash id (world.now i)
          else if item.type = 2 then
            if world.haveBlock i item.hash = true then (false, m)
            else m.shouldRequestBlock item.hash id (world.now i)
          else (false, m)) = (false, m) := by
          grind
        rw [unchanged]
        exact ih superfluous

theorem handleInv_cases (world : Surroundings) (msg : NetMessage) :
    Releases m (m.handleInv world id msg) ∨
      m.handleInv world id msg = handleItems world id 0 (invItems msg) m := by
  unfold handleInv invItems
  split
  · exact .inl (.addMisbehavior _)
  · dsimp only
    split
    · exact .inl (.addMisbehavior _)
    split
    · exact .inl (.addMisbehavior _)
    · exact .inr rfl

theorem handleMessage_sound {world : Surroundings} {msg : NetMessage} (sound : m.Sound)
    (live : m.Live id) : (m.handleMessage W world id msg).Sound := by
  by_cases inventory : msg.type = 7
  · rw [handleMessage, inventory]
    rcases @handleInv_cases m id world msg with releases | items
    · exact releases.sound sound
    · change (m.handleInv world id msg).Sound
      rw [items]
      exact handleItems_sound sound live
  · exact (releases_handleMessage inventory).sound sound

/-! ### Reads -/

/-- The message a read hands over first, if it gets to one. -/
def firstMessage (W : Wire) (id : NodeId) (bytes : List UInt8) (m : ConnManager) :
    Option NetMessage :=
  let recvBuffer := (m.nodes id).node.recvBuffer ++ bytes
  let total := kHeader + (NetMessage.payloadSize recvBuffer).toNat
  if bytes = [] ∨ maxProtocolMsgSize.toNat + kHeader < recvBuffer.length ∨
      recvBuffer.length < total then none
  else NetMessage.deserialize W.networkMagic (recvBuffer.take total)

/-- Reading on, from a peer that is there. -/
theorem processFrom_sound : ∀ {fuel : Nat} {world : Nat → Surroundings} {m : ConnManager},
    m.Sound → m.Live id → (m.processFrom W id fuel world).Sound := by
  intro fuel
  induction fuel with
  | zero => exact fun sound _ => sound
  | succ fuel ih =>
      intro world m sound live
      rw [processFrom]
      dsimp only
      split
      · exact sound
      split
      · exact ((Releases.addMisbehavior _).trans .disconnectNode).sound sound
      split
      · exact sound
      split
      · split
        · exact ((Releases.addMisbehavior _).trans .disconnectNode).sound sound
        · exact (Releases.addMisbehavior _).sound sound
      · rename_i msg _
        set taken := m.modify id fun p =>
          { p with node := { p.node with recvBuffer := _ } } with taken_def
        have releases : Releases m taken := .modify fun _ => rfl
        have taken_sound := releases.sound sound
        have taken_live : taken.Live id :=
          ⟨live.1, by rw [taken_def, nodes_modify_self]; exact live.2⟩
        have handled : (taken.handleMessage W (world 0) id msg).Sound :=
          handleMessage_sound taken_sound taken_live
        split
        · rename_i connected
          exact ih handled ⟨handled.listed id connected, connected⟩
        · exact handled

/-- From a peer that is gone one message is handled at most. -/
theorem processFrom_late {fuel : Nat} {world : Nat → Surroundings}
    (gone : (m.nodes id).node.connected = false)
    (superfluous : ∀ msg, NetMessage.deserialize W.networkMagic ((m.nodes id).node.recvBuffer.take
      (kHeader + (NetMessage.payloadSize (m.nodes id).node.recvBuffer).toNat)) = some msg →
      kHeader + (NetMessage.payloadSize (m.nodes id).node.recvBuffer).toNat ≤
        (m.nodes id).node.recvBuffer.length → msg.type = 7 →
      Superfluous (world 0) 0 (invItems msg) m.mBlocksInFlight m.mTxInFlight) :
    Releases m (m.processFrom W id (fuel + 1) world) := by
  rw [processFrom]
  dsimp only
  split
  · exact .refl m
  split
  · exact (Releases.addMisbehavior _).trans .disconnectNode
  split
  · exact .refl m
  rename_i whole
  split
  · split
    · exact (Releases.addMisbehavior _).trans .disconnectNode
    · exact .addMisbehavior _
  · rename_i msg read
    set taken := m.modify id fun p =>
      { p with node := { p.node with recvBuffer := _ } } with taken_def
    have releases : Releases m taken := .modify fun _ => rfl
    have handled : Releases taken (taken.handleMessage W (world 0) id msg) := by
      by_cases inventory : msg.type = 7
      · rw [handleMessage, inventory]
        rcases @handleInv_cases taken id (world 0) msg with only | items
        · exact only
        · change Releases taken (taken.handleInv (world 0) id msg)
          rw [items]
          exact handleItems_releases (superfluous msg read (not_lt.mp whole) inventory)
      · exact releases_handleMessage inventory
    have both := releases.trans handled
    rw [if_neg]
    · exact both
    · intro connected
      have before := both.connected id connected
      rw [gone] at before
      cases before

/-- A read that asks no more of a peer that is gone. -/
def Timely (W : Wire) (m : ConnManager) : NetOp → Prop
  | .handleRead id bytes world => (m.nodes id).node.connected = false →
      ∀ msg ∈ m.firstMessage W id bytes, msg.type = 7 →
        Superfluous (world 0) 0 (invItems msg) m.mBlocksInFlight m.mTxInFlight
  | _ => True

theorem handleRead_sound {bytes : List UInt8} {world : Nat → Surroundings} (sound : m.Sound)
    (timely : Timely W m (.handleRead id bytes world)) :
    (m.handleRead W id bytes world).Sound := by
  unfold handleRead
  split
  · exact sound
  rename_i some'
  dsimp only
  set read := m.modify id fun p => { p with node := { p.node with
    recvBuffer := (m.nodes id).node.recvBuffer ++ bytes
    bytesRecv := p.node.bytesRecv + bytes.length } } with read_def
  have releases : Releases m read := .modify fun _ => rfl
  have buffer : (read.nodes id).node.recvBuffer = (m.nodes id).node.recvBuffer ++ bytes := by
    rw [read_def, nodes_modify_self]
  have connected : (read.nodes id).node.connected = (m.nodes id).node.connected := by
    rw [read_def, nodes_modify_self]
  split
  · exact ((releases.trans (.addMisbehavior _)).trans .disconnectNode).sound sound
  rename_i short
  by_cases live : (m.nodes id).node.connected = true
  · exact processFrom_sound (releases.sound sound)
      ⟨sound.listed id live, connected.trans live⟩
  · have gone := Bool.eq_false_iff.mpr live
    refine (releases.trans (processFrom_late (connected.trans gone) ?_)).sound sound
    rw [buffer]
    intro msg first whole inventory
    refine timely gone msg ?_ inventory
    rw [firstMessage, if_neg (by simp only [not_or]; exact ⟨some', short, not_lt.mpr whole⟩)]
    exact first

theorem step_sound {op : NetOp} (sound : m.Sound) (timely : Timely W m op) :
    (step W m op).Sound := by
  cases op with
  | connect =>
      have live {peer : NodeId} (before : m.Live peer) : m.connect.Live peer := by
        refine ⟨Finset.mem_insert_of_mem before.1, ?_⟩
        by_cases new : peer = m.mNextNodeId
        · subst new
          simp [connect]
        · simpa [connect, new] using before.2
      exact {
        listed := fun peer connected => by
          by_cases new : peer = m.mNextNodeId
          · subst new
            exact Finset.mem_insert_self ..
          · refine Finset.mem_insert_of_mem (sound.listed peer ?_)
            simpa [step, connect, new] using connected
        blocks := fun hash e found => live (sound.blocks hash e found)
        txs := fun hash e found => live (sound.txs hash e found)
        blocksPerPeer := sound.blocksPerPeer
        txsPerPeer := sound.txsPerPeer
        window := sound.window }
  | handleRead id bytes world =>
      rw [step]
      split
      · exact handleRead_sound sound timely
      · exact sound
  | disconnectNode id => exact Releases.disconnectNode.sound sound
  | checkDownloadProgress now => exact (releases_checkDownloadProgress now).sound sound

/-- Every read of the run is timely. -/
def AllTimely (W : Wire) (ops : List NetOp) : Prop := Run.Meets (step W) (Timely W) ops new

theorem run_sound {ops : List NetOp} (timely : AllTimely W ops) : (run W ops).Sound :=
  timely.invariant (fun _ _ => step_sound) sound_new

/-- **Every download is with a peer that is there.** In a run whose late reads
bring no inventory with anything to ask for, every request is with a peer that
is connected and listed, every hash is asked of one peer, and the limits hold. -/
theorem downloads_held {ops : List NetOp} (timely : AllTimely W ops) :
    let m := run W ops
    (∀ t ∈ [m.mBlocksInFlight, m.mTxInFlight], ∀ hash e, t.lookup hash = some e →
      e.peer ∈ m.mNodes ∧ (m.nodes e.peer).node.connected = true) ∧
    (∀ t ∈ [m.mBlocksInFlight, m.mTxInFlight], t.keys.Nodup) ∧
    (∀ id, m.mBlocksInFlight.heldBy id ≤ maxBlocksInFlightPerPeer ∧
      m.mTxInFlight.heldBy id ≤ maxTxInFlightPerPeer) ∧
    m.mBlocksInFlight.entries.length ≤ blockDownloadWindow := by
  have sound := run_sound timely
  refine ⟨?_, fun t _ => t.keys_nodup,
    fun id => ⟨sound.blocksPerPeer id, sound.txsPerPeer id⟩, sound.window _ rfl⟩
  intro t mem hash e found
  simp only [List.mem_cons, List.not_mem_nil, or_false] at mem
  rcases mem with rfl | rfl
  · exact sound.blocks hash e found
  · exact sound.txs hash e found

/-! ### A late read -/

private def wire : Wire := ⟨0, 0, 600, fun _ => none, fun _ => none⟩

private def unknowing : Surroundings :=
  ⟨fun _ => 0, fun _ _ => false, fun _ _ => false, false, [], false⟩

/-- One block is announced. -/
private def announcement : List UInt8 :=
  (NetMessage.mk 0 7 (writeLE32 1 ++ 2 :: Bytes32.toBytes 7)).serialize

theorem downloads_held_announcement :
    let m := run wire [.connect, .handleRead 1 announcement fun _ => unknowing]
    m.mBlocksInFlight.lookup 7 = some ⟨1, 0⟩ ∧
      ∀ t ∈ [m.mBlocksInFlight, m.mTxInFlight], ∀ hash e, t.lookup hash = some e →
        e.peer ∈ m.mNodes ∧ (m.nodes e.peer).node.connected = true := by
  have live : ((run wire [.connect]).nodes 1).node.connected = true := rfl
  have timely : AllTimely wire [.connect, .handleRead 1 announcement fun _ => unknowing] := by
    refine ⟨trivial, fun gone => ?_, trivial⟩
    cases live.symm.trans gone
  exact ⟨by decide +kernel, (downloads_held timely).1⟩

/-- The peer is disconnected while its announcement waits to be read: the block
is asked of it, and no one else will be asked. -/
theorem late_read_assigns :
    ¬ ∀ (W : Wire) (ops : List NetOp) (hash : Bytes32) (e : InFlightEntry),
      (run W ops).mBlocksInFlight.lookup hash = some e →
        e.peer ∈ (run W ops).mNodes ∧
          ((run W ops).nodes e.peer).node.connected = true := by
  intro held
  have asked : (run wire [.connect, .disconnectNode 1,
      .handleRead 1 announcement fun _ => unknowing]).mBlocksInFlight.lookup 7 = some ⟨1, 0⟩ := by
    decide +kernel
  have gone : 1 ∉ (run wire [.connect, .disconnectNode 1,
      .handleRead 1 announcement fun _ => unknowing]).mNodes := by
    decide +kernel
  exact gone (held _ _ _ _ asked).1

end ConnManager

end QmaskCore
