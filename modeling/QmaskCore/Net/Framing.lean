import QmaskCore.Primitives.Bytes

/-!
How `ConnManager` cuts the stream of a peer into messages.

`Conn.handleRead` is one read, `Conn.receive` a sequence of them. As long as
the buffer stays within its limit a read takes out the messages that are whole
and leaves the bytes of the one in progress (`processFrom_spec`).
`receive_delivers_iff` says for which ways of cutting a stream of well-formed
messages all of them are delivered.
-/

namespace QmaskCore

/-- `MAX_PROTOCOL_MSG_SIZE`. -/
def maxProtocolMsgSize : UInt32 := 8 * 1024 * 1024

/-- `READ_CHUNK_SIZE`. -/
def readChunkSize : Nat := 64 * 1024

/-- The bytes before the payload. -/
def kHeader : Nat := 9

structure NetMessage where
  magic : UInt32
  /-- `MsgType`, cast from any byte. -/
  type : UInt8
  payload : List UInt8
deriving DecidableEq

namespace NetMessage

def serialize (msg : NetMessage) : List UInt8 :=
  writeLE32 msg.magic ++ ([msg.type] ++ (writeLE32 (UInt32.ofNat msg.payload.length) ++ msg.payload))

/-- The size a header declares. -/
def payloadSize (data : List UInt8) : UInt32 := readLE32 (data.drop 5)

def deserialize (networkMagic : UInt32) (data : List UInt8) : Option NetMessage :=
  if data.length < kHeader then none
  else if readLE32 data ≠ networkMagic then none
  else if maxProtocolMsgSize < payloadSize data then none
  else if data.length < kHeader + (payloadSize data).toNat then none
  else some ⟨networkMagic, data.getD 4 0, (data.drop kHeader).take (payloadSize data).toNat⟩

/-- Of the network, with a payload that is not too long. -/
structure WellFormed (networkMagic : UInt32) (msg : NetMessage) : Prop where
  magic : msg.magic = networkMagic
  size : msg.payload.length ≤ maxProtocolMsgSize.toNat

theorem length_serialize (msg : NetMessage) :
    msg.serialize.length = kHeader + msg.payload.length := by
  simp only [serialize, List.length_append, List.length_singleton, length_writeLE32, kHeader]
  omega

variable {networkMagic : UInt32} {msg : NetMessage}

/-- The header of a message declares the size of its payload. -/
theorem payloadSize_serialize (wf : msg.WellFormed networkMagic) (rest : List UInt8) :
    payloadSize (msg.serialize ++ rest) = UInt32.ofNat msg.payload.length ∧
      (UInt32.ofNat msg.payload.length).toNat = msg.payload.length := by
  constructor
  · have header : (writeLE32 msg.magic ++ [msg.type]).length = 5 := by simp
    have cut : msg.serialize ++ rest = (writeLE32 msg.magic ++ [msg.type]) ++
        (writeLE32 (UInt32.ofNat msg.payload.length) ++ (msg.payload ++ rest)) := by
      simp [serialize]
    rw [payloadSize, cut, List.drop_left' header, readLE32_writeLE32]
  · refine UInt32.toNat_ofNat_of_lt' (wf.size.trans_lt ?_)
    decide

/-- A whole header declares the same size whatever follows it. -/
theorem payloadSize_append {data : List UInt8} (header : kHeader ≤ data.length)
    (rest : List UInt8) : payloadSize (data ++ rest) = payloadSize data := by
  unfold kHeader at header
  rw [payloadSize, payloadSize, List.drop_append_of_le_length (by omega), readLE32, readLE32,
    List.take_append_of_le_length (by rw [List.length_drop]; omega)]

theorem deserialize_serialize (wf : msg.WellFormed networkMagic) :
    deserialize networkMagic msg.serialize = some msg := by
  obtain ⟨declared, exact⟩ := payloadSize_serialize wf []
  rw [List.append_nil] at declared
  have first : readLE32 msg.serialize = networkMagic := by
    rw [serialize, readLE32_writeLE32, wf.magic]
  have small : ¬ maxProtocolMsgSize < UInt32.ofNat msg.payload.length := by
    rw [UInt32.lt_iff_toNat_lt, exact]
    exact not_lt.mpr wf.size
  have type : msg.serialize.getD 4 0 = msg.type := by
    rw [serialize, List.getD_eq_getElem?_getD, List.getElem?_append_right (by simp)]
    simp
  have body : msg.serialize.drop kHeader = msg.payload := by
    have header : (writeLE32 msg.magic ++ ([msg.type] ++
        writeLE32 (UInt32.ofNat msg.payload.length))).length = kHeader := by simp [kHeader]
    have cut : msg.serialize = (writeLE32 msg.magic ++ ([msg.type] ++
        writeLE32 (UInt32.ofNat msg.payload.length))) ++ msg.payload := by simp [serialize]
    rw [cut, List.drop_left' header]
  unfold deserialize
  rw [length_serialize, if_neg (by omega), if_neg (not_not.mpr first), declared, if_neg small, exact,
    if_neg (by omega), type, body, List.take_length, ← wf.magic]

end NetMessage

/-! ### Reading -/

structure Node where
  recvBuffer : List UInt8
  bytesRecv : Nat
  misbehavior : Int
  connected : Bool
deriving DecidableEq

namespace Node

def addMisbehavior (score : Int) (node : Node) : Node :=
  { node with misbehavior := node.misbehavior + score }

def isBanned (node : Node) : Bool := 100 ≤ node.misbehavior

/-- `DisconnectNode`, as far as the node shows it. -/
def disconnect (node : Node) : Node := { node with connected := false }

end Node

/-- A peer, with the messages `HandleMessage` was called with and the penalties
for what the stream is like. -/
structure Conn where
  node : Node
  handled : List NetMessage
  penalties : List Int
deriving DecidableEq

namespace Conn

def penalise (score : Int) (c : Conn) : Conn :=
  { c with node := c.node.addMisbehavior score, penalties := c.penalties ++ [score] }

def disconnect (c : Conn) : Conn := { c with node := c.node.disconnect }

section

variable (networkMagic : UInt32) (handleMessage : NetMessage → Node → Node)

def handle (msg : NetMessage) (c : Conn) : Conn :=
  { c with node := handleMessage msg c.node, handled := c.handled ++ [msg] }

/-- The loop of `HandleRead`; every turn but the last takes bytes out of the buffer. -/
def processFrom : Nat → Conn → Conn
  | 0, c => c
  | fuel + 1, c =>
      if c.node.recvBuffer.length < kHeader then c
      else
        let payloadSize := NetMessage.payloadSize c.node.recvBuffer
        if maxProtocolMsgSize < payloadSize then (c.penalise 20).disconnect
        else
          let total := kHeader + payloadSize.toNat
          if c.node.recvBuffer.length < total then c
          else
            match NetMessage.deserialize networkMagic (c.node.recvBuffer.take total) with
            | none =>
                let c := c.penalise 10
                if c.node.isBanned then c.disconnect else c
            | some msg =>
                let rest := c.node.recvBuffer.drop total
                let c := handle handleMessage msg { c with node := { c.node with recvBuffer := rest } }
                if c.node.connected then processFrom fuel c else c

def handleRead (bytes : List UInt8) (c : Conn) : Conn :=
  if bytes = [] then c
  else
    let recvBuffer := c.node.recvBuffer ++ bytes
    let c := { c with node := { c.node with
      recvBuffer := recvBuffer
      bytesRecv := c.node.bytesRecv + bytes.length } }
    if maxProtocolMsgSize.toNat + kHeader < recvBuffer.length then (c.penalise 20).disconnect
    else processFrom networkMagic handleMessage (recvBuffer.length + 1) c

/-- Reads go on as long as the peer is connected. -/
def receive (reads : List (List UInt8)) (c : Conn) : Conn :=
  reads.foldl
    (fun c bytes => if c.node.connected then handleRead networkMagic handleMessage bytes c else c) c

end

/-! ### A stream of messages -/

/-- The bytes of some messages. -/
def stream (msgs : List NetMessage) : List UInt8 := msgs.flatMap (·.serialize)

theorem stream_append (msgs msgs' : List NetMessage) :
    stream (msgs ++ msgs') = stream msgs ++ stream msgs' := List.flatMap_append

/-- `tail` is less than the first of the messages. -/
def InProgress (tail : List UInt8) (msgs : List NetMessage) : Prop :=
  ∀ msg ∈ msgs.head?, tail.length < msg.serialize.length

/-- A handler does not disconnect and leaves the buffer alone. -/
structure Keeps (handleMessage : NetMessage → Node → Node) : Prop where
  connected : ∀ msg node, (handleMessage msg node).connected = node.connected
  recvBuffer : ∀ msg node, (handleMessage msg node).recvBuffer = node.recvBuffer

variable {networkMagic : UInt32} {handleMessage : NetMessage → Node → Node}

/-- A message in front of the buffer is handed over. -/
theorem processFrom_whole (keeps : Keeps handleMessage) {msg : NetMessage}
    (wf : msg.WellFormed networkMagic) {rest : List UInt8} {c : Conn}
    (front : c.node.recvBuffer = msg.serialize ++ rest) (live : c.node.connected = true)
    (fuel : Nat) : processFrom networkMagic handleMessage (fuel + 1) c =
      processFrom networkMagic handleMessage fuel
        (handle handleMessage msg { c with node := { c.node with recvBuffer := rest } }) := by
  obtain ⟨declared, exact⟩ := NetMessage.payloadSize_serialize wf rest
  have size := wf.size
  have long := msg.length_serialize
  rw [processFrom, front, declared]
  dsimp only
  rw [if_neg (by rw [List.length_append]; omega),
    if_neg (by rw [UInt32.lt_iff_toNat_lt, exact]; omega), exact,
    if_neg (by rw [List.length_append]; omega), List.take_left' long,
    NetMessage.deserialize_serialize wf, List.drop_left' long]
  dsimp only
  rw [if_pos]
  exact (keeps.connected msg _).trans live

/-- A message in progress is left in the buffer. -/
theorem processFrom_inProgress {msg : NetMessage} (wf : msg.WellFormed networkMagic)
    {rest : List UInt8} {c : Conn} (front : c.node.recvBuffer ++ rest = msg.serialize)
    (less : c.node.recvBuffer.length < msg.serialize.length) (fuel : Nat) :
    processFrom networkMagic handleMessage fuel c = c := by
  cases fuel with
  | zero => rfl
  | succ fuel =>
      rw [processFrom]
      split
      · rfl
      · rename_i header
        have declared : NetMessage.payloadSize c.node.recvBuffer =
            UInt32.ofNat msg.payload.length := by
          rw [← (NetMessage.payloadSize_serialize wf []).1, List.append_nil, ← front,
            NetMessage.payloadSize_append (not_lt.mp header)]
        have exact := (NetMessage.payloadSize_serialize wf []).2
        have size := wf.size
        have long := msg.length_serialize
        dsimp only
        rw [declared, if_neg (by rw [UInt32.lt_iff_toNat_lt, exact]; omega), exact,
          if_pos (by omega)]

/-- **One read.** The messages that are whole are handed over, in order, and the
bytes of the next stay. -/
theorem processFrom_spec (keeps : Keeps handleMessage) : ∀ {msgs : List NetMessage} {c : Conn}
    {coming : List UInt8} {fuel : Nat}, (∀ msg ∈ msgs, msg.WellFormed networkMagic) →
    c.node.connected = true → c.node.recvBuffer ++ coming = stream msgs →
    c.node.recvBuffer.length < fuel →
    ∃ whole next, msgs = whole ++ next ∧
      let c' := processFrom networkMagic handleMessage fuel c
      c.node.recvBuffer = stream whole ++ c'.node.recvBuffer ∧ InProgress c'.node.recvBuffer next ∧
        c'.handled = c.handled ++ whole ∧ c'.penalties = c.penalties ∧ c'.node.connected = true := by
  intro msgs
  induction msgs with
  | nil =>
      intro c coming fuel _ live bytes enough
      obtain ⟨fuel, rfl⟩ := Nat.exists_eq_add_one_of_ne_zero (Nat.ne_zero_of_lt enough)
      have empty := (List.append_eq_nil_iff.mp bytes).1
      rw [processFrom, if_pos (by rw [empty]; decide)]
      exact ⟨[], [], rfl, rfl, fun msg mem => (nomatch mem), (List.append_nil _).symm, rfl, live⟩
  | cons msg msgs ih =>
      intro c coming fuel wf live bytes enough
      have first := wf msg List.mem_cons_self
      by_cases whole : msg.serialize.length ≤ c.node.recvBuffer.length
      · obtain ⟨fuel, rfl⟩ := Nat.exists_eq_add_one_of_ne_zero (Nat.ne_zero_of_lt enough)
        obtain ⟨rest, front⟩ : msg.serialize <+: c.node.recvBuffer :=
          List.prefix_of_prefix_length_le (List.prefix_append _ _) ⟨_, bytes⟩ whole
        rw [processFrom_whole keeps first front.symm live]
        have connected : (handle handleMessage msg
            { c with node := { c.node with recvBuffer := rest } }).node.connected = true :=
          (keeps.connected msg _).trans live
        have later : rest ++ coming = stream msgs := by
          rw [← front, stream, List.flatMap_cons, List.append_assoc] at bytes
          exact List.append_cancel_left bytes
        have buffer : (handle handleMessage msg
            { c with node := { c.node with recvBuffer := rest } }).node.recvBuffer = rest :=
          keeps.recvBuffer msg _
        have fewer : rest.length < fuel := by
          have lengths := congrArg List.length front
          rw [List.length_append, NetMessage.length_serialize, kHeader] at lengths
          omega
        obtain ⟨done, next, rfl, tail, progress, handled, clean, connected⟩ := ih
          (fun m mem => wf m (List.mem_cons_of_mem _ mem)) connected (buffer.symm ▸ later) (buffer.symm ▸ fewer)
        refine ⟨msg :: done, next, rfl, ?_, progress, ?_, clean, connected⟩
        · rw [← front, stream, List.flatMap_cons, List.append_assoc, ← stream, ← tail, buffer]
        · rw [handled]
          simp [handle]
      · have less := not_le.mp whole
        obtain ⟨rest, front⟩ : c.node.recvBuffer <+: msg.serialize :=
          List.prefix_of_prefix_length_le ⟨_, bytes⟩ (List.prefix_append _ _) less.le
        rw [processFrom_inProgress first front less]
        refine ⟨[], msg :: msgs, rfl, by simp [stream], ?_, by simp, rfl, live⟩
        intro m mem
        rw [← Option.some.inj mem]
        exact less

/-- How many of the bytes received so far belong to a message in progress. -/
def pending : List Nat → Nat → Nat
  | [], received => received
  | length :: lengths, received =>
      if length ≤ received then pending lengths (received - length) else received

/-- The lengths of some messages on the wire. -/
abbrev lengths (msgs : List NetMessage) : List Nat := msgs.map (·.serialize.length)

theorem pending_inProgress {tail : List UInt8} {msgs : List NetMessage}
    (progress : InProgress tail msgs) : pending (lengths msgs) tail.length = tail.length := by
  cases msgs with
  | nil => rfl
  | cons msg msgs => exact if_neg (not_le.mpr (progress msg rfl))

/-- At each read the message in progress and what is read fit into the buffer;
`received` bytes came before. -/
def Fits (msgs : List NetMessage) (received : Nat) (reads : List (List UInt8)) : Prop :=
  ∀ before bytes after, reads = before ++ bytes :: after →
    pending (lengths msgs) (received + before.flatten.length) + bytes.length ≤
      maxProtocolMsgSize.toNat + kHeader

theorem fits_cons {msgs : List NetMessage} {received : Nat} {bytes : List UInt8}
    {reads : List (List UInt8)} : Fits msgs received (bytes :: reads) ↔
      pending (lengths msgs) received + bytes.length ≤ maxProtocolMsgSize.toNat + kHeader ∧
        Fits msgs (received + bytes.length) reads := by
  constructor
  · intro all
    constructor
    · have here := all [] bytes reads rfl
      rwa [List.flatten_nil, List.length_nil, Nat.add_zero] at here
    · intro before b after cut
      have here := all (bytes :: before) b after (by rw [cut, List.cons_append])
      rwa [List.flatten_cons, List.length_append, ← Nat.add_assoc] at here
  · rintro ⟨here, later⟩ before b after cut
    cases before with
    | nil =>
        cases cut
        rwa [List.flatten_nil, List.length_nil, Nat.add_zero]
    | cons x before =>
        cases cut
        rw [List.flatten_cons, List.length_append, ← Nat.add_assoc]
        exact later before b after rfl

/-- Whole messages are not pending. -/
theorem pending_append (next : List NetMessage) (received : Nat) : ∀ whole : List NetMessage,
    pending (lengths (whole ++ next)) ((stream whole).length + received) =
      pending (lengths next) received := by
  intro whole
  induction whole with
  | nil => simp [stream]
  | cons msg whole ih =>
      rw [stream, List.flatMap_cons, List.length_append, ← stream, List.cons_append, lengths,
        List.map_cons, pending, if_pos (by omega), ← ih]
      congr 1
      omega

theorem receive_disconnected : ∀ (reads : List (List UInt8)) {c : Conn},
    c.node.connected = false → receive networkMagic handleMessage reads c = c := by
  intro reads
  induction reads with
  | nil => exact fun _ => rfl
  | cons bytes reads ih =>
      intro c gone
      have step : receive networkMagic handleMessage (bytes :: reads) c =
          receive networkMagic handleMessage reads c := by
        rw [receive, List.foldl_cons, if_neg (by simp [gone]), ← receive]
      rw [step, ih gone]

/-- A message is never longer than the buffer may get. -/
theorem length_le_of_inProgress {tail : List UInt8} {msgs : List NetMessage} {coming : List UInt8}
    (wf : ∀ msg ∈ msgs, msg.WellFormed networkMagic) (progress : InProgress tail msgs)
    (bytes : tail ++ coming = stream msgs) :
    tail.length ≤ maxProtocolMsgSize.toNat + kHeader := by
  cases msgs with
  | nil =>
      rw [(List.append_eq_nil_iff.mp bytes).1]
      exact Nat.zero_le _
  | cons msg msgs =>
      have less := progress msg rfl
      have size := (wf msg List.mem_cons_self).size
      rw [NetMessage.length_serialize] at less
      omega

/-- **The reads of a stream.** From a state in which the buffer holds the
message in progress: the rest is delivered, in order, each message once, the
peer stays connected and is not penalised, exactly when every read fits. -/
theorem receive_spec (keeps : Keeps handleMessage) : ∀ {reads : List (List UInt8)}
    {msgs : List NetMessage} {c : Conn}, (∀ msg ∈ msgs, msg.WellFormed networkMagic) →
    c.node.connected = true → c.node.recvBuffer ++ reads.flatten = stream msgs →
    InProgress c.node.recvBuffer msgs →
    let c' := receive networkMagic handleMessage reads c
    (c'.handled = c.handled ++ msgs ∧ c'.node.connected = true ∧ c'.penalties = c.penalties) ↔
      Fits msgs c.node.recvBuffer.length reads := by
  intro reads
  induction reads with
  | nil =>
      intro msgs c wf live bytes progress
      rw [List.flatten_nil, List.append_nil] at bytes
      obtain rfl : msgs = [] := by
        cases msgs with
        | nil => rfl
        | cons msg msgs =>
            have less := progress msg rfl
            rw [bytes, stream, List.flatMap_cons, List.length_append] at less
            omega
      refine iff_of_true ⟨(List.append_nil _).symm, live, rfl⟩ ?_
      intro before bytes after split
      simp at split
  | cons bytes reads ih =>
      intro msgs c wf live whole progress
      have start : receive networkMagic handleMessage (bytes :: reads) c =
          receive networkMagic handleMessage reads (handleRead networkMagic handleMessage bytes c) := by
        rw [receive, List.foldl_cons, if_pos live, ← receive]
      have short := length_le_of_inProgress wf progress whole
      dsimp only
      rw [fits_cons, pending_inProgress progress, start]
      by_cases empty : bytes = []
      · subst empty
        rw [handleRead, if_pos rfl, List.length_nil, Nat.add_zero, and_iff_right short]
        exact ih wf live whole progress
      rw [handleRead, if_neg empty]
      dsimp only
      by_cases fits : c.node.recvBuffer.length + bytes.length ≤ maxProtocolMsgSize.toNat + kHeader
      · rw [if_neg (by rw [List.length_append]; omega), and_iff_right fits]
        rw [List.flatten_cons, ← List.append_assoc] at whole
        obtain ⟨done, next, rfl, tail, progress, handled, clean, connected⟩ := processFrom_spec keeps
          (c := { c with node := { c.node with
            recvBuffer := c.node.recvBuffer ++ bytes
            bytesRecv := c.node.bytesRecv + bytes.length } }) wf live whole (Nat.lt_succ_self _)
        generalize processFrom networkMagic handleMessage _ _ = c' at tail progress handled clean connected ⊢
        dsimp only at tail handled clean
        have later : c'.node.recvBuffer ++ reads.flatten = stream next := by
          rw [tail, stream_append, List.append_assoc] at whole
          exact List.append_cancel_left whole
        have rest := ih (fun m mem => wf m (List.mem_append_right _ mem)) connected later progress
        dsimp only at rest
        rw [handled, clean, List.append_assoc] at rest
        rw [rest]
        have lengths' := congrArg List.length tail
        rw [List.length_append, List.length_append] at lengths'
        simp only [Fits, lengths', Nat.add_assoc, pending_append]
      · rw [if_pos (by rw [List.length_append]; omega), receive_disconnected _ rfl]
        exact iff_of_false (fun h => nomatch h.2.1) fun h => fits h.1

/-- From a fresh connection. -/
theorem receive_fresh (keeps : Keeps handleMessage) {msgs : List NetMessage}
    {reads : List (List UInt8)} {node : Node} (wf : ∀ msg ∈ msgs, msg.WellFormed networkMagic)
    (cut : reads.flatten = stream msgs) (live : node.connected = true)
    (fresh : node.recvBuffer = []) :
    let c := receive networkMagic handleMessage reads ⟨node, [], []⟩
    (c.handled = msgs ∧ c.node.connected = true ∧ c.penalties = []) ↔ Fits msgs 0 reads := by
  have spec := @receive_spec _ _ keeps reads msgs ⟨node, [], []⟩ wf live
    (by rw [fresh, List.nil_append, cut]) (by
      intro msg mem
      rw [fresh, List.length_nil, NetMessage.length_serialize, kHeader]
      omega)
  dsimp only at spec
  rwa [fresh, List.nil_append] at spec

end Conn

/-- **Framing.** A stream of well-formed messages, cut into reads in any way,
is delivered message by message without a penalty or a disconnect exactly when
at each read the bytes of the message in progress and those read are no more
than one message can have. -/
theorem receive_delivers_iff {networkMagic : UInt32} {handleMessage : NetMessage → Node → Node}
    (keeps : Conn.Keeps handleMessage) {msgs : List NetMessage} {reads : List (List UInt8)}
    {node : Node} (wf : ∀ msg ∈ msgs, msg.WellFormed networkMagic)
    (cut : reads.flatten = Conn.stream msgs) (live : node.connected = true)
    (fresh : node.recvBuffer = []) :
    let c := Conn.receive networkMagic handleMessage reads ⟨node, [], []⟩
    (c.handled = msgs ∧ c.node.connected = true ∧ c.penalties = []) ↔ Conn.Fits msgs 0 reads :=
  Conn.receive_fresh keeps wf cut live fresh

/-- Two messages without a payload, each read on its own. -/
theorem receive_delivers_two :
    let verack : NetMessage := ⟨0, 2, []⟩
    let reads := [verack.serialize, verack.serialize]
    let c := Conn.receive 0 (fun _ node => node) reads ⟨⟨[], 0, 0, true⟩, [], []⟩
    (c.handled = [verack, verack] ∧ c.node.connected = true ∧ c.penalties = []) ↔
      Conn.Fits [verack, verack] 0 reads := by
  refine receive_delivers_iff ⟨fun _ _ => rfl, fun _ _ => rfl⟩ ?_ (by decide) rfl rfl
  intro msg mem
  have same : msg = ⟨0, 2, []⟩ := by simpa using mem
  subst same
  exact ⟨rfl, Nat.zero_le _⟩

/-! ### A message of full length -/

namespace FullMessage

variable {blocks chunk : Nat}

/-- A block message whose payload is `blocks + 1` chunks. -/
def full (blocks chunk : Nat) : NetMessage := ⟨0, 9, List.replicate (blocks * chunk + chunk) 0⟩

def verack : NetMessage := ⟨0, 2, []⟩

/-- What `full` is read in before its last byte. -/
def before (blocks chunk : Nat) : List (List UInt8) :=
  [writeLE32 0 ++ ([9] ++ writeLE32 (UInt32.ofNat (blocks * chunk + chunk)))] ++
    (List.replicate blocks (List.replicate chunk 0) ++ [List.replicate (chunk - 1) 0])

/-- The last byte of `full` comes with the message after it. -/
def reads (blocks chunk : Nat) : List (List UInt8) :=
  before blocks chunk ++ [0 :: verack.serialize]

theorem wellFormed (size : blocks * chunk + chunk = maxProtocolMsgSize.toNat) :
    ∀ msg ∈ [full blocks chunk, verack], msg.WellFormed 0 := by
  intro msg mem
  rcases List.mem_cons.mp mem with rfl | mem
  · refine ⟨rfl, ?_⟩
    rw [full, List.length_replicate]
    exact size.le
  · obtain rfl := List.mem_singleton.mp mem
    exact ⟨rfl, Nat.zero_le _⟩

theorem flatten_before : (before blocks chunk).flatten =
    (writeLE32 0 ++ ([9] ++ writeLE32 (UInt32.ofNat (blocks * chunk + chunk)))) ++
      List.replicate (blocks * chunk + (chunk - 1)) 0 := by
  rw [before, List.flatten_append, List.flatten_append, List.flatten_replicate_replicate,
    List.flatten_singleton, List.flatten_singleton, List.replicate_append_replicate]

theorem flatten_reads (nonempty : 0 < chunk) :
    (reads blocks chunk).flatten = Conn.stream [full blocks chunk, verack] := by
  have last : List.replicate (blocks * chunk + (chunk - 1)) (0 : UInt8) ++ [0] =
      List.replicate (blocks * chunk + chunk) 0 := by
    rw [← List.replicate_succ']
    congr 1
    omega
  have body : (full blocks chunk).serialize =
      (writeLE32 0 ++ ([9] ++ writeLE32 (UInt32.ofNat (blocks * chunk + chunk)))) ++
        (List.replicate (blocks * chunk + (chunk - 1)) 0 ++ [0]) := by
    rw [last, full, NetMessage.serialize, List.length_replicate, List.append_assoc, List.append_assoc]
  rw [reads, List.flatten_append, List.flatten_singleton, flatten_before, Conn.stream,
    List.flatMap_cons, List.flatMap_singleton, body]
  simp only [List.append_assoc, List.singleton_append]

theorem length_reads (nonempty : 0 < chunk) (small : chunk ≤ readChunkSize) :
    ∀ bytes ∈ reads blocks chunk, bytes.length ≤ readChunkSize := by
  intro bytes mem
  rw [reads, before, List.append_assoc, List.append_assoc] at mem
  rcases List.mem_append.mp mem with mem | mem
  · rw [List.mem_singleton.mp mem]
    simp [readChunkSize]
  rcases List.mem_append.mp mem with mem | mem
  · rw [(List.mem_replicate.mp mem).2, List.length_replicate]
    exact small
  rcases List.mem_append.mp mem with mem | mem
  · rw [List.mem_singleton.mp mem, List.length_replicate]
    omega
  · rw [List.mem_singleton.mp mem]
    decide

/-- The last read does not fit. -/
theorem not_fits_reads (nonempty : 0 < chunk)
    (size : blocks * chunk + chunk = maxProtocolMsgSize.toNat) :
    ¬ Conn.Fits [full blocks chunk, verack] 0 (reads blocks chunk) := by
  intro fits
  have last := fits (before blocks chunk) (0 :: verack.serialize) [] rfl
  have received : (before blocks chunk).flatten.length = blocks * chunk + chunk + 8 := by
    rw [flatten_before, List.length_append, List.length_append, List.length_append,
      List.length_replicate, length_writeLE32, length_writeLE32, List.length_singleton]
    omega
  have long : (full blocks chunk).serialize.length = blocks * chunk + chunk + 9 := by
    rw [NetMessage.length_serialize, full, List.length_replicate, kHeader, Nat.add_comm]
  have tail : (0 :: verack.serialize).length = 10 := by decide
  rw [received, tail, Nat.zero_add, Conn.lengths, List.map_cons, Conn.pending, long,
    if_neg (by omega), kHeader] at last
  omega

theorem not_delivered (nonempty : 0 < chunk)
    (size : blocks * chunk + chunk = maxProtocolMsgSize.toNat) :
    let c := Conn.receive 0 (fun _ node => node) (reads blocks chunk) ⟨⟨[], 0, 0, true⟩, [], []⟩
    ¬ (c.handled = [full blocks chunk, verack] ∧ c.node.connected = true ∧ c.penalties = []) := by
  have keeps : Conn.Keeps fun _ node => node := ⟨fun _ _ => rfl, fun _ _ => rfl⟩
  have fits := Conn.receive_fresh keeps (wellFormed size) (flatten_reads nonempty)
    (rfl : (⟨[], 0, 0, true⟩ : Node).connected = true) rfl
  exact fun delivered => not_fits_reads nonempty size (fits.mp delivered)

end FullMessage

/-- A message of full length whose last byte comes with the next message: the
peer is not delivered both messages, or disconnected, or penalised. -/
theorem full_message_disconnects :
    (∀ msg ∈ [FullMessage.full 127 readChunkSize, FullMessage.verack], msg.WellFormed 0) ∧
      (FullMessage.reads 127 readChunkSize).flatten =
        Conn.stream [FullMessage.full 127 readChunkSize, FullMessage.verack] ∧
      (∀ bytes ∈ FullMessage.reads 127 readChunkSize, bytes.length ≤ readChunkSize) ∧
      let c := Conn.receive 0 (fun _ node => node) (FullMessage.reads 127 readChunkSize)
        ⟨⟨[], 0, 0, true⟩, [], []⟩
      ¬ (c.handled = [FullMessage.full 127 readChunkSize, FullMessage.verack] ∧
        c.node.connected = true ∧ c.penalties = []) := by
  have size : 127 * readChunkSize + readChunkSize = maxProtocolMsgSize.toNat := by decide
  have nonempty : 0 < readChunkSize := by decide
  refine ⟨FullMessage.wellFormed size, ?_, ?_, ?_⟩
  · exact FullMessage.flatten_reads nonempty
  · exact FullMessage.length_reads nonempty le_rfl
  · exact FullMessage.not_delivered nonempty size

end QmaskCore
