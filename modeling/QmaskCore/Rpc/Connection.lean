import QmaskCore.Lib.Arrival
import QmaskCore.Lib.Checks
import QmaskCore.Net.AddrMan
import QmaskCore.Rpc.SubNets
import QmaskCore.SmallNetwork

/-!
A request arriving over a connection.

`RPCConnection.onRead` keeps what has come and looks for the end of the header in it.
`judge` says what a connection makes of a text that came in one piece, and
`run_eq_verdict` that the stateful reader is the first judgement on what has come so far.
The size of the header is looked at only while its end has not come, so that a header may
be too large in small reads and not in large ones: `judged_by_bytes_iff` says which.
-/

namespace QmaskCore

open Checks Scan

namespace Rpc

/-- `ToLowerAscii`. -/
def toLowerAscii (s : List UInt8) : List UInt8 := s.map StdString.toLower

/-- `RPC_MAX_BODY_SIZE`. -/
def rpcMaxBodySize (P : Params) : UInt32 := P.maxBlockSize * 2 + 4096

/-- `RPC_MAX_HEADERS_SIZE`. -/
def rpcMaxHeadersSize : Nat := 8192

/-- The size of `mChunk`. -/
def chunkSize : Nat := 4096

/-- An answer other than 200. -/
structure Refusal where
  status : Nat
  reason : String
deriving DecidableEq

/-- What the header lines have set. -/
structure Headers where
  mContentLength : Nat
  mHaveContentLength : Bool
  mAuth : List UInt8
deriving DecidableEq

/-- A line without the `\r` before its end. -/
def chomp (line : List UInt8) : List UInt8 :=
  if line.getLast? = some 13 then line.dropLast else line

section

variable (P : Params) (checkAuth : List UInt8 → Bool)

/-- A header line. -/
def readHeader (h : Headers) (line : List UInt8) : Except Refusal Headers :=
  let line := chomp line
  match line.idxOf? 58 with
  | none => .ok h
  | some colon =>
      let name := toLowerAscii (line.take colon)
      let value := trimAscii (line.drop (colon + 1))
      if name = text "authorization" then
        if (toLowerAscii value).take 6 = text "basic " then
          .ok { h with mAuth := trimAscii (value.drop 6) }
        else .ok h
      else if name = text "content-length" then do
        rejectIf (value = []) ⟨400, "Bad Content-Length"⟩
        rejectIf (∃ b ∈ value, isDigit b = false) ⟨400, "Bad Content-Length"⟩
        rejectIf (20 < value.length) ⟨413, "Body too large"⟩
        -- `strtoull` stops at the largest number there is.
        let declared := min (magnitude 0 value) (2 ^ 64 - 1)
        rejectIf ((rpcMaxBodySize P).toNat < declared) ⟨413, "Body too large"⟩
        .ok { h with mContentLength := declared, mHaveContentLength := true }
      else .ok h

/-- `ParseHeaders`, on the text before the blank line. -/
def parseHeaders (head : List UInt8) : Except Refusal Headers :=
  match AddrMan.getlines head [] with
  | [] => .error ⟨400, "Empty request"⟩
  | line :: lines => do
      rejectIf ((chomp line).take 5 ≠ text "POST ") ⟨405, "Only POST is served"⟩
      let h ← lines.foldlM (readHeader P) ⟨0, false, []⟩
      rejectIf (h.mHaveContentLength = false) ⟨400, "Content-Length required"⟩
      rejectIf (checkAuth h.mAuth = false) ⟨401, "Authentication failed"⟩
      rejectIf (h.mContentLength = 0) ⟨400, "Empty body"⟩
      .ok h

/-- The end of the header. -/
def crlfcrlf : List UInt8 := [13, 10, 13, 10]

structure RPCConnection where
  mIn : List UInt8
  mHeaderEnd : Option Nat
  headers : Headers
  mBody : List UInt8
  mDispatched : Bool
  mClosed : Bool
  /-- The refusal that was written. -/
  sent : Option Refusal

namespace RPCConnection

def new : RPCConnection := ⟨[], none, ⟨0, false, []⟩, [], false, false, none⟩

def sendStatusAndClose (c : RPCConnection) (refusal : Refusal) : RPCConnection :=
  if c.mClosed then c else { c with sent := some refusal, mClosed := true }

/-- What `OnRead` does once the header is there. -/
def awaitBody (c : RPCConnection) (headerEnd : Nat) : RPCConnection :=
  let have' := c.mIn.length - (headerEnd + 4)
  if have' < c.headers.mContentLength then c
  else
    { c with
      mBody := (c.mIn.drop (headerEnd + 4)).take c.headers.mContentLength
      mDispatched := true }

def onRead (c : RPCConnection) (bytes : List UInt8) : RPCConnection :=
  if c.mDispatched ∨ c.mClosed then c
  else
    let c := { c with mIn := c.mIn ++ bytes }
    match c.mHeaderEnd with
    | some headerEnd => c.awaitBody headerEnd
    | none =>
        match StdString.find crlfcrlf c.mIn with
        | none =>
            if rpcMaxHeadersSize < c.mIn.length then
              c.sendStatusAndClose ⟨431, "Header too large"⟩
            else c
        | some headerEnd =>
            let c := { c with mHeaderEnd := some headerEnd }
            match parseHeaders P checkAuth (c.mIn.take headerEnd) with
            | .error refusal => c.sendStatusAndClose refusal
            | .ok headers => { c with headers }.awaitBody headerEnd

end RPCConnection

/-- What has become of a request. -/
inductive Outcome where
  | waiting
  | refused (status : Nat)
  | dispatched (body auth : List UInt8)
deriving DecidableEq

namespace RPCConnection

def outcome (c : RPCConnection) : Outcome :=
  match c.sent with
  | some refusal => .refused refusal.status
  | none => if c.mDispatched then .dispatched c.mBody c.headers.mAuth else .waiting

/-- The outcome of a stream that comes in these reads. -/
def outcomeOf (reads : List (List UInt8)) : Outcome :=
  (reads.foldl (onRead P checkAuth) new).outcome

end RPCConnection

/-- A way in which a stream can come. -/
structure Reads (s : List UInt8) (reads : List (List UInt8)) : Prop where
  flatten_eq : reads.flatten = s
  some : ∀ read ∈ reads, 1 ≤ read.length
  few : ∀ read ∈ reads, read.length ≤ chunkSize

/-! ### What a text is judged to be -/

/-- The judgement on a text that came in one piece. -/
def judge (b : List UInt8) : Option (Except Refusal (List UInt8 × List UInt8)) :=
  match StdString.find crlfcrlf b with
  | none => if rpcMaxHeadersSize < b.length then some (.error ⟨431, "Header too large"⟩) else none
  | some headerEnd =>
      match parseHeaders P checkAuth (b.take headerEnd) with
      | .error refusal => some (.error refusal)
      | .ok h =>
          if b.length - (headerEnd + 4) < h.mContentLength then none
          else some (.ok ((b.drop (headerEnd + 4)).take h.mContentLength, h.mAuth))

end

/-- What a judgement leads to. -/
def Outcome.of : Option (Except Refusal (List UInt8 × List UInt8)) → Outcome
  | none => .waiting
  | some (.error refusal) => .refused refusal.status
  | some (.ok (body, auth)) => .dispatched body auth

/-! ### The reader is the first judgement -/

theorem crlfcrlf_ne_nil : crlfcrlf ≠ [] := List.cons_ne_nil _ _

/-- The end of the header is inside. -/
theorem add_four_le_of_find {b : List UInt8} {e : Nat}
    (found : StdString.find crlfcrlf b = some e) : e + 4 ≤ b.length := by
  have long := StdString.length_le_of_find found
  rw [List.length_drop] at long
  change 4 ≤ b.length - e at long
  omega

section

variable {P : Params} {checkAuth : List UInt8 → Bool} {c : RPCConnection} {seen read : List UInt8}

/-- A connection that waits for more. -/
structure RPCConnection.Open (P : Params) (checkAuth : List UInt8 → Bool) (c : RPCConnection)
    (seen : List UInt8) : Prop where
  mIn : c.mIn = seen
  mDispatched : c.mDispatched = false
  mClosed : c.mClosed = false
  sent : c.sent = none
  /-- The header was found where it is, and said what is kept of it. -/
  header : ∀ e, c.mHeaderEnd = some e → StdString.find crlfcrlf seen = some e ∧
    parseHeaders P checkAuth (seen.take e) = .ok c.headers

/-- A connection that is through with its request. -/
structure RPCConnection.Ended (c : RPCConnection)
    (j : Except Refusal (List UInt8 × List UInt8)) : Prop where
  outcome : c.outcome = Outcome.of (some j)
  settled : c.mDispatched = true ∨ c.mClosed = true

namespace RPCConnection

theorem Open.outcome (waits : Open P checkAuth c seen) : c.outcome = .waiting := by
  rw [RPCConnection.outcome, waits.sent, waits.mDispatched]
  rfl

theorem open_new : Open P checkAuth new [] :=
  ⟨rfl, rfl, rfl, rfl, fun _ found => nomatch found⟩

theorem Ended.onRead {j} (ended : c.Ended j) : (c.onRead P checkAuth read) = c :=
  if_pos ended.settled

theorem ended_sendStatusAndClose (closed : c.mClosed = false) (refusal : Refusal) :
    (c.sendStatusAndClose refusal).Ended (.error refusal) := by
  rw [sendStatusAndClose, closed, if_neg Bool.false_ne_true]
  exact ⟨rfl, .inr rfl⟩

/-- The judgement once the header is known. -/
theorem judge_of_header {b : List UInt8} {e : Nat} {h : Headers}
    (found : StdString.find crlfcrlf b = some e)
    (parsed : parseHeaders P checkAuth (b.take e) = .ok h) :
    judge P checkAuth b = if b.length - (e + 4) < h.mContentLength then none
      else some (.ok ((b.drop (e + 4)).take h.mContentLength, h.mAuth)) := by
  rw [judge, found]
  dsimp only
  rw [parsed]

/-- Waiting for the body. -/
theorem awaitBody_spec {e : Nat} (waits : Open P checkAuth c seen) (known : c.mHeaderEnd = some e) :
    match judge P checkAuth seen with
    | none => Open P checkAuth (c.awaitBody e) seen
    | some j => (c.awaitBody e).Ended j := by
  obtain ⟨found, parsed⟩ := waits.header e known
  rw [judge_of_header found parsed, awaitBody, waits.mIn]
  by_cases short : seen.length - (e + 4) < c.headers.mContentLength
  · rw [if_pos short]
    simp only [if_pos short]
    exact waits
  · rw [if_neg short]
    simp only [if_neg short]
    refine ⟨?_, .inl rfl⟩
    rw [RPCConnection.outcome, waits.sent]
    rfl

/-- A read makes the judgement on what has come with it. -/
theorem Open.onRead_spec (waits : Open P checkAuth c seen) :
    match judge P checkAuth (seen ++ read) with
    | none => Open P checkAuth (c.onRead P checkAuth read) (seen ++ read)
    | some j => (c.onRead P checkAuth read).Ended j := by
  have running : ¬ (c.mDispatched = true ∨ c.mClosed = true) := by
    simp [waits.mDispatched, waits.mClosed]
  rw [onRead, if_neg running]
  dsimp only
  cases known : c.mHeaderEnd with
  | some e =>
      obtain ⟨found, parsed⟩ := waits.header e known
      have inside := add_four_le_of_find found
      refine awaitBody_spec ⟨?_, waits.mDispatched, waits.mClosed, waits.sent, ?_⟩ rfl
      · rw [waits.mIn]
      · rintro _ ⟨⟩
        rw [List.take_append_of_le_length (by omega)]
        exact ⟨StdString.find_append crlfcrlf_ne_nil found, parsed⟩
  | none =>
      dsimp only
      rw [waits.mIn]
      cases found : StdString.find crlfcrlf (seen ++ read) with
      | none =>
          rw [judge, found]
          by_cases large : rpcMaxHeadersSize < (seen ++ read).length
          · simp only [if_pos large]
            refine ended_sendStatusAndClose ?_ _
            exact waits.mClosed
          · simp only [if_neg large]
            exact ⟨rfl, waits.mDispatched, waits.mClosed, waits.sent, fun _ none => nomatch none⟩
      | some e =>
          dsimp only
          cases parsed : parseHeaders P checkAuth ((seen ++ read).take e) with
          | error refusal =>
              rw [judge, found]
              simp only [parsed]
              refine ended_sendStatusAndClose ?_ _
              exact waits.mClosed
          | ok h =>
              refine awaitBody_spec ⟨rfl, waits.mDispatched, waits.mClosed, waits.sent, ?_⟩ rfl
              rintro _ ⟨⟩
              exact ⟨found, parsed⟩

/-- Nothing is read after the end. -/
theorem Ended.foldl {j} : ∀ {reads : List (List UInt8)}, c.Ended j →
    reads.foldl (RPCConnection.onRead P checkAuth) c = c := by
  intro reads
  induction reads with
  | nil => exact fun _ => rfl
  | cons read reads ih =>
      intro ended
      rw [List.foldl_cons, ended.onRead]
      exact ih ended

/-- A run makes the first judgement on what has come. -/
theorem Open.foldl : ∀ {reads : List (List UInt8)} {c : RPCConnection} {seen : List UInt8},
    Open P checkAuth c seen →
    (reads.foldl (RPCConnection.onRead P checkAuth) c).outcome =
      Outcome.of (Arrival.verdict (judge P checkAuth) seen reads) := by
  intro reads
  induction reads with
  | nil => exact fun waits => waits.outcome
  | cons read reads ih =>
      intro c seen waits
      have step := @Open.onRead_spec P checkAuth c seen read waits
      rw [List.foldl_cons, Arrival.verdict]
      cases judged : judge P checkAuth (seen ++ read) with
      | none =>
          rw [judged] at step
          exact ih step
      | some j =>
          rw [judged] at step
          rw [step.foldl]
          exact step.outcome

theorem outcomeOf_eq_verdict (reads : List (List UInt8)) :
    outcomeOf P checkAuth reads = Outcome.of (Arrival.verdict (judge P checkAuth) [] reads) :=
  open_new.foldl

end RPCConnection

/-! ### Where the pieces matter -/

theorem readHeader_status {h : Headers} {line : List UInt8} {refusal : Refusal}
    (refused : readHeader P h line = .error refusal) :
    refusal.status = 400 ∨ refusal.status = 413 := by
  rw [readHeader] at refused
  dsimp only at refused
  split at refused
  · cases refused
  split at refused
  · split at refused <;> cases refused
  split at refused
  · simp only [bind_eq_error, rejectIf_eq_error, rejectIf_eq_ok, exists_unit_iff] at refused
    rcases refused with ⟨_, rfl⟩ | ⟨_, ⟨_, rfl⟩ | ⟨_, ⟨_, rfl⟩ | ⟨_, ⟨_, rfl⟩ | ⟨_, ⟨⟩⟩⟩⟩⟩
    · exact .inl rfl
    · exact .inl rfl
    · exact .inr rfl
    · exact .inr rfl
  · cases refused

theorem foldlM_readHeader_status {refusal : Refusal} : ∀ {lines : List (List UInt8)} {h : Headers},
    lines.foldlM (readHeader P) h = .error refusal →
    refusal.status = 400 ∨ refusal.status = 413 := by
  intro lines
  induction lines with
  | nil => exact fun refused => nomatch refused
  | cons line lines ih =>
      intro h refused
      rw [List.foldlM_cons, bind_eq_error] at refused
      rcases refused with refused | ⟨_, _, refused⟩
      · exact readHeader_status refused
      · exact ih refused

/-- Nothing in a header makes it too large. -/
theorem parseHeaders_status {head : List UInt8} {refusal : Refusal}
    (refused : parseHeaders P checkAuth head = .error refusal) : refusal.status ≠ 431 := by
  rw [parseHeaders] at refused
  split at refused
  · cases refused
    decide
  · simp only [bind_eq_error, rejectIf_eq_error, rejectIf_eq_ok, exists_unit_iff] at refused
    rcases refused with
      ⟨_, rfl⟩ | ⟨_, lines | ⟨_, _, ⟨_, rfl⟩ | ⟨_, ⟨_, rfl⟩ | ⟨_, ⟨_, rfl⟩ | ⟨_, ⟨⟩⟩⟩⟩⟩⟩
    · decide
    · rcases foldlM_readHeader_status lines with status | status
      · rw [status]
        decide
      · rw [status]
        decide
    · decide
    · decide
    · decide

variable {s b : List UInt8} {e : Nat}

/-- What has come contains the end of the header, or does not yet. -/
theorem find_of_begins (begins : b <+: s) (found : StdString.find crlfcrlf s = some e) :
    StdString.find crlfcrlf b = if e + 4 ≤ b.length then some e else none := by
  obtain ⟨rest, rfl⟩ := begins
  split
  · rename_i inside
    exact StdString.find_of_find_append crlfcrlf_ne_nil found inside
  · rename_i outside
    by_contra other
    obtain ⟨e', found'⟩ := Option.ne_none_iff_exists'.mp other
    have same := @StdString.find_append _ _ _ rest crlfcrlf_ne_nil _ _ found'
    rw [found] at same
    cases same
    exact outside (add_four_le_of_find found')

/-- While the end has not come only the size counts. -/
theorem judge_of_absent (absent : StdString.find crlfcrlf b = none) : judge P checkAuth b =
    if rpcMaxHeadersSize < b.length then some (.error ⟨431, "Header too large"⟩) else none := by
  rw [judge, absent]

/-- The judgement on a header that is there stands. -/
theorem judge_stable_of_found {j} (begins : b <+: s) (found : StdString.find crlfcrlf b = some e)
    (judged : judge P checkAuth b = some j) : judge P checkAuth s = some j := by
  obtain ⟨rest, rfl⟩ := begins
  have inside := add_four_le_of_find found
  have front : (b ++ rest).take e = b.take e := List.take_append_of_le_length (by omega)
  have found' := @StdString.find_append _ _ _ rest crlfcrlf_ne_nil _ _ found
  rw [judge, found] at judged
  rw [judge, found']
  dsimp only at judged ⊢
  rw [front]
  cases parsed : parseHeaders P checkAuth (b.take e) with
  | error refusal =>
      rw [parsed] at judged
      exact judged
  | ok h =>
      rw [parsed] at judged
      dsimp only at judged ⊢
      split at judged
      · cases judged
      · rename_i enough
        rw [if_neg (by rw [List.length_append]; omega), ← judged,
          List.drop_append_of_le_length (by omega), List.take_append_of_le_length]
        rw [List.length_drop]
        omega

theorem status_of_found {refusal : Refusal} (found : StdString.find crlfcrlf b = some e)
    (judged : judge P checkAuth b = some (.error refusal)) : refusal.status ≠ 431 := by
  rw [judge, found] at judged
  dsimp only at judged
  split at judged
  · rename_i parsed
    cases judged
    exact parseHeaders_status parsed
  · split at judged <;> cases judged

/-- Where the end of the header may be, so that its size is tested always or never: in the
first 8193 bytes, which no read can pass without it, or more than one read behind
the limit. -/
def HeaderSettled (s : List UInt8) : Prop :=
  ∀ e, StdString.find crlfcrlf s = some e →
    e + 4 ≤ rpcMaxHeadersSize + 1 ∨ rpcMaxHeadersSize + chunkSize < e + 4

/-- Up to the limit nothing is judged before the end of the header has come. -/
theorem judge_eq_none (found : StdString.find crlfcrlf s = some e) (begins : b <+: s)
    (absent : b.length < e + 4) (few : b.length ≤ rpcMaxHeadersSize) :
    judge P checkAuth b = none := by
  have none := find_of_begins begins found
  rw [if_neg (by omega)] at none
  rw [judge_of_absent none, if_neg (by omega)]

/-- A header that is longer than the limit by more than a read is refused. -/
theorem verdict_of_long {m : Nat} {reads : List (List UInt8)}
    (found : StdString.find crlfcrlf s = some e) (long : rpcMaxHeadersSize + m < e + 4)
    (small : ∀ read ∈ reads, read.length ≤ m) (whole : reads.flatten = s) :
    Arrival.verdict (judge P checkAuth) [] reads = some (.error ⟨431, "Header too large"⟩) := by
  have inside := add_four_le_of_find found
  refine @Arrival.verdict_of_window _ _ _ s _ rpcMaxHeadersSize m (fun b begins few => ?_)
    (fun b begins many few => ?_) (by omega) reads [] small (Nat.zero_le _) whole
  · exact judge_eq_none found begins (by omega) few
  · have none := find_of_begins begins found
    rw [if_neg (by omega)] at none
    rw [judge_of_absent none, if_pos many]

/-- Elsewhere the judgement on the whole is the first one. -/
theorem verdict_eq {reads : List (List UInt8)} (whole : reads.flatten = s)
    (early : ∀ e, StdString.find crlfcrlf s = some e → e + 4 ≤ rpcMaxHeadersSize + 1) :
    Arrival.verdict (judge P checkAuth) [] reads = judge P checkAuth s := by
  refine Arrival.verdict_eq_judge (fun b j begins judged => ?_) rfl whole
  cases found : StdString.find crlfcrlf b with
  | some e => exact judge_stable_of_found begins found judged
  | none =>
      rw [judge_of_absent found] at judged
      obtain ⟨large, refused⟩ := Option.ite_none_right_eq_some.mp judged
      rw [← refused]
      have longer := begins.length_le
      cases found' : StdString.find crlfcrlf s with
      | none => rw [judge_of_absent found', if_pos (by omega)]
      | some e =>
          have absent := find_of_begins begins found'
          rw [found] at absent
          split at absent
          · cases absent
          · have limit := early e found'
            omega

/-- Bytes one by one. -/
theorem reads_singletons (s : List UInt8) : Reads s (s.map fun b => [b]) where
  flatten_eq := by rw [← List.flatMap_def, List.flatMap_singleton']
  some read mem := by
    obtain ⟨b, _, rfl⟩ := List.mem_map.mp mem
    exact le_rfl
  few read mem := by
    obtain ⟨b, _, rfl⟩ := List.mem_map.mp mem
    exact Nat.succ_le_succ (Nat.zero_le _)

/-- Three reads of full size, and the rest byte by byte. -/
def fullReads (s : List UInt8) : List (List UInt8) :=
  s.take chunkSize :: (s.drop chunkSize).take chunkSize ::
    (s.drop (2 * chunkSize)).take chunkSize :: (s.drop (3 * chunkSize)).map fun b => [b]

theorem reads_fullReads (long : 2 * chunkSize < s.length) : Reads s (fullReads s) := by
  have page (l : List UInt8) : (l.take chunkSize).length ≤ chunkSize := List.length_take_le _ _
  have size : chunkSize = 4096 := rfl
  have rest := reads_singletons (s.drop (3 * chunkSize))
  refine ⟨?_, fun read mem => ?_, fun read mem => ?_⟩
  · rw [fullReads, List.flatten_cons, List.flatten_cons, List.flatten_cons, rest.flatten_eq,
      ← List.append_assoc, ← List.append_assoc, ← List.take_add, ← Nat.two_mul, ← List.take_add,
      ← Nat.succ_mul, List.take_append_drop]
  · rw [fullReads, List.mem_cons, List.mem_cons, List.mem_cons] at mem
    rcases mem with rfl | rfl | rfl | mem
    · rw [List.length_take]
      omega
    · rw [List.length_take, List.length_drop]
      omega
    · rw [List.length_take, List.length_drop]
      omega
    · exact rest.some read mem
  · rw [fullReads, List.mem_cons, List.mem_cons, List.mem_cons] at mem
    rcases mem with rfl | rfl | rfl | mem
    · exact page _
    · exact page _
    · exact page _
    · exact rest.few read mem

theorem exists_of_refused {j : Option (Except Refusal (List UInt8 × List UInt8))} {status : Nat}
    (refused : Outcome.of j = .refused status) :
    ∃ refusal : Refusal, refusal.status = status ∧ j = some (.error refusal) := by
  cases j with
  | none => cases refused
  | some j =>
      cases j with
      | error refusal =>
          cases refused
          exact ⟨refusal, rfl, rfl⟩
      | ok request => cases refused

/-- In full reads a header is let through that is too large byte by byte. -/
theorem outcome_fullReads (found : StdString.find crlfcrlf s = some e)
    (above : rpcMaxHeadersSize + 1 < e + 4) (below : e + 4 ≤ rpcMaxHeadersSize + chunkSize) :
    RPCConnection.outcomeOf P checkAuth (fullReads s) ≠ .refused 431 := by
  have inside := add_four_le_of_find found
  have sizes : chunkSize = 4096 ∧ rpcMaxHeadersSize = 8192 := ⟨rfl, rfl⟩
  have first : judge P checkAuth (s.take chunkSize) = none := by
    refine judge_eq_none found (List.take_prefix _ s) ?_ ?_ <;> (rw [List.length_take]; omega)
  have second : judge P checkAuth (s.take (chunkSize + chunkSize)) = none := by
    refine judge_eq_none found (List.take_prefix _ s) ?_ ?_ <;> (rw [List.length_take]; omega)
  -- From the third read on the end of the header has come.
  have later {b : List UInt8} {refusal : Refusal} (from' : s.take (3 * chunkSize) <+: b)
      (begins : b <+: s) (judged : judge P checkAuth b = some (.error refusal)) :
      refusal.status ≠ 431 := by
    have long := from'.length_le
    rw [List.length_take] at long
    have there := find_of_begins begins found
    rw [if_pos (by omega)] at there
    exact status_of_found there judged
  rw [RPCConnection.outcomeOf_eq_verdict, fullReads, Arrival.verdict, List.nil_append, first,
    Arrival.verdict, ← List.take_add, second]
  dsimp only
  intro large
  obtain ⟨refusal, status, judged⟩ := exists_of_refused large
  rw [Arrival.verdict, ← Nat.two_mul, ← List.take_add, ← Nat.succ_mul] at judged
  split at judged
  · rename_i j third
    cases judged
    exact later List.prefix_rfl (List.take_prefix _ s) third status
  · obtain ⟨b, from', begins, judged⟩ := Arrival.exists_of_verdict judged
    rw [(reads_singletons _).flatten_eq, List.take_append_drop] at begins
    exact later from' begins judged status

end

end Rpc

open Rpc

/-- **A request by its bytes.** However a stream is cut into reads its outcome is the same,
just where the end of the header is not between the limit and one read behind it. -/
theorem judged_by_bytes_iff (P : Params) (checkAuth : List UInt8 → Bool) (s : List UInt8) :
    (∀ reads reads', Reads s reads → Reads s reads' →
      RPCConnection.outcomeOf P checkAuth reads = RPCConnection.outcomeOf P checkAuth reads') ↔
    HeaderSettled s := by
  simp only [RPCConnection.outcomeOf_eq_verdict]
  constructor
  · intro same e found
    by_contra between
    rw [not_or, not_le, not_lt] at between
    have inside := add_four_le_of_find found
    have sizes : chunkSize = 4096 ∧ rpcMaxHeadersSize = 8192 := ⟨rfl, rfl⟩
    have single := reads_singletons s
    have large := @verdict_of_long P checkAuth s e 1 _ found between.1 (fun read mem => ?_)
      single.flatten_eq
    · have equal := same _ _ single (reads_fullReads (by omega))
      rw [large, ← RPCConnection.outcomeOf_eq_verdict] at equal
      exact outcome_fullReads found between.1 between.2 equal.symm
    · obtain ⟨b, _, rfl⟩ := List.mem_map.mp mem
      exact le_rfl
  · intro settled reads reads' cut cut'
    by_cases late : ∃ e, StdString.find crlfcrlf s = some e ∧ rpcMaxHeadersSize + chunkSize < e + 4
    · obtain ⟨e, found, long⟩ := late
      rw [verdict_of_long found long cut.few cut.flatten_eq,
        verdict_of_long found long cut'.few cut'.flatten_eq]
    · have early : ∀ e, StdString.find crlfcrlf s = some e → e + 4 ≤ rpcMaxHeadersSize + 1 := by
        intro e found
        exact (settled e found).resolve_right fun long => late ⟨e, found, long⟩
      rw [verdict_eq cut.flatten_eq early, verdict_eq cut'.flatten_eq early]

namespace Rpc

/-- A line as long as the limit, two bytes short of it. -/
def longLine : List UInt8 := List.replicate 8190 65 ++ crlfcrlf

theorem find_longLine : StdString.find crlfcrlf longLine = some 8190 := by
  have all : ∀ n, StdString.find crlfcrlf (List.replicate n 65 ++ crlfcrlf) = some n := by
    intro n
    induction n with
    | zero => decide
    | succ n ih =>
        have other : ¬ crlfcrlf <+: 65 :: (List.replicate n 65 ++ crlfcrlf) := by
          rw [crlfcrlf, List.cons_prefix_cons]
          exact fun begins => absurd begins.1 (by decide)
        rw [List.replicate_succ, List.cons_append, StdString.find, if_neg other, ih]
        rfl
  exact all 8190

/-- Byte by byte it is too large, and in full reads it is not. -/
theorem long_line_depends_on_reads (P : Params) (checkAuth : List UInt8 → Bool) :
    RPCConnection.outcomeOf P checkAuth (longLine.map fun b => [b]) = .refused 431 ∧
      RPCConnection.outcomeOf P checkAuth (fullReads longLine) ≠ .refused 431 := by
  refine ⟨?_, outcome_fullReads find_longLine (by decide) (by decide)⟩
  have large := @verdict_of_long P checkAuth longLine 8190 1 _ find_longLine (by decide)
    (fun read mem => ?_) (reads_singletons longLine).flatten_eq
  · rw [RPCConnection.outcomeOf_eq_verdict, large]
    rfl
  · obtain ⟨b, _, rfl⟩ := List.mem_map.mp mem
    exact le_rfl

theorem long_line_judged_by_reads :
    ¬ ∀ reads reads', Reads longLine reads → Reads longLine reads' →
      RPCConnection.outcomeOf smallNetwork (fun _ => true) reads =
        RPCConnection.outcomeOf smallNetwork (fun _ => true) reads' := by
  intro same
  obtain ⟨large, other⟩ := long_line_depends_on_reads smallNetwork fun _ => true
  have long : 2 * chunkSize < longLine.length := by
    rw [longLine, List.length_append, List.length_replicate]
    decide
  rw [same _ _ (reads_singletons longLine) (reads_fullReads long)] at large
  exact other large

end Rpc

end QmaskCore
