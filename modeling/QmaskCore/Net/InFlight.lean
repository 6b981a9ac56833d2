import QmaskCore.Lib.AssocList
import QmaskCore.Primitives.Bytes

/-!
The tables `mBlocksInFlight` and `mTxInFlight` of `ConnManager`.

Both map a hash to the peer it was asked of and to when. `InFlight.request` is
the decision that `ShouldRequestBlock` and `ShouldRequestTx` share, with the
timeout and the limits as parameters; `request_spec` says what it leaves
behind.
-/

namespace QmaskCore

/-- `NodeId`, counted without end. -/
abbrev NodeId := Nat

structure InFlightEntry where
  peer : NodeId
  requestedAt : Int
deriving DecidableEq

/-- `std::map<std::string, InFlightEntry>`, keyed by a hash. -/
abbrev InFlight := AList fun _ : Bytes32 => InFlightEntry

namespace InFlight

/-- Requests that were not answered in time are given up. -/
def expire (timeout now : Int) (t : InFlight) : InFlight :=
  t.filter fun _ e => !decide (timeout < now - e.requestedAt)

/-- The requests outstanding with one peer. -/
def heldBy (peer : NodeId) (t : InFlight) : Nat :=
  t.entries.countP fun e => e.2.peer = peer

/-- `ClearInFlightForPeer`, `ClearTxInFlightForPeer`. -/
def clearForPeer (peer : NodeId) (t : InFlight) : InFlight :=
  t.filter fun _ e => !decide (e.peer = peer)

/-- Whether there is room for one more in the window, if there is one. -/
def room (window : Option Nat) (t : InFlight) : Bool :=
  window.all fun n => decide (t.entries.length < n)

/-- The decision to ask a peer, and the entry it leaves. -/
def request (timeout : Int) (window : Option Nat) (perPeer : Nat) (hash : Bytes32) (peer : NodeId)
    (now : Int) (t : InFlight) : Bool × InFlight :=
  let t := t.expire timeout now
  if hash ∈ t then (false, t)
  else if !t.room window then (false, t)
  else if perPeer ≤ t.heldBy peer then (false, t)
  else (true, t.insert hash ⟨peer, now⟩)

/-- No more entries than the window admits. -/
def Within (window : Option Nat) (t : InFlight) : Prop := ∀ n ∈ window, t.entries.length ≤ n

theorem expire_sublist (timeout now : Int) (t : InFlight) :
    (t.expire timeout now).entries.Sublist t.entries := List.filter_sublist

theorem clearForPeer_sublist (peer : NodeId) (t : InFlight) :
    (t.clearForPeer peer).entries.Sublist t.entries := List.filter_sublist

theorem erase_sublist (hash : Bytes32) (t : InFlight) :
    (t.erase hash).entries.Sublist t.entries := List.kerase_sublist _ _

theorem lookup_of_sublist {t t' : InFlight} (sub : t'.entries.Sublist t.entries) {hash : Bytes32}
    {e : InFlightEntry} (found : t'.lookup hash = some e) : t.lookup hash = some e :=
  AList.mem_lookup_iff.mpr (sub.subset (AList.mem_lookup_iff.mp found))

theorem heldBy_le {t t' : InFlight} (sub : t'.entries.Sublist t.entries) (peer : NodeId) :
    t'.heldBy peer ≤ t.heldBy peer := sub.countP_le

/-- A peer whose entries were cleared holds none. -/
theorem lookup_clearForPeer {t : InFlight} {peer : NodeId} {hash : Bytes32} {e : InFlightEntry}
    (found : (t.clearForPeer peer).lookup hash = some e) : e.peer ≠ peer := by
  have kept := (AList.lookup_filter.mp found).2
  simpa using kept

/-- Either the requests that timed out went and nothing else happened, or the
hash was free and is now asked of the peer, within both limits. -/
theorem request_spec (timeout : Int) (window : Option Nat) (perPeer : Nat) (hash : Bytes32)
    (peer : NodeId) (now : Int) (t : InFlight) :
    request timeout window perPeer hash peer now t = (false, t.expire timeout now) ∨
      (hash ∉ t.expire timeout now ∧ (t.expire timeout now).room window = true ∧
        (t.expire timeout now).heldBy peer < perPeer ∧
        request timeout window perPeer hash peer now t =
          (true, (t.expire timeout now).insert hash ⟨peer, now⟩)) := by
  unfold request
  dsimp only
  by_cases asked : hash ∈ t.expire timeout now
  · exact .inl (if_pos asked)
  rw [if_neg asked]
  by_cases room : (t.expire timeout now).room window = true
  · rw [room]
    by_cases many : perPeer ≤ (t.expire timeout now).heldBy peer
    · exact .inl (by simp [many])
    · exact .inr ⟨asked, rfl, not_le.mp many, by simp [many]⟩
  · exact .inl (by simp [room])

/-- A request never takes a peer over its limit. -/
theorem heldBy_request {timeout : Int} {window : Option Nat} {perPeer : Nat} {hash : Bytes32}
    {peer : NodeId} {now : Int} {t : InFlight} (within : ∀ p, t.heldBy p ≤ perPeer) (p : NodeId) :
    (request timeout window perPeer hash peer now t).2.heldBy p ≤ perPeer := by
  have kept := (heldBy_le (expire_sublist timeout now t) p).trans (within p)
  rcases request_spec timeout window perPeer hash peer now t with same | ⟨free, -, below, asked⟩
  · rwa [same]
  · rw [asked, heldBy, AList.entries_insert_of_notMem free, List.countP_cons]
    change heldBy p (t.expire timeout now) + _ ≤ perPeer
    split
    · rename_i mine
      rw [show p = peer by simpa using (of_decide_eq_true mine).symm]
      exact below
    · exact kept

/-- Nor the table over the window. -/
theorem within_request {timeout : Int} {window : Option Nat} {perPeer : Nat} {hash : Bytes32}
    {peer : NodeId} {now : Int} {t : InFlight} (within : t.Within window) :
    (request timeout window perPeer hash peer now t).2.Within window := by
  intro n mem
  have kept := (expire_sublist timeout now t).length_le.trans (within n mem)
  rcases request_spec timeout window perPeer hash peer now t with same | ⟨free, room, -, asked⟩
  · rwa [same]
  · rw [asked, AList.entries_insert_of_notMem free, List.length_cons]
    have below : (t.expire timeout now).entries.length < n := by
      obtain rfl := Option.mem_def.mp mem
      simpa [InFlight.room] using room
    exact below

/-- Whatever the table holds afterwards was there before, or is the peer's. -/
theorem lookup_request {timeout : Int} {window : Option Nat} {perPeer : Nat} {hash : Bytes32}
    {peer : NodeId} {now : Int} {t : InFlight} {other : Bytes32} {e : InFlightEntry}
    (found : (request timeout window perPeer hash peer now t).2.lookup other = some e) :
    t.lookup other = some e ∨ e.peer = peer := by
  have sub := expire_sublist timeout now t
  rcases request_spec timeout window perPeer hash peer now t with same | ⟨-, -, -, asked⟩
  · rw [same] at found
    exact .inl (lookup_of_sublist sub found)
  · rw [asked, AList.lookup_insert_if] at found
    split at found
    · cases found
      exact .inr rfl
    · exact .inl (lookup_of_sublist sub found)

end InFlight

end QmaskCore
