import QmaskCore.Net.Announcements

/-!
Which addresses a node tells.

`AddrBook.Discreet` says that no address that means something inside one
network only was sent, and that what may be sent later is none. Whatever a node
learns goes through the filter before it is sent, so an internal address gets
out only in a spelling the filter does not know, or as the address the operator
gave the node itself.
-/

namespace QmaskCore

open Scan Inet

namespace AddrBook

/-- Nothing internal was sent or waits to be. -/
structure Discreet (m : AddrBook) : Prop where
  known : ∀ a ∈ m.mKnownAddresses, ¬ EvadesFilter a.ip
  external : ¬ IsInternal m.mExternalAddress.ip
  own : ∀ a ∈ m.mLocalAddresses, ¬ IsInternal a.ip
  pushed : ∀ msg ∈ m.pushed, ∀ a ∈ msg.addrs, ¬ IsInternal a.ip

theorem not_isInternal_nil : ¬ IsInternal [] := by
  rintro (⟨octets, read, -⟩ | ⟨bytes, read, -⟩)
  · cases read
  · cases read

theorem discreet_new (key : UInt64) : Discreet (new key) where
  known _ mem := nomatch mem
  external := not_isInternal_nil
  own _ mem := nomatch mem
  pushed _ mem := nomatch mem

/-- What is remembered was known before, or is the new address. -/
theorem mem_remember {addr a : NetAddress} {now : Int} {known : List NetAddress}
    (mem : a ∈ remember addr now known) : a.ip = addr.ip ∨ ∃ b ∈ known, a.ip = b.ip := by
  unfold remember at mem
  split at mem
  · rename_i i _
    obtain ⟨j, bound, rfl⟩ := List.getElem_of_mem mem
    rw [List.length_modify] at bound
    refine .inr ⟨known[j], List.getElem_mem bound, ?_⟩
    rw [List.getElem_modify]
    split <;> rfl
  · rcases List.mem_append.mp mem with mem | mem
    · refine .inr ⟨a, ?_, rfl⟩
      split at mem
      · exact List.mem_of_mem_eraseIdx mem
      · exact mem
    · rw [List.mem_singleton.mp mem]
      exact .inl rfl

variable {m : AddrBook} {sha256 : List UInt8 → List UInt8}

namespace Discreet

/-- Sending what is not internal. -/
theorem sendAddr (discreet : Discreet m) {addrs : List NetAddress}
    (fine : ∀ a ∈ addrs, ¬ IsInternal a.ip) (id : NodeId) : Discreet (m.sendAddr id addrs) := by
  unfold AddrBook.sendAddr
  split
  · exact discreet
  · refine ⟨discreet.known, discreet.external, discreet.own, fun msg mem => ?_⟩
    rcases List.mem_append.mp mem with mem | mem
    · exact discreet.pushed msg mem
    · rw [List.mem_singleton.mp mem]
      exact fun a mem => fine a (List.mem_of_mem_take mem)

/-- The node objects do not matter. -/
theorem modify (discreet : Discreet m) (id : NodeId) (f : AddrPeer → AddrPeer) :
    Discreet (m.modify id f) :=
  ⟨discreet.known, discreet.external, discreet.own, discreet.pushed⟩

/-- Nor does the table of `AddrMan`. -/
theorem table (discreet : Discreet m) (man : AddrMan) : Discreet { m with mAddrMan := man } :=
  ⟨discreet.known, discreet.external, discreet.own, discreet.pushed⟩

theorem learned (discreet : Discreet m) {known : List NetAddress}
    (fine : ∀ a ∈ known, ¬ EvadesFilter a.ip) : Discreet { m with mKnownAddresses := known } :=
  ⟨fine, discreet.external, discreet.own, discreet.pushed⟩

theorem addKnownAddressFrom (discreet : Discreet m) {addr : NetAddress}
    (plain : ¬ EvadesFilter addr.ip) (source : List UInt8) (now : Int) :
    Discreet (m.addKnownAddressFrom sha256 addr source now).2 := by
  unfold AddrBook.addKnownAddressFrom
  split
  · exact discreet
  · refine (discreet.table _).learned fun a mem => ?_
    rcases mem_remember mem with new | ⟨b, before, same⟩
    · rwa [new]
    · rw [same]
      exact discreet.known b before

theorem addOperatorAddress (discreet : Discreet m) {addr : NetAddress}
    (plain : ¬ EvadesFilter addr.ip) (now : Int) :
    Discreet (m.addOperatorAddress sha256 addr now) := by
  unfold AddrBook.addOperatorAddress
  split
  · exact discreet
  split
  · exact discreet
  dsimp only
  split
  · exact discreet.table _
  · refine (discreet.table _).learned fun a mem => ?_
    rcases List.mem_append.mp mem with mem | mem
    · exact discreet.known a mem
    · rw [List.mem_singleton.mp mem]
      exact plain

theorem relayTo {addr : NetAddress} (fine : ¬ IsInternal addr.ip) :
    ∀ {ids : List NodeId} {sent : Nat} {m : AddrBook}, Discreet m →
      Discreet (relayTo addr sent ids m) := by
  intro ids
  induction ids with
  | nil => exact fun discreet => discreet
  | cons id ids ih =>
      intro sent m discreet
      rw [AddrBook.relayTo]
      split
      · exact discreet
      dsimp only
      split
      · exact ih discreet
      · refine ih ((discreet.modify _ _).sendAddr (fun a mem => ?_) id)
        rwa [List.mem_singleton.mp mem]

theorem relayAddress (discreet : Discreet m) {addr : NetAddress}
    (plain : ¬ EvadesFilter addr.ip) (originator : NodeId) :
    Discreet (m.relayAddress addr originator) := by
  unfold AddrBook.relayAddress
  split
  · exact discreet
  split
  · exact discreet
  · rename_i relayed
    rw [Bool.not_eq_true', Bool.not_eq_false] at relayed
    exact discreet.relayTo (not_internal_of_relayable relayed plain)

theorem learn (discreet : Discreet m) {addr : NetAddress} (plain : ¬ EvadesFilter addr.ip)
    (id : NodeId) (admitted : Bool) (now : Int) : Discreet (m.learn sha256 id addr admitted now) := by
  unfold AddrBook.learn
  split
  · exact discreet
  have added : Discreet (m.addKnownAddressFrom sha256 addr (m.nodes id).addr.ip now).2 :=
    discreet.addKnownAddressFrom plain _ now
  dsimp only
  split
  · exact added.relayAddress plain id
  · exact added

theorem handleAddr (discreet : Discreet m) {payload : List UInt8}
    (plain : ∀ a ∈ announced payload, ¬ EvadesFilter a.ip) (id : NodeId) (admits : Nat → Bool)
    (now : Nat → Int) : Discreet (m.handleAddr sha256 id payload admits now) := by
  unfold AddrBook.handleAddr
  refine List.foldlRecOn _ _ discreet fun m discreet e mem => ?_
  exact discreet.learn (plain e.1 (List.fst_mem_of_mem_zipIdx mem)) id _ _

/-- What is known is filtered before it is told. -/
theorem getKnownAddresses (discreet : Discreet m) (now : Int) :
    ∀ a ∈ m.getKnownAddresses now, ¬ IsInternal a.ip := by
  intro a mem
  obtain ⟨mem, told⟩ := List.mem_filter.mp mem
  rw [Bool.and_eq_true] at told
  exact not_internal_of_relayable told.1 (discreet.known a mem)

theorem selectLocalAddressFor (discreet : Discreet m) {peer self : NetAddress}
    (selected : m.selectLocalAddressFor peer = some self) : ¬ IsInternal self.ip := by
  have among : ∀ a ∈ (m.mLocalAddresses.foldl (fun (best : Nat × Option NetAddress) a =>
      if best.1 < reachabilityScore a.ip peer.ip then (reachabilityScore a.ip peer.ip, some a)
      else best) (0, none)).2, ¬ IsInternal a.ip := by
    refine List.foldlRecOn (motive := fun (best : Nat × Option NetAddress) =>
      ∀ a ∈ best.2, ¬ IsInternal a.ip) _ _ (by simp) fun best fine a mem b better => ?_
    split at better
    · cases better
      exact discreet.own a mem
    · exact fine b better
  exact among self selected

theorem advertiseSelf (discreet : Discreet m) (id : NodeId) : Discreet (m.advertiseSelf id) := by
  unfold AddrBook.advertiseSelf
  split
  · exact discreet
  · rename_i self selected
    refine discreet.sendAddr (fun a mem => ?_) id
    rw [List.mem_singleton.mp mem]
    exact discreet.selectLocalAddressFor selected

theorem handleVerack (discreet : Discreet m) (id : NodeId) (now : Int) :
    Discreet (m.handleVerack sha256 id now) := by
  unfold AddrBook.handleVerack
  dsimp only
  have acked := discreet.modify id fun p => { p with versionAcked := true }
  split
  · exact (acked.sendAddr (acked.getKnownAddresses now) id).advertiseSelf id
  · have tried := acked.table ((m.modify id fun p => { p with versionAcked := true }).mAddrMan.good
      sha256 ((m.modify id fun p => { p with versionAcked := true }).nodes id).addr.ip
      ((m.modify id fun p => { p with versionAcked := true }).nodes id).addr.port now)
    exact (tried.sendAddr (tried.getKnownAddresses now) id).advertiseSelf id

theorem discoverLocalAddresses (discreet : Discreet m) {interfaces : List (List UInt8)}
    (plain : ∀ ip ∈ interfaces, ¬ EvadesFilter ip) (listenPort : UInt16) (now : Int) :
    Discreet (m.discoverLocalAddresses interfaces listenPort now) := by
  refine ⟨discreet.known, discreet.external, ?_, discreet.pushed⟩
  refine List.foldlRecOn (motive := fun found : List NetAddress =>
    ∀ a ∈ found, ¬ IsInternal a.ip) _ _ ?_ ?_
  · intro a mem
    split at mem
    · cases mem
    · rw [List.mem_singleton.mp mem]
      exact discreet.external
  · intro found fine ip mem a found'
    split at found'
    · exact fine a found'
    rename_i relayed
    rw [Bool.not_eq_true', Bool.not_eq_false] at relayed
    split at found'
    · exact fine a found'
    rcases List.mem_append.mp found' with before | new
    · exact fine a before
    · rw [List.mem_singleton.mp new]
      exact not_internal_of_relayable relayed (plain ip mem)

end Discreet

/-! ### Runs -/

/-- No address the node is given is an IPv6 text of an internal address in a
spelling the filter does not know, and its own is not internal. -/
def Plain : BookOp → Prop
  | .handleAddr _ payload _ _ => ∀ a ∈ announced payload, ¬ EvadesFilter a.ip
  | .addKnownAddress addr _ => ¬ EvadesFilter addr.ip
  | .addOperatorAddress addr _ => ¬ EvadesFilter addr.ip
  | .setExternalAddress ip _ _ => ¬ IsInternal ip
  | .discoverLocalAddresses interfaces _ _ => ∀ ip ∈ interfaces, ¬ EvadesFilter ip
  | _ => True

theorem step_discreet {op : BookOp} (discreet : Discreet m) (plain : Plain op) :
    Discreet (step sha256 m op) := by
  cases op with
  | connect addr inbound =>
      exact ⟨discreet.known, discreet.external, discreet.own, discreet.pushed⟩
  | disconnect id => exact ⟨discreet.known, discreet.external, discreet.own, discreet.pushed⟩
  | handleVersion id => exact discreet.modify id fun p => { p with versionSent := true }
  | handleVerack id now => exact discreet.handleVerack id now
  | handleGetAddr id now => exact discreet.sendAddr (discreet.getKnownAddresses now) id
  | handleAddr id payload admits now => exact discreet.handleAddr plain id admits now
  | addKnownAddress addr now => exact discreet.addKnownAddressFrom plain addr.ip now
  | addOperatorAddress addr now => exact discreet.addOperatorAddress plain now
  | setExternalAddress ip port now => exact ⟨discreet.known, plain, discreet.own, discreet.pushed⟩
  | discoverLocalAddresses interfaces listenPort now =>
      exact discreet.discoverLocalAddresses plain listenPort now
  | advertiseSelf id => exact discreet.advertiseSelf id
  | attempt addr now => exact discreet.table _

/-- **No internal address leaves the node**, as long as those it is given are
spelled as the filter knows them. -/
theorem no_internal_address_leaves {key : UInt64} {ops : List BookOp}
    (plain : ∀ op ∈ ops, Plain op) :
    ∀ msg ∈ (run sha256 key ops).pushed, ∀ a ∈ msg.addrs, ¬ IsInternal a.ip := by
  have discreet : Discreet (run sha256 key ops) :=
    List.foldlRecOn _ _ (discreet_new key) fun _ discreet op mem =>
      step_discreet discreet (plain op mem)
  exact discreet.pushed

private def outside : List UInt8 := text "9.9.9.9"

private def announcing (ip : List UInt8) : List UInt8 := addrPayload [⟨ip, 8333, 0, 0⟩]

theorem no_internal_address_leaves_outside :
    let m := run (fun _ => []) 0 [.connect noAddress true,
      .handleAddr 1 (announcing outside) (fun _ => true) fun _ => 1700000000,
      .handleGetAddr 1 1700000000]
    m.pushed.length = 1 ∧ ∀ msg ∈ m.pushed, ∀ a ∈ msg.addrs, ¬ IsInternal a.ip := by
  have plain : ¬ EvadesFilter outside := by
    rintro ⟨⟨bytes, read, -⟩, -⟩
    have dotted : pton6 outside = none := by decide
    cases dotted.symm.trans read
  refine ⟨by decide +kernel, no_internal_address_leaves fun op mem => ?_⟩
  have brings : announced (announcing outside) = [⟨outside, 8333, 0, 0⟩] := by decide
  simp only [List.mem_cons, List.not_mem_nil, or_false] at mem
  rcases mem with rfl | rfl | rfl
  · trivial
  · intro a mem
    rw [brings] at mem
    rw [List.mem_singleton.mp mem]
    exact plain
  · trivial

/-- Loopback in the spelling of an IPv4 address mapped to IPv6 passes the filter,
and is told to whoever asks. -/
theorem mapped_loopback_leaves :
    ¬ ∀ (sha256 : List UInt8 → List UInt8) (key : UInt64) (ops : List BookOp),
      ∀ msg ∈ (run sha256 key ops).pushed, ∀ a ∈ msg.addrs, ¬ IsInternal a.ip := by
  intro discreet
  have told : (run (fun _ => []) 0 [.connect noAddress true,
      .handleAddr 1 (announcing (text "::ffff:127.0.0.1")) (fun _ => true) fun _ => 1700000000,
      .handleGetAddr 1 1700000000]).pushed.map (·.addrs) =
        [[⟨text "::ffff:127.0.0.1", 8333, 1700000000, 0⟩]] := by
    decide +kernel
  obtain ⟨msg, mem, addrs⟩ := List.mem_map.mp (told ▸ List.mem_singleton_self _)
  refine discreet _ _ _ msg mem _ (addrs ▸ List.mem_singleton_self _) (.inr ?_)
  exact ⟨[0, 0, 0, 0, 0, 0, 0, 0, 0, 0, 255, 255, 127, 0, 0, 1], by decide, by decide⟩

end AddrBook

end QmaskCore
