import QmaskCore.Lib.Buffer
import QmaskCore.Net.Announcements

/-!
Addresses on the wire.

`handleAddrAt` is the loop of `HandleAddr` as the source runs it, over one
payload with an offset that moves; `handleAddrAt_eq` compares it with
`announced`. `addr_wire_iff` says which addresses survive from `SendAddr` to the
other side, and that no payload makes the loop read beyond its end.
-/

namespace QmaskCore

open LittleEndian Inet Buffer Scan

/-- The loop, with the turns it takes. A turn that stops the loop counts. -/
def readAddrsAt (payload : List UInt8) : Nat → Nat → Except Halt (List NetAddress × Nat)
  | 0, _ => return ([], 0)
  | count + 1, offset =>
      if payload.length < offset + 2 then return ([], 1)
      else do
        let port ← slice payload offset 2
        let offset := offset + 2
        if payload.length < offset + 4 then return ([], 1)
        else do
          let length ← slice payload offset 4
          let ipLen := (readLE32 length).toNat
          let offset := offset + 4
          if ipLen = 0 ∨ 64 < ipLen then return ([], 1)
          else if payload.length < offset + ipLen then return ([], 1)
          else do
            let ip ← slice payload offset ipLen
            let (later, turns) ← readAddrsAt payload count (offset + ipLen)
            if 0 < ofLE port ∧ ofLE port < 65535 then
              return (⟨ip, UInt16.ofNat (ofLE port), 0, 0⟩ :: later, turns + 1)
            else return (later, turns + 1)

/-- The addresses of a payload and the turns of the loop. -/
def handleAddrAt (payload : List UInt8) : Except Halt (List NetAddress × Nat) :=
  if payload.length < 4 then return ([], 0)
  else do
    let count ← slice payload 0 4
    if maxAddrToSend < (readLE32 count).toNat then return ([], 0)
    else readAddrsAt payload (readLE32 count).toNat 4

variable {payload : List UInt8}

/-- The checks keep every read inside the payload. -/
theorem readAddrsAt_eq : ∀ (count offset : Nat), ∃ turns ≤ count,
    readAddrsAt payload count offset = .ok (readAddrs count (payload.drop offset), turns) := by
  intro count
  induction count with
  | zero => exact fun offset => ⟨0, le_rfl, rfl⟩
  | succ count ih =>
      intro offset
      unfold readAddrsAt readAddrs
      rw [List.length_drop]
      split
      · rename_i cut
        rw [if_pos (by omega)]
        exact ⟨1, by omega, rfl⟩
      rename_i port
      rw [if_neg (by omega), slice_eq (by omega), ok_bind]
      dsimp only
      rw [List.length_drop, List.length_drop]
      split
      · rename_i cut
        rw [if_pos (by omega)]
        exact ⟨1, by omega, rfl⟩
      rename_i length
      rw [if_neg (by omega), slice_eq (by omega), ok_bind, readLE32_take, List.drop_drop]
      generalize (readLE32 (payload.drop (offset + 2))).toNat = ipLen
      split
      · exact ⟨1, by omega, rfl⟩
      rename_i sized
      simp only [List.length_drop, List.drop_drop]
      split
      · rename_i cut
        rw [if_pos (by omega)]
        exact ⟨1, by omega, rfl⟩
      rename_i whole
      obtain ⟨turns, few, later⟩ := ih (offset + 2 + 4 + ipLen)
      rw [if_neg (by omega), slice_eq (by omega), ok_bind, later, ok_bind]
      dsimp only
      split
      · exact ⟨turns + 1, by omega, rfl⟩
      · exact ⟨turns + 1, by omega, rfl⟩

/-- Whatever the payload, the loop reads what is `announced` and takes no more
turns than the payload says. -/
theorem handleAddrAt_eq (payload : List UInt8) : ∃ turns ≤ (readLE32 payload).toNat,
    handleAddrAt payload = .ok (announced payload, turns) := by
  unfold handleAddrAt announced
  split
  · exact ⟨0, Nat.zero_le _, rfl⟩
  · rw [slice_eq (by omega), ok_bind, List.drop_zero, readLE32_take]
    split
    · exact ⟨0, Nat.zero_le _, rfl⟩
    · exact readAddrsAt_eq _ 4

/-! ### Both ways -/

/-- The address and the port, which is all that goes on the wire. -/
def NetAddress.onWire (a : NetAddress) : NetAddress := ⟨a.ip, a.port, 0, 0⟩

/-- What `SendAddr` writes for one address. -/
def addrRecord (a : NetAddress) : List UInt8 :=
  leBytes 2 a.port.toNat ++ (writeLE32 (UInt32.ofNat a.ip.length) ++ a.ip)

/-- An address that `HandleAddr` does not take for the end of the list. -/
structure NetAddress.Sized (a : NetAddress) : Prop where
  nonempty : 1 ≤ a.ip.length
  short : a.ip.length ≤ 64
  port : a.port ≠ 0

/-- One record, with whatever follows it. -/
theorem readAddrs_addrRecord {a : NetAddress} (sized : a.Sized) (count : Nat)
    (rest : List UInt8) : readAddrs (count + 1) (addrRecord a ++ rest) =
      if a.port = 65535 then readAddrs count rest else a.onWire :: readAddrs count rest := by
  have port : (leBytes 2 a.port.toNat).length = 2 := length_leBytes _ _
  have fits : a.port.toNat < 256 ^ 2 := a.port.toNat_lt
  have long : (UInt32.ofNat a.ip.length).toNat = a.ip.length :=
    UInt32.toNat_ofNat_of_lt' (sized.short.trans_lt (by decide))
  have given := sized.nonempty
  have short := sized.short
  have record : addrRecord a ++ rest = leBytes 2 a.port.toNat ++
      (writeLE32 (UInt32.ofNat a.ip.length) ++ (a.ip ++ rest)) := by
    rw [addrRecord, List.append_assoc, List.append_assoc]
  have positive : 0 < a.port.toNat :=
    Nat.pos_of_ne_zero fun zero => sized.port (UInt16.toNat_inj.mp zero)
  rw [record, readAddrs, if_neg (by rw [List.length_append, port]; omega), List.take_left' port,
    List.drop_left' port, ofLE_leBytes_of_lt fits]
  dsimp only
  rw [if_neg (by rw [List.length_append, length_writeLE32]; omega), readLE32_writeLE32, long,
    List.drop_left' (length_writeLE32 _), if_neg (by omega),
    if_neg (by rw [List.length_append]; omega), List.take_left, List.drop_left, UInt16.ofNat_toNat]
  by_cases last : a.port = 65535
  · have top : a.port.toNat = 65535 := by rw [last]; rfl
    rw [if_pos last, if_neg (by omega)]
  · have below : a.port.toNat ≠ 65535 := fun top => last (UInt16.toNat_inj.mp top)
    rw [if_neg last, if_pos (by omega)]
    rfl

/-- The addresses of a payload, but for those with the last of all ports. -/
theorem announced_addrPayload {addrs : List NetAddress} (few : addrs.length ≤ maxAddrToSend)
    (sized : ∀ a ∈ addrs, a.Sized) : announced (addrPayload addrs) =
      (addrs.filter fun a => a.port ≠ 65535).map (·.onWire) := by
  have count : (UInt32.ofNat addrs.length).toNat = addrs.length :=
    UInt32.toNat_ofNat_of_lt' (few.trans_lt (by decide))
  have records : ∀ addrs : List NetAddress, (∀ a ∈ addrs, a.Sized) →
      readAddrs addrs.length (addrs.flatMap addrRecord) =
        (addrs.filter fun a => a.port ≠ 65535).map (·.onWire) := by
    intro addrs
    induction addrs with
    | nil => exact fun _ => rfl
    | cons a addrs ih =>
        intro sized
        rw [List.flatMap_cons, List.length_cons, readAddrs_addrRecord (sized a List.mem_cons_self),
          ih fun b mem => sized b (List.mem_cons_of_mem a mem), List.filter_cons]
        by_cases last : a.port = 65535
        · simp [last]
        · simp [last]
  have payload : addrPayload addrs =
      writeLE32 (UInt32.ofNat addrs.length) ++ addrs.flatMap addrRecord := rfl
  rw [payload, announced, if_neg (by rw [List.length_append, length_writeLE32]; omega),
    readLE32_writeLE32, count, if_neg (by omega), List.drop_left' (length_writeLE32 _),
    records addrs sized]

/-- **Addresses on the wire.** What `SendAddr` writes for some addresses the loop
of `HandleAddr` reads back if and only if none has the port 65535; and on any
bytes it stays inside them and takes no more turns than they say. -/
theorem addr_wire_iff {addrs : List NetAddress} (few : addrs.length ≤ maxAddrToSend)
    (sized : ∀ a ∈ addrs, a.Sized) :
    ((∃ turns, handleAddrAt (addrPayload addrs) = .ok (addrs.map (·.onWire), turns)) ↔
      ∀ a ∈ addrs, a.port ≠ 65535) ∧
    ∀ payload, ∃ out, ∃ turns ≤ (readLE32 payload).toNat,
      handleAddrAt payload = .ok (out, turns) := by
  refine ⟨?_, fun payload => ?_⟩
  · obtain ⟨turns, -, read⟩ := handleAddrAt_eq (addrPayload addrs)
    rw [announced_addrPayload few sized] at read
    constructor
    · rintro ⟨turns', whole⟩ a mem last
      rw [read] at whole
      have same := congrArg List.length (Prod.ext_iff.mp (Except.ok.inj whole)).1
      rw [List.length_map, List.length_map] at same
      have all := List.length_filter_eq_length_iff.mp same a mem
      exact absurd last (of_decide_eq_true all)
    · intro low
      refine ⟨turns, ?_⟩
      rw [read, List.filter_eq_self.mpr fun a mem => decide_eq_true (low a mem)]
  · obtain ⟨turns, fewer, read⟩ := handleAddrAt_eq payload
    exact ⟨_, turns, fewer, read⟩

/-- A public address at a port. -/
def publicAddress (port : UInt16) : NetAddress := ⟨text "8.8.8.8", port, 0, 0⟩

theorem sized_publicAddress {port : UInt16} (given : port ≠ 0) : (publicAddress port).Sized where
  nonempty := show 1 ≤ (text "8.8.8.8").length by decide
  short := show (text "8.8.8.8").length ≤ 64 by decide
  port := given

theorem common_port_survives :
    ((∃ turns, handleAddrAt (addrPayload [publicAddress 8333]) =
        .ok ([publicAddress 8333].map (·.onWire), turns)) ↔
      ∀ a ∈ [publicAddress 8333], a.port ≠ 65535) ∧
    ∀ payload, ∃ out, ∃ turns ≤ (readLE32 payload).toNat,
      handleAddrAt payload = .ok (out, turns) := by
  refine addr_wire_iff (by decide) fun a mem => ?_
  rw [List.mem_singleton.mp mem]
  exact sized_publicAddress (by decide)

/-- An address at the last of all ports is dropped. -/
theorem last_port_dropped : ¬ ∀ addrs : List NetAddress, addrs.length ≤ maxAddrToSend →
    (∀ a ∈ addrs, isRelayableAddress a.ip = true ∧ a.Sized) →
    ∃ turns, handleAddrAt (addrPayload addrs) = .ok (addrs.map (·.onWire), turns) := by
  intro all
  have sized : (publicAddress 65535).Sized := sized_publicAddress (by decide)
  have relayable : isRelayableAddress (publicAddress 65535).ip = true := by decide +kernel
  obtain ⟨turns, whole⟩ := all [publicAddress 65535] (by decide) fun a mem => by
    rw [List.mem_singleton.mp mem]
    exact ⟨relayable, sized⟩
  obtain ⟨turns', -, read⟩ := handleAddrAt_eq (addrPayload [publicAddress 65535])
  have none : announced (addrPayload [publicAddress 65535]) = [] := by
    refine announced_addrPayload (by decide) fun a mem => ?_
    rw [List.mem_singleton.mp mem]
    exact sized
  rw [whole, none] at read
  cases read

end QmaskCore
