import QmaskCore.Primitives.Block

/-!
The bytes of a block.

A block is its header, the number of its transactions, and each transaction
behind its length. `deserialize_serialize` reads back what was written, as long
as the transactions can be read back.
-/

namespace QmaskCore

namespace BlockHeader

/-- The next 32 bytes. -/
def readBytes32 (rest : List UInt8) : Bytes32 := Bytes32.ofBytes (rest.take 32)

/-- `none` where it throws. -/
def deserialize (data : List UInt8) : Option BlockHeader :=
  if data.length < serializedSize then none
  else
    some {
      version := readLE32 data
      prevBlockHash := readBytes32 (data.drop 4)
      merkleRoot := readBytes32 (data.drop 36)
      leafRoot := readBytes32 (data.drop 68)
      timestamp := readLE64 (data.drop 100)
      height := readLE32 (data.drop 108)
      bits := readLE32 (data.drop 112)
      nonce := readLE32 (data.drop 116) }

theorem readBytes32_toBytes (h : Bytes32) (rest : List UInt8) : readBytes32 (h.toBytes ++ rest) = h := by
  rw [readBytes32, List.take_left' (Bytes32.length_toBytes h), Bytes32.ofBytes_toBytes]

theorem deserialize_serialize (hdr : BlockHeader) (rest : List UInt8) :
    deserialize (hdr.serialize ++ rest) = some hdr := by
  have whole : ¬ (hdr.serialize ++ rest).length < serializedSize := by
    rw [List.length_append, length_serialize]
    omega
  rw [deserialize, if_neg whole]
  simp only [serialize, List.append_assoc]
  -- Each field starts where the ones before it end.
  have skip4 (v : UInt32) (rest : List UInt8) (n : Nat) :
      (writeLE32 v ++ rest).drop (n + 4) = rest.drop n := by
    rw [Nat.add_comm, ← length_writeLE32 v, List.drop_length_add_append]
  have skip8 (v : UInt64) (rest : List UInt8) (n : Nat) :
      (writeLE64 v ++ rest).drop (n + 8) = rest.drop n := by
    rw [Nat.add_comm, ← length_writeLE64 v, List.drop_length_add_append]
  have skip32 (h : Bytes32) (rest : List UInt8) (n : Nat) :
      (h.toBytes ++ rest).drop (n + 32) = rest.drop n := by
    rw [Nat.add_comm, ← Bytes32.length_toBytes h, List.drop_length_add_append]
  simp only [skip4, skip8, skip32, List.drop_zero, readLE32_writeLE32, readLE64_writeLE64,
    readBytes32_toBytes]

end BlockHeader

namespace Block

variable (C : TxCodec)

/-- A transaction behind its length. -/
def serializeTx (tx : Transaction) : List UInt8 :=
  writeLE32 (UInt32.ofNat (C.serialize tx).length) ++ C.serialize tx

def serialize (b : Block) : List UInt8 :=
  b.header.serialize ++ writeLE32 (UInt32.ofNat b.transactions.length) ++
    b.transactions.flatMap (serializeTx C)

/-- The loop over the transactions. -/
def deserializeTxs : Nat → List UInt8 → Option (List Transaction)
  | 0, _ => some []
  | count + 1, rest =>
      if rest.length < 4 then none
      else
        let txLen := (readLE32 rest).toNat
        let rest := rest.drop 4
        if txLen = 0 ∨ rest.length < txLen then none
        else
          match C.deserialize (rest.take txLen) with
          | none => none
          | some tx => (deserializeTxs count (rest.drop txLen)).map (tx :: ·)

/-- `none` where it throws. What lies behind the last transaction is ignored. -/
def deserialize (data : List UInt8) : Option Block :=
  if data.length < BlockHeader.serializedSize + 4 then none
  else
    match BlockHeader.deserialize data with
    | none => none
    | some header =>
        let rest := data.drop BlockHeader.serializedSize
        let txCount := (readLE32 rest).toNat
        if maxTransactions < txCount then none
        else
          match deserializeTxs C txCount (rest.drop 4) with
          | none => none
          | some txs => if fits : txs.length ≤ maxTransactions then some ⟨header, txs, fits⟩ else none

variable {C}

/-- The transaction can be read back, and takes at least a byte. -/
def TxReadable (C : TxCodec) (tx : Transaction) : Prop := C.Carries tx ∧ C.serialize tx ≠ []

theorem deserializeTxs_flatMap (behind : List UInt8) : ∀ {txs : List Transaction},
    (∀ tx ∈ txs, TxReadable C tx) →
    deserializeTxs C txs.length (txs.flatMap (serializeTx C) ++ behind) = some txs := by
  intro txs
  induction txs with
  | nil => exact fun _ => rfl
  | cons tx txs ih =>
      intro readable
      obtain ⟨carries, some⟩ := readable tx List.mem_cons_self
      have later := ih fun t mem => readable t (List.mem_cons_of_mem _ mem)
      have size : (UInt32.ofNat (C.serialize tx).length).toNat = (C.serialize tx).length :=
        UInt32.toNat_ofNat_of_lt' carries.fits
      have positive := List.length_pos_iff.mpr some
      rw [List.flatMap_cons, serializeTx, List.append_assoc, List.append_assoc, List.length_cons,
        deserializeTxs, if_neg (by simp)]
      dsimp only
      rw [readLE32_writeLE32, List.drop_left' (length_writeLE32 _), size,
        if_neg (by simp; omega), List.take_left' rfl, carries.inverts, List.drop_left' rfl]
      dsimp only
      rw [later]
      rfl

theorem deserialize_serialize {b : Block} (readable : ∀ tx ∈ b.transactions, TxReadable C tx) :
    deserialize C (b.serialize C) = some b := by
  have small : b.transactions.length < UInt32.size :=
    b.transactions_le.trans_lt (by decide)
  have count : (UInt32.ofNat b.transactions.length).toNat = b.transactions.length :=
    UInt32.toNat_ofNat_of_lt' small
  have txs := deserializeTxs_flatMap [] readable
  rw [List.append_nil] at txs
  have whole : ¬ (b.serialize C).length < BlockHeader.serializedSize + 4 := by
    simp [serialize]
  rw [deserialize, if_neg whole, serialize, List.append_assoc, BlockHeader.deserialize_serialize]
  dsimp only
  rw [List.drop_left' (BlockHeader.length_serialize _), readLE32_writeLE32, count,
    if_neg (Nat.not_lt.mpr b.transactions_le), List.drop_left' (length_writeLE32 _), txs]
  dsimp only
  rw [dif_pos b.transactions_le]

theorem length_serialize (b : Block) :
    (b.serialize C).length = BlockHeader.serializedSize + 4 +
      (b.transactions.map fun tx => 4 + (C.serialize tx).length).sum := by
  simp [serialize, List.length_flatMap, serializeTx, Nat.add_assoc]

end Block

end QmaskCore
