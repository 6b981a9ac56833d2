import Mathlib.Data.Countable.Basic
import Mathlib.Logic.Equiv.List
import QmaskCore.Mining.NonceLoop
import QmaskCore.Primitives.BlockCodec
import QmaskCore.Wallet.ProofStream

/-!
The bytes of a block, as they are handed out and taken back.

`Block.deserializeAt` is `Block::Deserialize` as the source runs it, over one
buffer with an offset that moves; `deserializeAt_eq` says it stays inside.
`serialize_prefix` is the way back from a block that was read, and
`serialize_setNonce` what a miner outside relies on who only writes a nonce into
the bytes it was given. A transaction of 2^32 bytes or more is not read back, its
length being written in 32 bits (`long_transaction_unread`).
-/

namespace QmaskCore

open LittleEndian Buffer
open NoiseProof (readLE32At readHashAt readLE32At_eq readHashAt_eq)

/-! ### Over one buffer -/

/-- `ReadLE64`, with the offset behind the word. -/
def readLE64At (data : List UInt8) (offset : Nat) : Except Halt (UInt64 × Nat) := do
  let bytes ← slice data offset 8
  return (readLE64 bytes, offset + 8)

theorem readLE64At_eq {data : List UInt8} {offset : Nat} (inside : offset + 8 ≤ data.length) :
    readLE64At data offset = .ok (readLE64 (data.drop offset), offset + 8) := by
  rw [readLE64At, slice_eq inside]
  show Except.ok (readLE64 ((data.drop offset).take 8), offset + 8) = _
  rw [readLE64, List.take_take, Nat.min_self, readLE64]

namespace BlockHeader

def deserializeAt (data : List UInt8) : Except Halt BlockHeader :=
  if data.length < serializedSize then .error .thrown
  else do
    let (version, offset) ← readLE32At data 0
    let (prevBlockHash, offset) ← readHashAt data offset
    let (merkleRoot, offset) ← readHashAt data offset
    let (leafRoot, offset) ← readHashAt data offset
    let (timestamp, offset) ← readLE64At data offset
    let (height, offset) ← readLE32At data offset
    let (bits, offset) ← readLE32At data offset
    let (nonce, _) ← readLE32At data offset
    return ⟨version, prevBlockHash, merkleRoot, leafRoot, timestamp, height, bits, nonce⟩

theorem deserializeAt_eq (data : List UInt8) :
    deserializeAt data = (deserialize data).elim (.error .thrown) .ok := by
  unfold deserializeAt deserialize
  split
  · rfl
  · rename_i long
    have inside : 120 ≤ data.length := Nat.not_lt.mp long
    simp only [readLE32At_eq (show 0 + 4 ≤ data.length by omega),
      readHashAt_eq (show 0 + 4 + 32 ≤ data.length by omega),
      readHashAt_eq (show 0 + 4 + 32 + 32 ≤ data.length by omega),
      readHashAt_eq (show 0 + 4 + 32 + 32 + 32 ≤ data.length by omega),
      readLE64At_eq (show 0 + 4 + 32 + 32 + 32 + 8 ≤ data.length by omega),
      readLE32At_eq (show 0 + 4 + 32 + 32 + 32 + 8 + 4 ≤ data.length by omega),
      readLE32At_eq (show 0 + 4 + 32 + 32 + 32 + 8 + 4 + 4 ≤ data.length by omega),
      readLE32At_eq (show 0 + 4 + 32 + 32 + 32 + 8 + 4 + 4 + 4 ≤ data.length by omega), ok_bind]
    rfl

/-- The bytes that were read. -/
theorem serialize_deserialize {data : List UInt8} {hdr : BlockHeader}
    (read : deserialize data = some hdr) : hdr.serialize = data.take serializedSize := by
  rw [deserialize] at read
  split at read
  · cases read
  rename_i long
  obtain rfl := Option.some.inj read
  have inside : 120 ≤ data.length := Nat.not_lt.mp long
  have word {n : Nat} (below : n + 4 ≤ 120) :
      writeLE32 (readLE32 (data.drop n)) = (data.drop n).take 4 := by
    refine writeLE32_readLE32 ?_
    rw [List.length_drop]
    omega
  have hash {n : Nat} (below : n + 32 ≤ 120) :
      (readBytes32 (data.drop n)).toBytes = (data.drop n).take 32 := by
    refine Bytes32.toBytes_ofBytes ?_
    rw [List.length_take, List.length_drop]
    omega
  have time : writeLE64 (readLE64 (data.drop 100)) = (data.drop 100).take 8 := by
    refine writeLE64_readLE64 ?_
    rw [List.length_drop]
    omega
  have version : writeLE32 (readLE32 data) = data.take 4 := writeLE32_readLE32 (by omega)
  simp only [serialize, serializedSize]
  rw [version, hash (by omega), hash (by omega), hash (by omega), time, word (by omega),
    word (by omega), word (by omega)]
  simp only [← List.take_add]

end BlockHeader

namespace Block

section

variable (C : TxCodec)

/-- The loop over the transactions. -/
def deserializeTxsAt (data : List UInt8) : Nat → Nat → Except Halt (List Transaction)
  | 0, _ => return []
  | count + 1, offset =>
      if data.length < offset + 4 then .error .thrown
      else do
        let (txLen, offset) ← readLE32At data offset
        if txLen = 0 ∨ data.length < offset + txLen.toNat then .error .thrown
        else do
          let bytes ← slice data offset txLen.toNat
          match C.deserialize bytes with
          | none => .error .thrown
          | some tx => do
              let txs ← deserializeTxsAt data count (offset + txLen.toNat)
              return tx :: txs

/-- `Block::Deserialize`. -/
def deserializeAt (data : List UInt8) : Except Halt Block :=
  if data.length < BlockHeader.serializedSize + 4 then .error .thrown
  else do
    let header ← BlockHeader.deserializeAt data
    let (txCount, offset) ← readLE32At data BlockHeader.serializedSize
    if maxTransactions < txCount.toNat then .error .thrown
    else do
      let txs ← deserializeTxsAt C data txCount.toNat offset
      if fits : txs.length ≤ maxTransactions then return ⟨header, txs, fits⟩ else .error .thrown

variable {C}

theorem deserializeTxsAt_eq (data : List UInt8) : ∀ {count offset : Nat}, offset ≤ data.length →
    deserializeTxsAt C data count offset =
      (deserializeTxs C count (data.drop offset)).elim (.error .thrown) .ok := by
  intro count
  induction count with
  | zero => exact fun _ => rfl
  | succ count ih =>
      intro offset inside
      have left : (data.drop offset).length = data.length - offset := List.length_drop
      have behind : (data.drop (offset + 4)).length = data.length - (offset + 4) :=
        List.length_drop
      rw [deserializeTxsAt, deserializeTxs]
      by_cases short : data.length < offset + 4
      · rw [if_pos short, if_pos (by omega)]
        rfl
      rw [if_neg short, if_neg (by omega), readLE32At_eq (by omega), ok_bind]
      dsimp only
      rw [List.drop_drop, behind]
      generalize readLE32 (data.drop offset) = txLen
      have same : (txLen = 0 ∨ data.length < offset + 4 + txLen.toNat) ↔
          (txLen.toNat = 0 ∨ data.length - (offset + 4) < txLen.toNat) := by
        rw [← UInt32.toNat_inj, UInt32.toNat_zero]
        omega
      by_cases cut : txLen.toNat = 0 ∨ data.length - (offset + 4) < txLen.toNat
      · rw [if_pos (same.mpr cut), if_pos cut]
        rfl
      rw [if_neg (mt same.mp cut), if_neg cut, slice_eq (by omega), ok_bind]
      cases C.deserialize ((data.drop (offset + 4)).take txLen.toNat) with
      | none => rfl
      | some tx =>
          dsimp only
          rw [ih (by omega), List.drop_drop]
          cases deserializeTxs C count (data.drop (offset + 4 + txLen.toNat)) with
          | none => rfl
          | some txs => rfl

/-- The checks keep every read inside the buffer. -/
theorem deserializeAt_eq (data : List UInt8) :
    deserializeAt C data = (deserialize C data).elim (.error .thrown) .ok := by
  unfold deserializeAt deserialize
  split
  · rfl
  rename_i long
  rw [BlockHeader.deserializeAt_eq]
  cases BlockHeader.deserialize data with
  | none => rfl
  | some header =>
      have inside : BlockHeader.serializedSize + 4 ≤ data.length := Nat.not_lt.mp long
      dsimp only [Option.elim_some]
      rw [ok_bind, readLE32At_eq inside, ok_bind]
      dsimp only
      split
      · rfl
      · rw [deserializeTxsAt_eq data inside, List.drop_drop]
        cases deserializeTxs C (readLE32 (data.drop BlockHeader.serializedSize)).toNat
            (data.drop (BlockHeader.serializedSize + 4)) with
        | none => rfl
        | some txs =>
            dsimp only [Option.elim_some]
            rw [ok_bind]
            split
            · rfl
            · rfl

/-! ### What was read, written again -/

/-- The slices the transactions are read from. -/
def txSlices : Nat → List UInt8 → List (List UInt8)
  | 0, _ => []
  | count + 1, rest =>
      let txLen := (readLE32 rest).toNat
      let rest := rest.drop 4
      rest.take txLen :: txSlices count (rest.drop txLen)

def slices (data : List UInt8) : List (List UInt8) :=
  txSlices (readLE32 (data.drop BlockHeader.serializedSize)).toNat
    (data.drop (BlockHeader.serializedSize + 4))

variable (C) in
/-- A transaction read from the slice serializes to it. -/
def Reserializes (bytes : List UInt8) : Prop :=
  ∀ tx, C.deserialize bytes = some tx → C.serialize tx = bytes

theorem flatMap_deserializeTxs : ∀ {count : Nat} {rest : List UInt8} {txs : List Transaction},
    deserializeTxs C count rest = some txs → (∀ bytes ∈ txSlices count rest, Reserializes C bytes) →
    txs.length = count ∧ txs.flatMap (serializeTx C) <+: rest := by
  intro count
  induction count with
  | zero =>
      intro rest txs read _
      obtain rfl := Option.some.inj read
      exact ⟨rfl, List.nil_prefix⟩
  | succ count ih =>
      intro rest txs read exact
      rw [deserializeTxs] at read
      split at read
      · cases read
      rename_i long
      dsimp only at read
      split at read
      · cases read
      rename_i whole
      rw [txSlices, List.forall_mem_cons] at exact
      obtain ⟨exact, later⟩ := exact
      split at read
      · cases read
      rename_i tx found
      obtain ⟨txs, below, rfl⟩ := Option.map_eq_some_iff.mp read
      obtain ⟨length, tail⟩ := ih below later
      have bytes := exact tx found
      have size : (C.serialize tx).length = (readLE32 rest).toNat := by
        rw [bytes, List.length_take]
        omega
      refine ⟨congrArg Nat.succ length, ?_⟩
      have own : rest = serializeTx C tx ++ (rest.drop 4).drop (readLE32 rest).toNat := by
        rw [serializeTx, size, UInt32.ofNat_toNat, writeLE32_readLE32 (by omega), bytes,
          List.append_assoc, List.take_append_drop, List.take_append_drop]
      have whole := (List.prefix_append_right_inj (serializeTx C tx)).mpr tail
      rwa [← own] at whole

/-- Trailing bytes are dropped, and nothing else. -/
theorem serialize_prefix {data : List UInt8} {b : Block} (read : deserialize C data = some b)
    (exact : ∀ bytes ∈ slices data, Reserializes C bytes) : b.serialize C <+: data := by
  rw [deserialize] at read
  split at read
  · cases read
  rename_i long
  split at read
  · cases read
  rename_i header head
  dsimp only at read
  split at read
  · cases read
  split at read
  · cases read
  rename_i txs body
  split at read
  · rename_i fits
    obtain rfl := Option.some.inj read
    rw [List.drop_drop] at body
    obtain ⟨length, tail⟩ := flatMap_deserializeTxs body exact
    have count : writeLE32 (UInt32.ofNat txs.length) =
        (data.drop BlockHeader.serializedSize).take 4 := by
      rw [length, UInt32.ofNat_toNat, writeLE32_readLE32]
      rw [List.length_drop]
      omega
    have whole := (List.prefix_append_right_inj (data.take (BlockHeader.serializedSize + 4))).mpr tail
    rw [List.take_append_drop] at whole
    rwa [serialize, BlockHeader.serialize_deserialize head, count, ← List.take_add]
  · cases read

/-! ### Writing a nonce into the bytes -/

end

end Block

/-- What `getblocktemplate` reports as `nonceoffset`. -/
def Rpc.nonceOffset : Nat := BlockHeader.serializedSize - 4

/-- The bytes with others written over them from an offset on. -/
def overwrite (data : List UInt8) (offset : Nat) (bytes : List UInt8) : List UInt8 :=
  data.take offset ++ bytes ++ data.drop (offset + bytes.length)

theorem overwrite_append (first old new last : List UInt8) (same : new.length = old.length) :
    overwrite (first ++ old ++ last) first.length new = first ++ new ++ last := by
  have kept : (first ++ old ++ last).take first.length = first := by simp
  rw [overwrite, same, ← List.length_append, List.drop_left, kept]

def Block.setNonce (nonce : UInt32) (b : Block) : Block :=
  { b with header := b.header.setNonce nonce }

theorem Block.serialize_setNonce (C : TxCodec) (b : Block) (nonce : UInt32) :
    overwrite (b.serialize C) Rpc.nonceOffset (writeLE32 nonce) =
      (b.setNonce nonce).serialize C := by
  have offset : Rpc.nonceOffset = (Miner.noncePrefix b.header).length := by
    rw [Miner.length_noncePrefix]
    rfl
  have whole (b : Block) : b.serialize C = Miner.noncePrefix b.header ++ writeLE32 b.header.nonce ++
      (writeLE32 (UInt32.ofNat b.transactions.length) ++
        b.transactions.flatMap (Block.serializeTx C)) := by
    rw [Block.serialize, Miner.serialize_eq, put32_eq, List.append_assoc]
  rw [whole, offset, overwrite_append _ _ _ _ (by rw [length_writeLE32, length_writeLE32]), whole]
  rfl

/-! ### The codec of a block -/

theorem block_codec_exact (C : TxCodec) (P : Params) :
    (∀ b : Block, (∀ tx ∈ b.transactions, Block.TxReadable C tx) →
      Block.deserializeAt C (b.serialize C) = .ok b) ∧
    (∀ b : Block, (∀ tx ∈ b.transactions, P.getSerializedSize tx = (C.serialize tx).length) →
      (b.serialize C).length = b.getSerializedSize P) ∧
    (∀ (hdr : BlockHeader) outLen, hdr.serializeTo outLen =
      if outLen < BlockHeader.serializedSize then none else some hdr.serialize) ∧
    (∀ data, Block.deserializeAt C data ≠ .error .outside) ∧
    (∀ data b, Block.deserializeAt C data = .ok b →
      (∀ bytes ∈ Block.slices data, Block.Reserializes C bytes) → b.serialize C <+: data) ∧
    ∀ (b : Block) nonce, overwrite (b.serialize C) Rpc.nonceOffset (writeLE32 nonce) =
      (b.setNonce nonce).serialize C := by
  refine ⟨fun b readable => ?_, fun b sized => ?_, BlockHeader.serializeTo_eq_ite, fun data => ?_,
    fun data b read slices => ?_, Block.serialize_setNonce C⟩
  · rw [Block.deserializeAt_eq, Block.deserialize_serialize readable, Option.elim_some]
  · have each : b.transactions.map (fun tx => 4 + (C.serialize tx).length) =
        b.transactions.map fun tx => 4 + P.getSerializedSize tx :=
      List.map_congr_left fun tx mem => by rw [sized tx mem]
    rw [Block.length_serialize, Block.getSerializedSize, each]
  · rw [Block.deserializeAt_eq]
    cases Block.deserialize C data <;> simp
  · rw [Block.deserializeAt_eq] at read
    cases found : Block.deserialize C data with
    | none =>
        rw [found] at read
        cases read
    | some b' =>
        rw [found] at read
        obtain rfl := Except.ok.inj read
        exact Block.serialize_prefix found slices

namespace SmallNetwork

/-- The coinbases of the network by what tells them apart. -/
def mintCodec : TxCodec where
  serialize tx := tx.hash.toBytes ++ tx.outputs.flatMap fun out => writeLE64 out.value.toUInt64
  deserialize bytes :=
    if bytes.length = 40 then
      some (mint (Bytes32.ofBytes (bytes.take 32)) (readLE64 (bytes.drop 32)).toInt64)
    else none

theorem txReadable_mint (hash : Bytes32) (value : Int64) :
    Block.TxReadable mintCodec (mint hash value) := by
  have bytes : mintCodec.serialize (mint hash value) = hash.toBytes ++ writeLE64 value.toUInt64 := by
    simp [mintCodec, mint, TxOutput.payTo]
  have length : (mintCodec.serialize (mint hash value)).length = 40 := by
    simp [bytes]
  refine ⟨⟨?_, by omega⟩, List.ne_nil_of_length_pos (by omega)⟩
  have read := readLE64_writeLE64 value.toUInt64 []
  rw [List.append_nil] at read
  simp only [mintCodec] at bytes length ⊢
  rw [if_pos length, bytes, List.take_left' (Bytes32.length_toBytes hash),
    List.drop_left' (Bytes32.length_toBytes hash), Bytes32.ofBytes_toBytes, read]
  simp

end SmallNetwork

open SmallNetwork in
theorem block_codec_exact_genesis :
    Block.deserializeAt mintCodec (genesis.serialize mintCodec) = .ok genesis ∧
    (genesis.serialize mintCodec).length =
      genesis.getSerializedSize { smallNetwork with getSerializedSize := fun _ => 40 } := by
  obtain ⟨inverts, sized, -⟩ := block_codec_exact mintCodec
    { smallNetwork with getSerializedSize := fun _ => 40 }
  refine ⟨inverts genesis fun tx mem => ?_, sized genesis fun tx mem => ?_⟩
  · obtain rfl := List.mem_singleton.mp mem
    exact txReadable_mint 1 50
  · obtain rfl := List.mem_singleton.mp mem
    rfl

/-! ### Transactions too long for their length -/

section

instance countableUInt8 : Countable UInt8 :=
  Function.Injective.countable fun _ _ => UInt8.toNat_inj.mp

instance countableUInt32 : Countable UInt32 :=
  Function.Injective.countable fun _ _ => UInt32.toNat_inj.mp

instance countableInt64 : Countable Int64 :=
  Function.Injective.countable fun _ _ => Int64.toInt_inj.mp

instance countableBitVec (n : Nat) : Countable (BitVec n) :=
  Function.Injective.countable fun _ _ => BitVec.eq_of_toNat_eq

instance : Countable TxInput := by
  let fields (input : TxInput) := (input.prevTxHash, input.outputIndex, input.pubkey,
    input.signature, input.kps, input.noiseProof)
  have injective : Function.Injective fields := by
    rintro ⟨⟩ ⟨⟩ same
    simpa [fields] using same
  exact injective.countable

instance : Countable TxOutput := by
  let fields (out : TxOutput) := (out.value, out.scriptPubKey)
  have injective : Function.Injective fields := by
    rintro ⟨⟩ ⟨⟩ same
    simpa [fields] using same
  exact injective.countable

instance : Countable Transaction := by
  let fields (tx : Transaction) := (tx.inputs, tx.outputs, tx.hash, tx.isCoinbase)
  have injective : Function.Injective fields := by
    rintro ⟨⟩ ⟨⟩ same
    simpa [fields] using same
  exact injective.countable

end

/-- A format that tells the transactions apart by how many bytes they take, and
none takes few. -/
theorem exists_long_codec : ∃ C : TxCodec,
    (∀ tx, C.deserialize (C.serialize tx) = some tx) ∧ (∀ tx, C.serialize tx ≠ []) ∧
    ∀ bytes : List UInt8, bytes.length < 2 ^ 32 → C.deserialize bytes = none := by
  obtain ⟨number, injective⟩ := exists_injective_nat Transaction
  refine ⟨⟨fun tx => List.replicate (2 ^ 32 + number tx) 0, fun bytes =>
    if bytes.length < 2 ^ 32 then none
    else Function.partialInv number (bytes.length - 2 ^ 32)⟩, fun tx => ?_, fun tx => ?_,
    fun bytes short => if_pos short⟩
  · dsimp only
    rw [List.length_replicate, if_neg (by omega), Nat.add_sub_cancel_left,
      Function.partialInv_left injective]
  · exact List.ne_nil_of_length_pos (by rw [List.length_replicate]; omega)

/-- The length of a transaction is written in 32 bits, so no slice is as long as
such a format needs. -/
theorem long_transaction_unread :
    ¬ ∀ C : TxCodec, (∀ tx, C.deserialize (C.serialize tx) = some tx) →
      (∀ tx, C.serialize tx ≠ []) →
      ∀ b : Block, Block.deserializeAt C (b.serialize C) = .ok b := by
  intro all
  obtain ⟨C, inverts, nonempty, short⟩ := exists_long_codec
  have read := all C inverts nonempty SmallNetwork.genesis
  have none (rest : List UInt8) : Block.deserializeTxs C 1 rest = none := by
    rw [Block.deserializeTxs]
    split
    · rfl
    dsimp only
    split
    · rfl
    rw [short]
    rw [List.length_take]
    exact (Nat.min_le_left _ _).trans_lt (UInt32.toNat_lt _)
  have count : (UInt32.ofNat SmallNetwork.genesis.transactions.length).toNat = 1 := rfl
  rw [Block.deserializeAt_eq, Block.deserialize] at read
  split at read
  · cases read
  rw [Block.serialize, List.append_assoc, BlockHeader.deserialize_serialize] at read
  dsimp only at read
  rw [List.drop_left' (BlockHeader.length_serialize _), readLE32_writeLE32, count,
    if_neg (by decide), none] at read
  cases read

end QmaskCore
