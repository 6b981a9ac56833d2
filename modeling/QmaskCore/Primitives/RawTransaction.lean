import QmaskCore.Lib.ByteReader
import QmaskCore.Primitives.Transaction

/-!
The bytes of a transaction.

`deserialize_iff` says which bytes `Transaction::Deserialize` accepts and what it
makes of them: the bytes `Serialize` writes, but that the length of a script may
be written longer than need be. `deserialize_within` says that it never reads
past the end, whatever the bytes.
-/

namespace QmaskCore

open ByteReader LittleEndian

def Bytes64.ofBytes (l : List UInt8) : Bytes64 := BitVec.ofNat 512 (ofLE l.reverse)

/-- A transaction with all its fields. -/
structure RawTransaction where
  version : UInt32
  inputs : List TxInput
  outputs : List TxOutput
  locktime : UInt64
deriving DecidableEq

/-! ### Writing -/

def TxInput.serialize (input : TxInput) (withNoiseProof : Bool) : List UInt8 :=
  input.prevTxHash.toBytes ++ writeLE32 input.outputIndex ++ input.pubkey.toBytes ++
    input.signature.toBytes ++ input.kps.toBytes ++
    if withNoiseProof then writeLE32 (UInt32.ofNat input.noiseProof.length) ++ input.noiseProof
    else []

def writeCompactSize (value : Nat) : List UInt8 :=
  if value < 253 then [UInt8.ofNat value]
  else if value ≤ 0xffff then 253 :: leBytes 2 value
  else if value ≤ 0xffffffff then 254 :: leBytes 4 value
  else 255 :: leBytes 8 value

def TxOutput.serialize (output : TxOutput) : List UInt8 :=
  writeLE64 output.value.toUInt64 ++ writeCompactSize output.scriptPubKey.length ++
    output.scriptPubKey

def RawTransaction.serialize (tx : RawTransaction) (withNoiseProof : Bool) : List UInt8 :=
  writeLE32 tx.version ++ writeLE32 (UInt32.ofNat tx.inputs.length) ++
    tx.inputs.flatMap (·.serialize withNoiseProof) ++
    writeLE32 (UInt32.ofNat tx.outputs.length) ++ tx.outputs.flatMap TxOutput.serialize ++
    writeLE64 tx.locktime

def TxInput.getSerializedSize (input : TxInput) (withNoiseProof : Bool) : Nat :=
  32 + 4 + 32 + 64 + 32 + if withNoiseProof then 4 + input.noiseProof.length else 0

def compactSizeLen (value : Nat) : Nat :=
  if value < 253 then 1 else if value ≤ 0xffff then 3 else if value ≤ 0xffffffff then 5 else 9

def TxOutput.getSerializedSize (output : TxOutput) : Nat :=
  8 + compactSizeLen output.scriptPubKey.length + output.scriptPubKey.length

def RawTransaction.getSerializedSize (tx : RawTransaction) (withNoiseProof : Bool) : Nat :=
  4 + 4 + (tx.inputs.map (·.getSerializedSize withNoiseProof)).sum + 4 +
    (tx.outputs.map TxOutput.getSerializedSize).sum + 8

/-! ### Reading -/

/-- `ReadLE32`. -/
def word32 : Reader UInt32 := readLE32 <$> bytes 4

/-- `ReadLE64`. -/
def word64 : Reader UInt64 := readLE64 <$> bytes 8

/-- `memcpy` into an array of 32 bytes. -/
def array32 : Reader Bytes32 := Bytes32.ofBytes <$> bytes 32

/-- `memcpy` into an array of 64 bytes. -/
def array64 : Reader Bytes64 := Bytes64.ofBytes <$> bytes 64

def TxInput.deserialize : Reader TxInput := do
  need 168 "Insufficient data for TxInput"
  let prevTxHash ← array32
  let outputIndex ← word32
  let pubkey ← array32
  let signature ← array64
  let kps ← array32
  let proofLen ← word32
  refuse (Transaction.maxTxSize < proofLen.toNat) "NoiseProof length implausible"
  need proofLen.toNat "Insufficient data for TxInput noise proof"
  let noiseProof ← bytes proofLen.toNat
  return { prevTxHash, outputIndex, pubkey, signature, kps, noiseProof }

def readCompactSize : Reader Nat := do
  need 1 "Insufficient data for CompactSize"
  let first ← bytes 1
  let first := first.headD 0
  if first < 253 then return first.toNat
  else if first = 253 then
    need 2 "Insufficient data for CompactSize"
    ofLE <$> bytes 2
  else if first = 254 then
    need 4 "Insufficient data for CompactSize"
    ofLE <$> bytes 4
  else
    need 8 "Insufficient data for CompactSize"
    ofLE <$> bytes 8

def TxOutput.deserialize : Reader TxOutput := do
  need 8 "Insufficient data for TxOutput"
  let value ← word64
  refuse (value.toInt64 < 0) "Negative output value"
  let scriptLen ← readCompactSize
  refuse (maxScriptSize < scriptLen) "scriptPubKey exceeds maximum script size"
  need scriptLen "Insufficient data for scriptPubKey"
  let scriptPubKey ← bytes scriptLen
  return ⟨value.toInt64, scriptPubKey⟩

/-- The reader behind `Transaction::Deserialize`; what is left over is ignored. -/
def RawTransaction.deserialize : Reader RawTransaction := do
  need 20 "Transaction data too short"
  let version ← word32
  let inputCount ← word32
  refuse (Transaction.maxInputs < inputCount.toNat) "Too many inputs"
  let inputs ← items TxInput.deserialize inputCount.toNat
  need 4 "Insufficient data for output count"
  let outputCount ← word32
  refuse (Transaction.maxOutputs < outputCount.toNat) "Too many outputs"
  let outputs ← items TxOutput.deserialize outputCount.toNat
  need 8 "Insufficient data for locktime"
  let locktime ← word64
  return { version, inputs, outputs, locktime }

/-! ### The fields -/

theorem accepts_word32 : Accepts word32 fun v taken => taken = writeLE32 v := by
  refine ((accepts_bytes 4).map readLE32).congr fun v taken => ?_
  constructor
  · rintro ⟨b, rfl, rfl, length⟩
    rw [writeLE32_readLE32 length.ge, List.take_of_length_le length.le]
  · rintro rfl
    have back := readLE32_writeLE32 v []
    rw [List.append_nil] at back
    exact ⟨_, back.symm, rfl, length_writeLE32 v⟩

theorem accepts_word64 : Accepts word64 fun v taken => taken = writeLE64 v := by
  refine ((accepts_bytes 8).map readLE64).congr fun v taken => ?_
  constructor
  · rintro ⟨b, rfl, rfl, length⟩
    rw [writeLE64_readLE64 length.ge, List.take_of_length_le length.le]
  · rintro rfl
    have back := readLE64_writeLE64 v []
    rw [List.append_nil] at back
    exact ⟨_, back.symm, rfl, length_writeLE64 v⟩

theorem accepts_array32 : Accepts array32 fun h taken => taken = h.toBytes := by
  refine ((accepts_bytes 32).map Bytes32.ofBytes).congr fun h taken => ?_
  constructor
  · rintro ⟨b, rfl, rfl, length⟩
    exact (Bytes32.toBytes_ofBytes length).symm
  · rintro rfl
    exact ⟨_, (Bytes32.ofBytes_toBytes h).symm, rfl, Bytes32.length_toBytes h⟩

theorem Bytes64.ofBytes_toBytes (h : Bytes64) : Bytes64.ofBytes h.toBytes = h := by
  rw [Bytes64.ofBytes, Bytes64.toBytes, List.reverse_reverse,
    ofLE_leBytes_of_lt (@toNat_lt_pow 64 h), BitVec.ofNat_toNat, BitVec.setWidth_eq]

theorem toNat_ofNat_bytes {k n : Nat} (fits : n < 256 ^ k) : (BitVec.ofNat (8 * k) n).toNat = n := by
  have width : 2 ^ (8 * k) = 256 ^ k := Nat.pow_mul ..
  rw [BitVec.toNat_ofNat, width, Nat.mod_eq_of_lt fits]

theorem Bytes64.toBytes_ofBytes {l : List UInt8} (length : l.length = 64) :
    (Bytes64.ofBytes l).toBytes = l := by
  have fits := ofLE_lt l.reverse
  have whole := leBytes_ofLE l.reverse
  rw [List.length_reverse, length] at fits whole
  have exact := @toNat_ofNat_bytes 64 _ fits
  rw [Bytes64.toBytes, Bytes64.ofBytes, exact, whole, List.reverse_reverse]

theorem accepts_array64 : Accepts array64 fun h taken => taken = h.toBytes := by
  refine ((accepts_bytes 64).map Bytes64.ofBytes).congr fun h taken => ?_
  constructor
  · rintro ⟨b, rfl, rfl, length⟩
    exact (Bytes64.toBytes_ofBytes length).symm
  · rintro rfl
    exact ⟨_, (Bytes64.ofBytes_toBytes h).symm, rfl, Bytes64.length_toBytes h⟩

theorem TxInput.accepts_deserialize : Accepts TxInput.deserialize fun input taken =>
    taken = input.serialize true ∧ input.noiseProof.length ≤ Transaction.maxTxSize := by
  have fields := accepts_array32.field fun prevTxHash => accepts_word32.field fun outputIndex =>
    accepts_array32.field fun pubkey => accepts_array64.field fun signature =>
    accepts_array32.field fun kps => accepts_word32.field fun proofLen =>
    (accepts_rest proofLen.toNat "Insufficient data for TxInput noise proof" fun noiseProof =>
      TxInput.mk prevTxHash outputIndex pubkey signature kps noiseProof).refuse (f := fun _ => _)
        (Transaction.maxTxSize < proofLen.toNat) "NoiseProof length implausible"
  refine (fields.congr fun input taken => ?_).need ?_ "Insufficient data for TxInput"
  · constructor
    · rintro ⟨prevTxHash, _, ⟨outputIndex, _, ⟨pubkey, _, ⟨signature, _, ⟨kps, _, ⟨proofLen,
        noiseProof, ⟨small, rfl, length⟩, rfl⟩, rfl⟩, rfl⟩, rfl⟩, rfl⟩, rfl⟩
      refine ⟨?_, length.trans_le (Nat.le_of_not_lt small)⟩
      simp [serialize, length]
    · rintro ⟨rfl, small⟩
      have length : (UInt32.ofNat input.noiseProof.length).toNat = input.noiseProof.length :=
        UInt32.toNat_ofNat_of_lt' (small.trans_lt (by decide))
      refine ⟨input.prevTxHash, _, ⟨input.outputIndex, _, ⟨input.pubkey, _, ⟨input.signature, _,
        ⟨input.kps, _, ⟨UInt32.ofNat input.noiseProof.length, input.noiseProof, ⟨?_, rfl,
        length.symm⟩, rfl⟩, rfl⟩, rfl⟩, rfl⟩, rfl⟩, ?_⟩
      · rw [length]
        exact Nat.not_lt.mpr small
      · simp [serialize]
  · rintro input _ ⟨rfl, -⟩
    simp [serialize]
    omega

/-! ### The length of a script -/

/-- The ways a length may be written: in a byte, or behind a marker in two, four
or eight, though fewer would do. -/
inductive CompactForm (value : Nat) : List UInt8 → Prop where
  | byte : value < 253 → CompactForm value [UInt8.ofNat value]
  | two : value < 256 ^ 2 → CompactForm value (253 :: leBytes 2 value)
  | four : value < 256 ^ 4 → CompactForm value (254 :: leBytes 4 value)
  | eight : value < 256 ^ 8 → CompactForm value (255 :: leBytes 8 value)

theorem accepts_le (n : Nat) (what : String) :
    Accepts (need n what >>= fun _ => ofLE <$> bytes n) fun value taken =>
      value < 256 ^ n ∧ taken = leBytes n value := by
  refine Accepts.need (((accepts_bytes n).map ofLE).congr fun value taken => ?_) ?_ what
  · constructor
    · rintro ⟨b, rfl, rfl, rfl⟩
      exact ⟨ofLE_lt b, (leBytes_ofLE b).symm⟩
    · rintro ⟨fits, rfl⟩
      exact ⟨_, (ofLE_leBytes_of_lt fits).symm, rfl, length_leBytes n value⟩
  · rintro value _ ⟨-, rfl⟩
    exact (length_leBytes n value).ge

theorem compactForm_iff (value : Nat) (taken : List UInt8) : CompactForm value taken ↔
    ∃ first back, taken = first :: back ∧
      if first < 253 then value = first.toNat ∧ back = []
      else if first = 253 then value < 256 ^ 2 ∧ back = leBytes 2 value
      else if first = 254 then value < 256 ^ 4 ∧ back = leBytes 4 value
      else value < 256 ^ 8 ∧ back = leBytes 8 value := by
  constructor
  · rintro (small | fits | fits | fits)
    · have same : (UInt8.ofNat value).toNat = value := UInt8.toNat_ofNat_of_lt' (small.trans (by decide))
      have low : UInt8.ofNat value < 253 := by
        rw [UInt8.lt_iff_toNat_lt, same]
        exact small
      exact ⟨_, _, rfl, by rw [if_pos low]; exact ⟨same.symm, rfl⟩⟩
    · exact ⟨_, _, rfl, fits, rfl⟩
    · exact ⟨_, _, rfl, fits, rfl⟩
    · exact ⟨_, _, rfl, fits, rfl⟩
  · rintro ⟨first, back, rfl, form⟩
    split_ifs at form with low two four
    · obtain ⟨rfl, rfl⟩ := form
      have small : first.toNat < 253 := UInt8.lt_iff_toNat_lt.mp low
      have byte := CompactForm.byte small
      rwa [UInt8.ofNat_toNat] at byte
    · rw [two, form.2]
      exact .two form.1
    · rw [four, form.2]
      exact .four form.1
    · have last : first = 255 := by
        rw [UInt8.lt_iff_toNat_lt] at low
        rw [← UInt8.toNat_inj] at two four ⊢
        have bound := first.toNat_lt
        change ¬ first.toNat < 253 at low
        change first.toNat ≠ 253 at two
        change first.toNat ≠ 254 at four
        change first.toNat = 255
        omega
      rw [last, form.2]
      exact .eight form.1

theorem accepts_readCompactSize : Accepts readCompactSize CompactForm := by
  have forms (first : UInt8) : Accepts
      (if first < 253 then pure first.toNat
      else if first = 253 then
        need 2 "Insufficient data for CompactSize" >>= fun _ => ofLE <$> bytes 2
      else if first = 254 then
        need 4 "Insufficient data for CompactSize" >>= fun _ => ofLE <$> bytes 4
      else need 8 "Insufficient data for CompactSize" >>= fun _ => ofLE <$> bytes 8)
      fun value back =>
        if first < 253 then value = first.toNat ∧ back = []
        else if first = 253 then value < 256 ^ 2 ∧ back = leBytes 2 value
        else if first = 254 then value < 256 ^ 4 ∧ back = leBytes 4 value
        else value < 256 ^ 8 ∧ back = leBytes 8 value := by
    split_ifs
    · exact accepts_pure _
    · exact accepts_le 2 _
    · exact accepts_le 4 _
    · exact accepts_le 8 _
  refine Accepts.need (((accepts_bytes 1).bind fun b => forms (b.headD 0)).congr
    fun value taken => ?_) ?_ "Insufficient data for CompactSize"
  · rw [compactForm_iff]
    constructor
    · rintro ⟨_, b, back, ⟨rfl, one⟩, form, rfl⟩
      obtain ⟨first, rfl⟩ := List.length_eq_one_iff.mp one
      exact ⟨first, back, rfl, form⟩
    · rintro ⟨first, back, rfl, form⟩
      exact ⟨[first], [first], back, ⟨rfl, rfl⟩, form, rfl⟩
  · rintro value _ (_ | _ | _ | _) <;> simp

/-! ### Outputs and transactions -/

/-- The bytes of an output, its script behind a length in some form. -/
def TxOutput.WrittenAs (output : TxOutput) (taken : List UInt8) : Prop :=
  0 ≤ output.value ∧ output.scriptPubKey.length ≤ maxScriptSize ∧
    ∃ length, CompactForm output.scriptPubKey.length length ∧
      taken = writeLE64 output.value.toUInt64 ++ length ++ output.scriptPubKey

theorem TxOutput.accepts_deserialize : Accepts TxOutput.deserialize TxOutput.WrittenAs := by
  have fields := accepts_word64.field fun value =>
    (accepts_readCompactSize.bind fun scriptLen =>
      (accepts_rest scriptLen "Insufficient data for scriptPubKey" fun script =>
        TxOutput.mk value.toInt64 script).refuse (f := fun _ => _)
          (maxScriptSize < scriptLen) "scriptPubKey exceeds maximum script size").refuse
      (f := fun _ => _) (value.toInt64 < 0) "Negative output value"
  refine (fields.congr fun output taken => ?_).need ?_ "Insufficient data for TxOutput"
  · constructor
    · rintro ⟨value, _, ⟨nonneg, scriptLen, length, script, form, ⟨small, rfl, rfl⟩, rfl⟩, rfl⟩
      refine ⟨Int64.not_lt.mp nonneg, Nat.le_of_not_lt small, length, form, ?_⟩
      simp
    · rintro ⟨nonneg, small, length, form, rfl⟩
      refine ⟨output.value.toUInt64, length ++ output.scriptPubKey, ⟨?_, _, length,
        output.scriptPubKey, form, ⟨Nat.not_lt.mpr small, ?_, rfl⟩, rfl⟩, ?_⟩
      · rw [Int64.toInt64_toUInt64]
        exact Int64.not_lt.mpr nonneg
      · rw [Int64.toInt64_toUInt64]
      · rw [List.append_assoc]
  · rintro output _ ⟨-, -, length, -, rfl⟩
    simp

/-- The bytes of a transaction within the bounds of its parts. -/
def RawTransaction.WrittenAs (tx : RawTransaction) (taken : List UInt8) : Prop :=
  tx.inputs.length ≤ Transaction.maxInputs ∧ tx.outputs.length ≤ Transaction.maxOutputs ∧
    (∀ input ∈ tx.inputs, input.noiseProof.length ≤ Transaction.maxTxSize) ∧
    ∃ outputs, List.Forall₂ TxOutput.WrittenAs tx.outputs outputs ∧
      taken = writeLE32 tx.version ++ writeLE32 (UInt32.ofNat tx.inputs.length) ++
        tx.inputs.flatMap (·.serialize true) ++ writeLE32 (UInt32.ofNat tx.outputs.length) ++
        outputs.flatten ++ writeLE64 tx.locktime

theorem RawTransaction.accepts_deserialize :
    Accepts RawTransaction.deserialize RawTransaction.WrittenAs := by
  have tail (version inputs) (outputCount : UInt32) :=
    (ByteReader.accepts_items TxOutput.accepts_deserialize outputCount.toNat).bind fun outputs =>
      (accepts_word64.field fun locktime =>
        accepts_pure (RawTransaction.mk version inputs outputs locktime)).need (n := 8) (by
          rintro _ _ ⟨locktime, _, -, rfl⟩
          simp) "Insufficient data for locktime"
  have fields := accepts_word32.field fun version => accepts_word32.field fun inputCount =>
    ((accepts_items_field TxInput.accepts_deserialize inputCount.toNat).bind fun inputs =>
      (accepts_word32.field fun outputCount =>
        (tail version inputs outputCount).refuse (f := fun _ => _)
          (Transaction.maxOutputs < outputCount.toNat) "Too many outputs").need (n := 4) (by
        rintro _ _ ⟨outputCount, _, -, rfl⟩
        simp) "Insufficient data for output count").refuse (f := fun _ => _)
      (Transaction.maxInputs < inputCount.toNat) "Too many inputs"
  refine (fields.congr fun tx taken => ?_).need ?_ "Transaction data too short"
  · constructor
    · rintro ⟨version, _, ⟨inputCount, _, ⟨few, inputs, _, _, ⟨countIn, small, rfl⟩,
        ⟨outputCount, _, ⟨fewOut, outputs, _, _, ⟨countOut, parts, parted, rfl⟩,
        ⟨locktime, _, ⟨rfl, rfl⟩, rfl⟩, rfl⟩, rfl⟩, rfl⟩, rfl⟩, rfl⟩
      refine ⟨countIn.trans_le (Nat.le_of_not_lt few), countOut.trans_le (Nat.le_of_not_lt fewOut),
        small, parts, parted, ?_⟩
      simp [countIn, countOut]
    · rintro ⟨few, fewOut, small, parts, parted, rfl⟩
      have countIn : (UInt32.ofNat tx.inputs.length).toNat = tx.inputs.length :=
        UInt32.toNat_ofNat_of_lt' (few.trans_lt (by decide))
      have countOut : (UInt32.ofNat tx.outputs.length).toNat = tx.outputs.length :=
        UInt32.toNat_ofNat_of_lt' (fewOut.trans_lt (by decide))
      refine ⟨tx.version, _, ⟨UInt32.ofNat tx.inputs.length, _, ⟨?_, tx.inputs, _, _,
        ⟨countIn.symm, small, rfl⟩, ⟨UInt32.ofNat tx.outputs.length, _, ⟨?_, tx.outputs, _, _,
        ⟨countOut.symm, parts, parted, rfl⟩, ⟨tx.locktime, [], ⟨rfl, rfl⟩, rfl⟩, rfl⟩, rfl⟩, rfl⟩,
        rfl⟩, ?_⟩
      · rw [countIn]
        exact Nat.not_lt.mpr few
      · rw [countOut]
        exact Nat.not_lt.mpr fewOut
      · simp
  · rintro tx _ ⟨-, -, -, parts, -, rfl⟩
    simp
    omega

/-! ### Staying inside the buffer -/

section Fields

variable {α : Type} {n : Nat}

theorem within_word32 {f : UInt32 → Reader α} (within : ∀ v, Within n (f v)) :
    Within (n + 4) (word32 >>= f) := Within.field within

theorem within_word64 {f : UInt64 → Reader α} (within : ∀ v, Within n (f v)) :
    Within (n + 8) (word64 >>= f) := Within.field within

theorem within_array32 {f : Bytes32 → Reader α} (within : ∀ h, Within n (f h)) :
    Within (n + 32) (array32 >>= f) := Within.field within

theorem within_array64 {f : Bytes64 → Reader α} (within : ∀ h, Within n (f h)) :
    Within (n + 64) (array64 >>= f) := Within.field within

theorem within_tail (what : String) (f : List UInt8 → α) :
    Within 0 (need n what >>= fun _ => bytes n >>= fun b => pure (f b)) :=
  Within.need ((Within.bytes fun b => within_pure 0 (f b)).mono (Nat.zero_add n).le)

end Fields

theorem TxInput.within_deserialize : Within 0 TxInput.deserialize :=
  Within.need <| within_array32 fun _ => within_word32 fun _ => within_array32 fun _ =>
    within_array64 fun _ => within_array32 fun _ => within_word32 fun _ =>
    Within.refuse fun _ => within_tail _ _

theorem within_readCompactSize : Within 0 readCompactSize := by
  refine Within.need (Within.bytes (n := 0) (k := 1) fun first => ?_)
  dsimp only
  split_ifs
  · exact within_pure 0 _
  · exact Within.need (Within.last le_rfl)
  · exact Within.need (Within.last le_rfl)
  · exact Within.need (Within.last le_rfl)

theorem TxOutput.within_deserialize : Within 0 TxOutput.deserialize :=
  Within.need <| within_word64 fun _ => Within.refuse fun _ =>
    within_readCompactSize.bind fun _ => Within.refuse fun _ => within_tail _ _

theorem RawTransaction.within_deserialize : Within 0 RawTransaction.deserialize := by
  refine Within.need (within_word32 fun _ => within_word32 fun inputCount => Within.refuse fun _ => ?_)
  refine ((TxInput.within_deserialize.items inputCount.toNat).mono (Nat.zero_le _)).bind fun _ => ?_
  refine Within.need (within_word32 fun outputCount => Within.refuse fun _ => ?_)
  refine (TxOutput.within_deserialize.items outputCount.toNat).bind fun _ => ?_
  exact Within.need (within_word64 fun _ => within_pure 0 _)

/-! ### The form a transaction is written in -/

theorem compactForm_writeCompactSize {value : Nat} (fits : value < 256 ^ 8) :
    CompactForm value (writeCompactSize value) := by
  rw [writeCompactSize]
  split_ifs with byte two four
  · exact .byte byte
  · exact .two (by omega)
  · exact .four (by omega)
  · exact .eight fits

theorem length_writeCompactSize (value : Nat) :
    (writeCompactSize value).length = compactSizeLen value := by
  rw [writeCompactSize, compactSizeLen]
  split_ifs <;> simp

/-- The form that is written is the shortest, and no other form is as short. -/
theorem CompactForm.writeCompactSize_le {value : Nat} {length : List UInt8}
    (form : CompactForm value length) :
    (writeCompactSize value).length ≤ length.length ∧
      ((writeCompactSize value).length = length.length → length = writeCompactSize value) := by
  rw [length_writeCompactSize, compactSizeLen, writeCompactSize]
  cases form with
  | byte small => simp [small]
  | two fits => split_ifs <;> simp <;> omega
  | four fits => split_ifs <;> simp; omega
  | eight fits => split_ifs <;> simp

/-- What `Serialize` writes and `Deserialize` accepts. -/
structure RawTransaction.Lawful (tx : RawTransaction) : Prop where
  inputs_le : tx.inputs.length ≤ Transaction.maxInputs
  outputs_le : tx.outputs.length ≤ Transaction.maxOutputs
  proofs_le : ∀ input ∈ tx.inputs, input.noiseProof.length ≤ Transaction.maxTxSize
  nonneg : ∀ output ∈ tx.outputs, 0 ≤ output.value
  scripts_le : ∀ output ∈ tx.outputs, output.scriptPubKey.length ≤ maxScriptSize

theorem TxOutput.writtenAs_serialize {output : TxOutput} (nonneg : 0 ≤ output.value)
    (small : output.scriptPubKey.length ≤ maxScriptSize) : output.WrittenAs output.serialize :=
  ⟨nonneg, small, _, compactForm_writeCompactSize (small.trans_lt (by decide)), rfl⟩

theorem TxOutput.WrittenAs.shortest {output : TxOutput} {taken : List UInt8}
    (written : output.WrittenAs taken) : output.serialize.length ≤ taken.length ∧
      (output.serialize.length = taken.length → taken = output.serialize) := by
  obtain ⟨-, -, length, form, rfl⟩ := written
  obtain ⟨le, only⟩ := form.writeCompactSize_le
  simp only [TxOutput.serialize, List.length_append]
  refine ⟨by omega, fun same => ?_⟩
  rw [only (by omega)]

theorem TxOutput.shortest_all {outputs : List TxOutput} {parts : List (List UInt8)}
    (parted : List.Forall₂ TxOutput.WrittenAs outputs parts) :
    (outputs.flatMap TxOutput.serialize).length ≤ parts.flatten.length ∧
      ((outputs.flatMap TxOutput.serialize).length = parts.flatten.length →
        parts.flatten = outputs.flatMap TxOutput.serialize) := by
  induction parted with
  | nil => exact ⟨le_rfl, fun _ => rfl⟩
  | cons written _ ih =>
      obtain ⟨le, only⟩ := written.shortest
      obtain ⟨leAll, onlyAll⟩ := ih
      simp only [List.flatMap_cons, List.flatten_cons, List.length_append]
      refine ⟨by omega, fun same => ?_⟩
      rw [only (by omega), onlyAll (by omega)]

theorem RawTransaction.Lawful.writtenAs {tx : RawTransaction} (lawful : tx.Lawful) :
    tx.WrittenAs (tx.serialize true) := by
  refine ⟨lawful.inputs_le, lawful.outputs_le, lawful.proofs_le,
    tx.outputs.map TxOutput.serialize, ?_, ?_⟩
  · refine List.forall₂_map_right_iff.mpr (List.forall₂_same.mpr fun output mem => ?_)
    exact TxOutput.writtenAs_serialize (lawful.nonneg output mem) (lawful.scripts_le output mem)
  · rw [serialize, List.flatMap_def (l := tx.outputs)]

theorem RawTransaction.WrittenAs.lawful {tx : RawTransaction} {taken : List UInt8}
    (written : tx.WrittenAs taken) : tx.Lawful := by
  obtain ⟨few, fewOut, small, parts, parted, -⟩ := written
  have both := parted.imp (S := fun output _ => (0 ≤ output.value ∧
    output.scriptPubKey.length ≤ maxScriptSize) ∧ True) fun _ _ w => ⟨⟨w.1, w.2.1⟩, trivial⟩
  have each := ((List.forall₂_and_left _ _).mp both).1
  exact ⟨few, fewOut, small, fun o mem => (each o mem).1, fun o mem => (each o mem).2⟩

theorem TxInput.length_serialize (input : TxInput) (withNoiseProof : Bool) :
    (input.serialize withNoiseProof).length = input.getSerializedSize withNoiseProof := by
  cases withNoiseProof <;> simp [serialize, getSerializedSize]; omega

theorem TxOutput.length_serialize (output : TxOutput) :
    output.serialize.length = output.getSerializedSize := by
  simp [serialize, getSerializedSize, length_writeCompactSize, Nat.add_assoc]

/-- `GetSerializedSize` is the number of bytes written. -/
theorem RawTransaction.length_serialize (tx : RawTransaction) (withNoiseProof : Bool) :
    (tx.serialize withNoiseProof).length = tx.getSerializedSize withNoiseProof := by
  have outputs : tx.outputs.map (·.serialize.length) = tx.outputs.map TxOutput.getSerializedSize :=
    List.map_congr_left fun output _ => output.length_serialize
  simp only [serialize, getSerializedSize, List.length_append, List.length_flatMap,
    TxInput.length_serialize, outputs, length_writeLE32, length_writeLE64]

namespace RawTransaction

/-- **The bytes of a transaction.** `Deserialize` stays inside the buffer whatever it
is given. It accepts the bytes of the transactions within the bounds, each script
behind its length in any form, with anything behind them, and nothing else. The
bytes `Serialize` writes are accepted, as many as `GetSerializedSize` says, and no
other bytes of the transaction are as few. -/
theorem deserialize_exact (data : List UInt8) :
    deserialize data ≠ .error .outOfBounds ∧
      (∀ (tx : RawTransaction) rest, deserialize data = .ok (tx, rest) ↔
        ∃ taken, tx.WrittenAs taken ∧ data = taken ++ rest) ∧
      ∀ (tx : RawTransaction) taken, tx.WrittenAs taken →
        tx.WrittenAs (tx.serialize true) ∧
          (tx.serialize true).length = tx.getSerializedSize true ∧
          tx.getSerializedSize true ≤ taken.length ∧
          (tx.getSerializedSize true = taken.length → taken = tx.serialize true) := by
  refine ⟨within_deserialize data (Nat.zero_le _), accepts_deserialize data, ?_⟩
  intro tx taken written
  refine ⟨written.lawful.writtenAs, tx.length_serialize true, ?_⟩
  obtain ⟨-, -, -, parts, parted, rfl⟩ := written
  obtain ⟨le, only⟩ := TxOutput.shortest_all parted
  rw [← length_serialize]
  simp only [serialize, List.length_append]
  refine ⟨by omega, fun same => ?_⟩
  rw [only (by omega)]

end RawTransaction

/-! ### What the hashes commit to -/

namespace RawTransaction

/-- `ComputeHash`: what the id of a transaction is the digest of. -/
def idPreimage (tx : RawTransaction) : List UInt8 := tx.serialize false

/-- What `GetSignatureHash` hashes: every signature is taken for zeros, the noise
proofs are left out, and the index of the input that is signed comes last. -/
def signaturePreimage (tx : RawTransaction) (inputIndex : Nat) : List UInt8 :=
  writeLE32 tx.version ++ writeLE32 (UInt32.ofNat tx.inputs.length) ++
    (tx.inputs.flatMap fun input => input.prevTxHash.toBytes ++ writeLE32 input.outputIndex ++
      input.pubkey.toBytes ++ Bytes64.toBytes 0 ++ input.kps.toBytes) ++
    writeLE32 (UInt32.ofNat tx.outputs.length) ++ tx.outputs.flatMap TxOutput.serialize ++
    writeLE64 tx.locktime ++ writeLE32 (UInt32.ofNat inputIndex)

/-- The transaction without its noise proofs. -/
def withoutProofs (tx : RawTransaction) : RawTransaction :=
  { tx with inputs := tx.inputs.map fun input => { input with noiseProof := [] } }

/-- The transaction without its noise proofs and signatures. -/
def unsigned (tx : RawTransaction) : RawTransaction :=
  { tx with inputs := tx.inputs.map fun input => { input with signature := 0, noiseProof := [] } }

end RawTransaction

/-- The fixed fields of an input determine it up to its noise proof. -/
theorem TxInput.serialize_false_inj {a b : TxInput} (same : a.serialize false = b.serialize false) :
    { a with noiseProof := [] } = { b with noiseProof := [] } := by
  simp only [serialize, Bool.false_eq_true, if_false, List.append_nil, List.append_assoc] at same
  obtain ⟨prev, same⟩ := List.append_inj same (by simp)
  obtain ⟨index, same⟩ := List.append_inj same (by simp)
  obtain ⟨pubkey, same⟩ := List.append_inj same (by simp)
  obtain ⟨signature, kps⟩ := List.append_inj same (by simp)
  have word {v w : UInt32} (eq : writeLE32 v = writeLE32 w) : v = w := by
    rw [← readLE32_writeLE32 v [], eq, readLE32_writeLE32]
  rw [TxInput.mk.injEq]
  exact ⟨Bytes32.toBytes_inj prev, word index, Bytes32.toBytes_inj pubkey,
    Bytes64.toBytes_inj signature, Bytes32.toBytes_inj kps, rfl⟩

/-- Inputs one after the other, with something behind them. -/
theorem TxInput.flatMap_inj {x y : List UInt8} {as bs : List TxInput} (length : as.length = bs.length)
    (same : as.flatMap (·.serialize false) ++ x = bs.flatMap (·.serialize false) ++ y) :
    (as.map fun input => { input with noiseProof := [] }) =
      (bs.map fun input => { input with noiseProof := [] }) ∧ x = y := by
  induction as generalizing bs with
  | nil =>
      obtain rfl := List.eq_nil_of_length_eq_zero length.symm
      exact ⟨rfl, same⟩
  | cons a as ih =>
      obtain ⟨b, bs, rfl⟩ := List.exists_cons_of_length_eq_add_one length.symm
      rw [List.flatMap_cons, List.flatMap_cons, List.append_assoc, List.append_assoc] at same
      obtain ⟨first, rest⟩ := List.append_inj same (by
        simp only [length_serialize, getSerializedSize, Bool.false_eq_true, if_false])
      obtain ⟨tail, behind⟩ := ih (Nat.succ_inj.mp length) rest
      rw [List.map_cons, List.map_cons, serialize_false_inj first, tail]
      exact ⟨rfl, behind⟩

/-- Outputs one after the other, with something behind them. -/
theorem TxOutput.flatMap_inj {x y : List UInt8} {as bs : List TxOutput} (length : as.length = bs.length)
    (lawfulA : ∀ o ∈ as, 0 ≤ o.value ∧ o.scriptPubKey.length ≤ maxScriptSize)
    (lawfulB : ∀ o ∈ bs, 0 ≤ o.value ∧ o.scriptPubKey.length ≤ maxScriptSize)
    (same : as.flatMap TxOutput.serialize ++ x = bs.flatMap TxOutput.serialize ++ y) :
    as = bs ∧ x = y := by
  have written {l : List TxOutput}
      (lawful : ∀ o ∈ l, 0 ≤ o.value ∧ o.scriptPubKey.length ≤ maxScriptSize) :
      ∃ parts, List.Forall₂ TxOutput.WrittenAs l parts ∧
        l.flatMap TxOutput.serialize = parts.flatten := by
    refine ⟨l.map TxOutput.serialize, ?_, List.flatMap_def⟩
    refine List.forall₂_map_right_iff.mpr (List.forall₂_same.mpr fun output mem => ?_)
    exact TxOutput.writtenAs_serialize (lawful output mem).1 (lawful output mem).2
  exact (ByteReader.accepts_items TxOutput.accepts_deserialize bs.length).unique
    ⟨length, written lawfulA⟩ ⟨rfl, written lawfulB⟩ same

namespace RawTransaction

theorem Lawful.outputs {tx : RawTransaction} (lawful : tx.Lawful) :
    ∀ o ∈ tx.outputs, 0 ≤ o.value ∧ o.scriptPubKey.length ≤ maxScriptSize :=
  fun o mem => ⟨lawful.nonneg o mem, lawful.scripts_le o mem⟩

theorem writeLE32_inj {v w : UInt32} (same : writeLE32 v = writeLE32 w) : v = w := by
  rw [← readLE32_writeLE32 v [], same, readLE32_writeLE32]

/-- The counts of two lists of parts survive the cast. -/
theorem length_eq_of_count {n m : Nat} (leN : n ≤ 1000) (leM : m ≤ 1000)
    (same : writeLE32 (UInt32.ofNat n) = writeLE32 (UInt32.ofNat m)) : n = m := by
  have counts := congrArg UInt32.toNat (writeLE32_inj same)
  rwa [UInt32.toNat_ofNat_of_lt' (leN.trans_lt (by decide)),
    UInt32.toNat_ofNat_of_lt' (leM.trans_lt (by decide))] at counts

theorem idPreimage_append_inj {a b : RawTransaction} (lawfulA : a.Lawful) (lawfulB : b.Lawful)
    {x y : List UInt8} (same : a.idPreimage ++ x = b.idPreimage ++ y) :
    a.withoutProofs = b.withoutProofs ∧ x = y := by
  simp only [idPreimage, serialize, List.append_assoc] at same
  obtain ⟨version, same⟩ := List.append_inj same (by simp)
  obtain ⟨inCount, same⟩ := List.append_inj same (by simp)
  obtain ⟨inputs, same⟩ :=
    TxInput.flatMap_inj (length_eq_of_count lawfulA.inputs_le lawfulB.inputs_le inCount) same
  obtain ⟨outCount, same⟩ := List.append_inj same (by simp)
  obtain ⟨outputs, same⟩ :=
    TxOutput.flatMap_inj (length_eq_of_count lawfulA.outputs_le lawfulB.outputs_le outCount)
      lawfulA.outputs lawfulB.outputs same
  obtain ⟨locktime, behind⟩ := List.append_inj same (by simp)
  have time : a.locktime = b.locktime := by
    rw [← readLE64_writeLE64 a.locktime [], locktime, readLE64_writeLE64]
  refine ⟨?_, behind⟩
  rw [withoutProofs, withoutProofs, RawTransaction.mk.injEq]
  exact ⟨writeLE32_inj version, inputs, outputs, time⟩

theorem idPreimage_withoutProofs (tx : RawTransaction) :
    tx.withoutProofs.idPreimage = tx.idPreimage := by
  simp [idPreimage, serialize, withoutProofs, List.flatMap_map, TxInput.serialize]

/-- The signature is over the id preimage of the unsigned transaction, and the index. -/
theorem signaturePreimage_eq (tx : RawTransaction) (inputIndex : Nat) :
    tx.signaturePreimage inputIndex =
      tx.unsigned.idPreimage ++ writeLE32 (UInt32.ofNat inputIndex) := by
  simp [signaturePreimage, idPreimage, serialize, unsigned, List.flatMap_map, TxInput.serialize]

theorem Lawful.unsigned {tx : RawTransaction} (lawful : tx.Lawful) : tx.unsigned.Lawful where
  inputs_le := by rw [RawTransaction.unsigned, List.length_map]; exact lawful.inputs_le
  outputs_le := lawful.outputs_le
  proofs_le := by
    intro input mem
    obtain ⟨_, -, rfl⟩ := List.mem_map.mp mem
    exact Nat.zero_le _
  nonneg := lawful.nonneg
  scripts_le := lawful.scripts_le

theorem withoutProofs_unsigned (tx : RawTransaction) : tx.unsigned.withoutProofs = tx.unsigned := by
  simp [withoutProofs, unsigned]

/-- **What is hashed.** The bytes the id of a transaction is the digest of determine
all of it but the noise proofs. Those a signature is made for determine all of it but
the noise proofs and the signatures, and which input is signed. -/
theorem preimages_exact {a b : RawTransaction} (lawfulA : a.Lawful) (lawfulB : b.Lawful) :
    (a.idPreimage = b.idPreimage ↔ a.withoutProofs = b.withoutProofs) ∧
      ∀ i < a.inputs.length, ∀ j < b.inputs.length,
        (a.signaturePreimage i = b.signaturePreimage j ↔ a.unsigned = b.unsigned ∧ i = j) := by
  refine ⟨⟨fun same => ?_, fun same => ?_⟩, fun i insideA j insideB => ⟨fun same => ?_, ?_⟩⟩
  · exact (idPreimage_append_inj lawfulA lawfulB (congrArg (· ++ []) same)).1
  · rw [← idPreimage_withoutProofs a, same, idPreimage_withoutProofs]
  · rw [signaturePreimage_eq, signaturePreimage_eq] at same
    obtain ⟨fields, index⟩ := idPreimage_append_inj lawfulA.unsigned lawfulB.unsigned same
    rw [withoutProofs_unsigned, withoutProofs_unsigned] at fields
    exact ⟨fields, length_eq_of_count (insideA.le.trans lawfulA.inputs_le)
      (insideB.le.trans lawfulB.inputs_le) index⟩
  · rintro ⟨fields, rfl⟩
    rw [signaturePreimage_eq, signaturePreimage_eq, fields]

/-- A transaction with a noise proof, and the same with another. -/
def proofed (noiseProof : List UInt8) : RawTransaction :=
  ⟨1, [⟨1, 0, 2, 3, 4, noiseProof⟩], [⟨7, [0x6a]⟩], 0⟩

theorem lawful_proofed (byte : UInt8) : (proofed [byte]).Lawful where
  inputs_le := by simp [proofed, Transaction.maxInputs]
  outputs_le := by simp [proofed, Transaction.maxOutputs]
  proofs_le := by simp [proofed, Transaction.maxTxSize]
  nonneg := by simp [proofed]
  scripts_le := by simp [proofed, maxScriptSize]

theorem preimages_exact_proofed :
    ((proofed [5]).idPreimage = (proofed [6]).idPreimage ↔
        (proofed [5]).withoutProofs = (proofed [6]).withoutProofs) ∧
      ∀ i < (proofed [5]).inputs.length, ∀ j < (proofed [6]).inputs.length,
        ((proofed [5]).signaturePreimage i = (proofed [6]).signaturePreimage j ↔
          (proofed [5]).unsigned = (proofed [6]).unsigned ∧ i = j) :=
  preimages_exact (lawful_proofed 5) (lawful_proofed 6)

end RawTransaction

end QmaskCore
