import QmaskCore.Primitives.Bytes

/-!
Output scripts: the two templates the node understands.

A script is a byte string. `Script.isPayToPubkeyHash` recognises the payment
template byte for byte, `Script.getOp` reads one operation and `solver` sorts
a script into the payment template, the data carrier or neither.
`isPayToPubkeyHash_createPayToPubkeyHash` is the round trip the coin store
relies on: the script built for a hash yields that hash.
-/

namespace QmaskCore

/-! ### Opcodes -/

def op0 : UInt8 := 0x00
def opPushData1 : UInt8 := 0x4c
def opPushData2 : UInt8 := 0x4d
def opPushData4 : UInt8 := 0x4e
def opReturn : UInt8 := 0x6a
def opDup : UInt8 := 0x76
def opEqualVerify : UInt8 := 0x88
def opSha256 : UInt8 := 0xa8
def opCheckSig : UInt8 := 0xac

def maxScriptSize : Nat := 10000

inductive TxoutType where
  | nonstandard
  | pubkeyHash
  | nullData
deriving DecidableEq, Repr

abbrev Script := List UInt8

/-- The payload of `len` bytes at the head of `rest`, and what follows it. -/
def takePush (len : Nat) (rest : List UInt8) : Option (List UInt8 × List UInt8) :=
  if rest.length < len then none else some (rest.take len, rest.drop len)

/-- One operation at the head of the script: the opcode, the bytes it pushes
and the script behind it. -/
def Script.getOp : Script → Option (UInt8 × List UInt8 × Script)
  | [] => none
  | opcode :: rest =>
      if 0x01 ≤ opcode ∧ opcode ≤ 0x4b then
        (takePush opcode.toNat rest).map fun p => (opcode, p.1, p.2)
      else if opcode = opPushData1 then
        match rest with
        | len :: rest => (takePush len.toNat rest).map fun p => (opPushData1, p.1, p.2)
        | [] => none
      else if opcode = opPushData2 then
        match rest with
        | b0 :: b1 :: rest =>
            (takePush (LittleEndian.ofLE [b0, b1]) rest).map fun p => (opPushData2, p.1, p.2)
        | _ => none
      else if opcode = opPushData4 then
        match rest with
        | b0 :: b1 :: b2 :: b3 :: rest =>
            let len := LittleEndian.ofLE [b0, b1, b2, b3]
            if maxScriptSize < len then none
            else (takePush len rest).map fun p => (opPushData4, p.1, p.2)
        | _ => none
      else some (opcode, [], rest)

/-- A script no input can ever satisfy: a data carrier, or one past the size limit. -/
def Script.isUnspendable (s : Script) : Bool :=
  s.head? = some opReturn || maxScriptSize < s.length

/-- The hash inside the payment template
`OP_DUP OP_SHA256 0x20 <32 bytes> OP_EQUALVERIFY OP_CHECKSIG`, byte for byte. -/
def Script.isPayToPubkeyHash (s : Script) : Option Bytes32 :=
  if s.length = 37 ∧ s[0]? = some opDup ∧ s[1]? = some opSha256 ∧ s[2]? = some 0x20 ∧
      s[35]? = some opEqualVerify ∧ s[36]? = some opCheckSig then
    some (Bytes32.ofBytes ((s.drop 3).take 32))
  else none

/-- The opcodes that only push data. -/
def isPush (opcode : UInt8) : Bool :=
  opcode = op0 || (0x01 ≤ opcode && opcode ≤ 0x4b) || opcode = opPushData1 ||
    opcode = opPushData2 || opcode = opPushData4

/-- The concatenated pushes of a data carrier, `none` as soon as an operation
does not parse or is not a push. Each operation takes at least one byte, so
the script's length bounds the number of turns. -/
def nullDataPayload : Nat → Script → List UInt8 → Option (List UInt8)
  | _, [], payload => some payload
  | 0, _ :: _, _ => none
  | fuel + 1, script, payload =>
      match script.getOp with
      | none => none
      | some (opcode, chunk, rest) =>
          if isPush opcode then nullDataPayload fuel rest (payload ++ chunk) else none

/-- The template a script follows and the data it carries. -/
def solver (scriptPubKey : Script) : TxoutType × List (List UInt8) :=
  match scriptPubKey.isPayToPubkeyHash with
  | some hash => (.pubkeyHash, [hash.toBytes])
  | none =>
      match scriptPubKey with
      | opcode :: rest =>
          if opcode = opReturn then
            match nullDataPayload rest.length rest [] with
            | some payload => (.nullData, [payload])
            | none => (.nonstandard, [])
          else (.nonstandard, [])
      | [] => (.nonstandard, [])

/-- The payment script for a noise-bound public key hash. -/
def createPayToPubkeyHash (pubkeyHash : Bytes32) : Script :=
  [opDup, opSha256, 0x20] ++ pubkeyHash.toBytes ++ [opEqualVerify, opCheckSig]

/-- `Script::PushData`: the bytes a push adds. -/
def pushData (data : List UInt8) : Script :=
  if data.length = 0 then [op0]
  else if data.length ≤ 75 then UInt8.ofNat data.length :: data
  else if data.length ≤ 0xff then opPushData1 :: UInt8.ofNat data.length :: data
  else if data.length ≤ 0xffff then
    opPushData2 :: (LittleEndian.leBytes 2 data.length ++ data)
  else opPushData4 :: (LittleEndian.leBytes 4 data.length ++ data)

def createNullData (data : List UInt8) : Script := opReturn :: pushData data

def extractPubkeyHash (scriptPubKey : Script) : Option Bytes32 :=
  scriptPubKey.isPayToPubkeyHash

/-- The payment script of a hash carries that hash. -/
theorem isPayToPubkeyHash_createPayToPubkeyHash (h : Bytes32) :
    (createPayToPubkeyHash h).isPayToPubkeyHash = some h := by
  have len := h.length_toBytes
  have body : ((createPayToPubkeyHash h).drop 3).take 32 = h.toBytes := by
    simp [createPayToPubkeyHash, List.take_left' len]
  have tail (i : Nat) : (createPayToPubkeyHash h)[35 + i]? = [opEqualVerify, opCheckSig][i]? := by
    rw [createPayToPubkeyHash, List.getElem?_append_right (by simp)]
    simp
  have shape : (createPayToPubkeyHash h).length = 37 := by simp [createPayToPubkeyHash]
  rw [Script.isPayToPubkeyHash, body, Bytes32.ofBytes_toBytes, if_pos]
  exact ⟨shape, rfl, rfl, rfl, tail 0, tail 1⟩

end QmaskCore
