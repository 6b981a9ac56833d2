import QmaskCore.Primitives.Transaction

/-!
Block headers and blocks.

The hash function is a parameter: every definition that hashes takes the
digest `sha256`. `BlockHeader.serialize_injective` says the 120 bytes that are
hashed determine the header, so two headers share a hash only when the digest
collides.
-/

namespace QmaskCore

structure BlockHeader where
  version : UInt32
  prevBlockHash : Bytes32
  merkleRoot : Bytes32
  leafRoot : Bytes32
  timestamp : UInt64
  height : UInt32
  bits : UInt32
  nonce : UInt32
deriving DecidableEq

/-- The 120 bytes of a header. -/
def BlockHeader.serialize (hdr : BlockHeader) : List UInt8 :=
  writeLE32 hdr.version ++ hdr.prevBlockHash.toBytes ++ hdr.merkleRoot.toBytes ++
    hdr.leafRoot.toBytes ++ writeLE64 hdr.timestamp ++ writeLE32 hdr.height ++
    writeLE32 hdr.bits ++ writeLE32 hdr.nonce

def BlockHeader.serializedSize : Nat := 4 + 32 + 32 + 32 + 8 + 4 + 4 + 4

@[simp] theorem BlockHeader.length_serialize (hdr : BlockHeader) :
    hdr.serialize.length = BlockHeader.serializedSize := by
  simp [BlockHeader.serialize, BlockHeader.serializedSize]

def BlockHeader.getHash (sha256 : List UInt8 → Bytes32) (hdr : BlockHeader) : Bytes32 :=
  sha256 hdr.serialize

/-- The header fields are read back from its bytes, so the bytes determine it. -/
theorem BlockHeader.serialize_injective : Function.Injective BlockHeader.serialize := by
  intro a b same
  simp only [BlockHeader.serialize, List.append_assoc] at same
  obtain ⟨version, same⟩ := List.append_inj same (by simp)
  obtain ⟨prev, same⟩ := List.append_inj same (by simp)
  obtain ⟨merkle, same⟩ := List.append_inj same (by simp)
  obtain ⟨leaf, same⟩ := List.append_inj same (by simp)
  obtain ⟨time, same⟩ := List.append_inj same (by simp)
  obtain ⟨height, same⟩ := List.append_inj same (by simp)
  obtain ⟨bits, nonce⟩ := List.append_inj same (by simp)
  have word32 {v w : UInt32} (eq : writeLE32 v = writeLE32 w) : v = w := by
    rw [← readLE32_writeLE32 v [], eq, readLE32_writeLE32]
  have word64 {v w : UInt64} (eq : writeLE64 v = writeLE64 w) : v = w := by
    rw [← readLE64_writeLE64 v [], eq, readLE64_writeLE64]
  cases a
  cases b
  simp_all only [BlockHeader.mk.injEq]
  exact ⟨word32 version, Bytes32.toBytes_inj prev, Bytes32.toBytes_inj merkle,
    Bytes32.toBytes_inj leaf, word64 time, word32 height, word32 bits, word32 nonce⟩

def Block.maxTransactions : Nat := 10000

structure Block where
  header : BlockHeader
  transactions : List Transaction
  transactions_le : transactions.length ≤ Block.maxTransactions
deriving DecidableEq

def Block.getHash (sha256 : List UInt8 → Bytes32) (b : Block) : Bytes32 :=
  b.header.getHash sha256

/-- `Block::AddTransaction`, `none` where it throws. -/
def Block.addTransaction (tx : Transaction) (b : Block) : Option Block :=
  if room : b.transactions.length < Block.maxTransactions then
    some ⟨b.header, b.transactions ++ [tx], by
      rw [List.length_append]
      exact room⟩
  else none

/-- One level up the Merkle tree: neighbours are hashed together, a last one
without a neighbour with itself. -/
def merkleLevel (sha256 : List UInt8 → Bytes32) : List Bytes32 → List Bytes32
  | [] => []
  | [a] => [sha256 (a.toBytes ++ a.toBytes)]
  | a :: b :: rest => sha256 (a.toBytes ++ b.toBytes) :: merkleLevel sha256 rest

/-- Climb until one hash is left. A level halves the list, so its length bounds the climb. -/
def merkleClimb (sha256 : List UInt8 → Bytes32) : Nat → List Bytes32 → Bytes32
  | _, [] => 0
  | _, [h] => h
  | 0, h :: _ => h
  | fuel + 1, level => merkleClimb sha256 fuel (merkleLevel sha256 level)

/-- The root of a list of hashes, all zeros for the empty list. -/
def computeMerkleRoot (sha256 : List UInt8 → Bytes32) (hashes : List Bytes32) : Bytes32 :=
  merkleClimb sha256 hashes.length hashes

def Block.computeMerkleRoot (sha256 : List UInt8 → Bytes32) (b : Block) : Bytes32 :=
  QmaskCore.computeMerkleRoot sha256 (b.transactions.map (·.hash))

/-- One commitment for each input that carries noise proofs. -/
def Block.leafCommitments (sha256 : List UInt8 → Bytes32) (b : Block) : List Bytes32 :=
  (b.transactions.filter (!·.isCoinbase)).flatMap fun tx =>
    (tx.inputs.filter (!·.noiseProof.isEmpty)).map fun input =>
      sha256 (input.kps.toBytes ++ input.noiseProof)

def Block.computeLeafRoot (sha256 : List UInt8 → Bytes32) (b : Block) : Bytes32 :=
  QmaskCore.computeMerkleRoot sha256 (b.leafCommitments sha256)

def Block.updateRoots (sha256 : List UInt8 → Bytes32) (b : Block) : Block :=
  { b with
    header := { b.header with
      merkleRoot := b.computeMerkleRoot sha256
      leafRoot := b.computeLeafRoot sha256 } }

end QmaskCore
