import QmaskCore.Params

/-!
Noise proofs: the one-time leaves an input reveals.

`NoiseProof.deserialize` reads one proof from the head of a byte string,
`NoiseProof.scan` is the loop that reads proofs until the bytes run out, and
`deriveLeafIndices` names the leaves a transaction is required to reveal.
`scan_of_read` and `scan_of_throw` unfold the loop by one turn, and
`scanWith_eq_scan` says that any fuel that covers the bytes will do.
-/

namespace QmaskCore

structure NoiseProof where
  leafIndex : UInt32
  leaf : Bytes32
  boundProof : Bytes32
  merklePath : List Bytes32
  pathDirs : List UInt8
deriving DecidableEq

/-- `n` hashes from the head of the bytes. -/
def readHashes : Nat → List UInt8 → List Bytes32
  | 0, _ => []
  | n + 1, bytes => Bytes32.ofBytes (bytes.take 32) :: readHashes n (bytes.drop 32)

/-- `NoiseProof::Deserialize`: a proof at the head of the bytes and what is
left behind it, `none` where the source throws. -/
def NoiseProof.deserialize (rest : List UInt8) : Option (NoiseProof × List UInt8) :=
  if rest.length < 4 + 32 + 32 + 4 then none
  else
    let leafIndex := readLE32 rest
    let leaf := Bytes32.ofBytes ((rest.drop 4).take 32)
    let boundProof := Bytes32.ofBytes ((rest.drop 36).take 32)
    let pathLen := (readLE32 (rest.drop 68)).toNat
    let rest := rest.drop 72
    if 64 < pathLen then none
    else if rest.length < pathLen * 32 + pathLen then none
    else
      some (⟨leafIndex, leaf, boundProof, readHashes pathLen rest,
        (rest.drop (pathLen * 32)).take pathLen⟩, rest.drop (pathLen * 32 + pathLen))

/-- A proof takes at least its fixed part, so reading makes progress. -/
theorem NoiseProof.length_deserialize {bytes rest : List UInt8} {p : NoiseProof}
    (read : NoiseProof.deserialize bytes = some (p, rest)) : rest.length < bytes.length := by
  unfold NoiseProof.deserialize at read
  split at read
  · cases read
  · dsimp only at read
    split at read
    · cases read
    · split at read
      · cases read
      · cases read
        simp only [List.length_drop]
        omega

def NoiseProof.scanWith : Nat → List UInt8 → List NoiseProof × Bool
  | _, [] => ([], true)
  | 0, _ :: _ => ([], false)
  | fuel + 1, byte :: bytes =>
      match NoiseProof.deserialize (byte :: bytes) with
      | none => ([], false)
      | some (p, rest) => (p :: (scanWith fuel rest).1, (scanWith fuel rest).2)

/-- The loop `while (offset < size) Deserialize`: the proofs read, and whether
the bytes ran out (`true`) or a read threw (`false`). -/
def NoiseProof.scan (bytes : List UInt8) : List NoiseProof × Bool :=
  NoiseProof.scanWith bytes.length bytes

/-- Fuel beyond the number of bytes changes nothing. -/
theorem NoiseProof.scanWith_eq_scan {fuel : Nat} {bytes : List UInt8}
    (enough : bytes.length ≤ fuel) : NoiseProof.scanWith fuel bytes = NoiseProof.scan bytes := by
  suffices agree : ∀ (f g : Nat) (l : List UInt8), l.length ≤ f → l.length ≤ g →
      NoiseProof.scanWith f l = NoiseProof.scanWith g l from agree _ _ _ enough le_rfl
  intro f
  induction f with
  | zero =>
      intro g l hf _
      have : l = [] := List.eq_nil_of_length_eq_zero (by omega)
      subst this
      simp only [NoiseProof.scanWith]
  | succ f ih =>
      intro g l hf hg
      cases l with
      | nil => simp only [NoiseProof.scanWith]
      | cons byte bytes =>
          cases g with
          | zero => simp at hg
          | succ g =>
              simp only [NoiseProof.scanWith]
              cases read : NoiseProof.deserialize (byte :: bytes) with
              | none => rfl
              | some out =>
                  have progress : out.2.length < (byte :: bytes).length :=
                    NoiseProof.length_deserialize read
                  dsimp only
                  rw [ih g out.2 (by omega) (by omega)]

@[simp] theorem NoiseProof.scan_nil : NoiseProof.scan [] = ([], true) := rfl

/-- One turn of the loop. -/
theorem NoiseProof.scan_of_read {bytes rest : List UInt8} {p : NoiseProof}
    (read : NoiseProof.deserialize bytes = some (p, rest)) :
    NoiseProof.scan bytes = (p :: (NoiseProof.scan rest).1, (NoiseProof.scan rest).2) := by
  have progress := NoiseProof.length_deserialize read
  cases bytes with
  | nil => simp at progress
  | cons byte bytes =>
      have fuel : NoiseProof.scanWith bytes.length rest = NoiseProof.scan rest :=
        NoiseProof.scanWith_eq_scan (by simpa [Nat.lt_succ_iff] using progress)
      simp only [NoiseProof.scan, List.length_cons, NoiseProof.scanWith, read]
      rw [fuel, NoiseProof.scan]

/-- Where a proof is cut short the loop stops. -/
theorem NoiseProof.scan_of_throw {bytes : List UInt8} (more : bytes ≠ [])
    (cut : NoiseProof.deserialize bytes = none) : NoiseProof.scan bytes = ([], false) := by
  cases bytes with
  | nil => exact absurd rfl more
  | cons byte bytes => simp only [scan, List.length_cons, scanWith, cut]

/-- The leaves an input's proofs reveal, and whether its proof bytes parse to the end. -/
def TxInput.leaves (input : TxInput) : List NoiseLeafKey × Bool :=
  ((NoiseProof.scan input.noiseProof).1.map fun p => ⟨input.kps, p.leafIndex⟩,
    (NoiseProof.scan input.noiseProof).2)

/-- Proof bytes that parse to the end and are not empty reveal a leaf. -/
theorem TxInput.leaves_ne_nil {input : TxInput} (present : input.noiseProof ≠ [])
    (parses : input.leaves.2 = true) : input.leaves.1 ≠ [] := by
  intro none
  have empty : (NoiseProof.scan input.noiseProof).1 = [] := List.map_eq_nil_iff.mp none
  have ended : (NoiseProof.scan input.noiseProof).2 = true := parses
  cases read : NoiseProof.deserialize input.noiseProof with
  | none =>
      rw [NoiseProof.scan_of_throw present read] at ended
      cases ended
  | some out =>
      rw [NoiseProof.scan_of_read read] at empty
      cases empty

/-! ### Verification -/

def sha256Pair (P : Params) (a b : Bytes32) : Bytes32 := P.sha256 (a.toBytes ++ b.toBytes)

def bindLeafToTx (P : Params) (leaf txHash : Bytes32) : Bytes32 :=
  P.sha256 (leaf.toBytes ++ txHash.toBytes)

/-- The root reached by hashing along the path, the direction saying on which side. -/
def rootFromPath (P : Params) : Bytes32 → List (Bytes32 × UInt8) → Bytes32
  | acc, [] => acc
  | acc, (sibling, dir) :: path =>
      if dir = 0 then rootFromPath P (sha256Pair P acc sibling) path
      else rootFromPath P (sha256Pair P sibling acc) path

/-- How often a width must be halved, rounding up, to reach one. -/
def expectedDepth : Nat → Nat → Nat
  | 0, _ => 0
  | fuel + 1, width => if 1 < width then expectedDepth fuel ((width + 1) / 2) + 1 else 0

/-- Whether the directions are those of the leaf's position. -/
def dirsFollow : Nat → List UInt8 → Bool
  | _, [] => true
  | walk, dir :: dirs => dir = (if walk % 2 = 0 then 0 else 1) && dirsFollow (walk / 2) dirs

def NoiseFile.verifyProof (P : Params) (root txHash : Bytes32) (proof : NoiseProof)
    (leafCount : UInt32) : Bool :=
  leafCount ≠ 0 && proof.leafIndex < leafCount &&
    proof.merklePath.length = proof.pathDirs.length &&
    proof.merklePath.length = expectedDepth leafCount.toNat leafCount.toNat &&
    proof.pathDirs.all (· ≤ 1) && dirsFollow proof.leafIndex.toNat proof.pathDirs &&
    bindLeafToTx P proof.leaf txHash = proof.boundProof &&
    rootFromPath P (P.sha256 proof.leaf.toBytes) (proof.merklePath.zip proof.pathDirs) = root

/-- The leaf indices the `inputIndex`-th input of a transaction must reveal. -/
def deriveLeafIndices (P : Params) (txHash kps : Bytes32) (inputIndex count leafCount : UInt32) :
    List UInt32 :=
  if leafCount = 0 ∨ count = 0 then []
  else (List.range count.toNat).map fun j =>
    readLE32 (P.sha256 (txHash.toBytes ++ kps.toBytes ++ writeLE32 inputIndex ++
      writeLE32 (UInt32.ofNat j))).toBytes % leafCount

end QmaskCore
