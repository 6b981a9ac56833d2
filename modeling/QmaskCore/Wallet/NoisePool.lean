import QmaskCore.Lib.Bitmap
import QmaskCore.Wallet.NoiseFile

/-!
The noise file as a pool of leaves that are handed out once.

`NoiseFile.generate` makes the pool, `markLeafUsed` and `setUsedMap` keep its
map of used leaves. `scan_serialize` says the proofs of an input read back as
they were written, and `createProofAt_fits` that a proof of a generated pool is
one that does.
-/

namespace QmaskCore

open MerkleTree

/-! ### Proofs on the wire -/

namespace NoiseProof

def serialize (p : NoiseProof) : List UInt8 :=
  writeLE32 p.leafIndex ++ p.leaf.toBytes ++ p.boundProof.toBytes ++
    writeLE32 (UInt32.ofNat p.merklePath.length) ++ p.merklePath.flatMap (·.toBytes) ++ p.pathDirs

/-- As many directions as hashes, and no more than `Deserialize` takes. -/
structure Fits (p : NoiseProof) : Prop where
  even : p.pathDirs.length = p.merklePath.length
  short : p.merklePath.length ≤ 64

theorem readHashes_flatMap (rest : List UInt8) : ∀ path : List Bytes32,
    readHashes path.length (path.flatMap (·.toBytes) ++ rest) = path := by
  intro path
  induction path with
  | nil => rfl
  | cons hash path ih =>
      rw [List.flatMap_cons, List.append_assoc, List.length_cons, readHashes,
        List.take_left' hash.length_toBytes, List.drop_left' hash.length_toBytes, ih,
        Bytes32.ofBytes_toBytes]

theorem length_flatMap_toBytes (path : List Bytes32) :
    (path.flatMap (·.toBytes)).length = path.length * 32 := by
  induction path with
  | nil => rfl
  | cons hash path ih =>
      rw [List.flatMap_cons, List.length_append, ih, hash.length_toBytes, List.length_cons]
      omega

/-- A proof reads back as it was written, whatever follows it. -/
theorem deserialize_serialize {p : NoiseProof} (fits : p.Fits) (rest : List UInt8) :
    deserialize (p.serialize ++ rest) = some (p, rest) := by
  obtain ⟨even, short⟩ := fits
  have count : (UInt32.ofNat p.merklePath.length).toNat = p.merklePath.length :=
    UInt32.toNat_ofNat_of_lt' (short.trans_lt (by decide))
  have hashes := length_flatMap_toBytes p.merklePath
  have cut : p.serialize ++ rest = writeLE32 p.leafIndex ++ (p.leaf.toBytes ++
      (p.boundProof.toBytes ++ (writeLE32 (UInt32.ofNat p.merklePath.length) ++
        (p.merklePath.flatMap (·.toBytes) ++ (p.pathDirs ++ rest))))) := by
    simp only [serialize, List.append_assoc]
  have first : (p.serialize ++ rest).drop 4 = p.leaf.toBytes ++ (p.boundProof.toBytes ++
      (writeLE32 (UInt32.ofNat p.merklePath.length) ++
        (p.merklePath.flatMap (·.toBytes) ++ (p.pathDirs ++ rest)))) := by
    rw [cut, List.drop_left' (length_writeLE32 _)]
  have second : (p.serialize ++ rest).drop 36 = p.boundProof.toBytes ++
      (writeLE32 (UInt32.ofNat p.merklePath.length) ++
        (p.merklePath.flatMap (·.toBytes) ++ (p.pathDirs ++ rest))) := by
    rw [show 36 = 4 + 32 by rfl, ← List.drop_drop, first, List.drop_left' (Bytes32.length_toBytes _)]
  have third : (p.serialize ++ rest).drop 68 = writeLE32 (UInt32.ofNat p.merklePath.length) ++
      (p.merklePath.flatMap (·.toBytes) ++ (p.pathDirs ++ rest)) := by
    rw [show 68 = 36 + 32 by rfl, ← List.drop_drop, second,
      List.drop_left' (Bytes32.length_toBytes _)]
  have body : (p.serialize ++ rest).drop 72 =
      p.merklePath.flatMap (·.toBytes) ++ (p.pathDirs ++ rest) := by
    rw [show 72 = 68 + 4 by rfl, ← List.drop_drop, third, List.drop_left' (length_writeLE32 _)]
  have long : ¬ (p.serialize ++ rest).length < 4 + 32 + 32 + 4 := by
    rw [cut]
    simp only [List.length_append, length_writeLE32, Bytes32.length_toBytes]
    omega
  rw [deserialize, if_neg long, first, second, third, body, readLE32_writeLE32, count]
  dsimp only
  have whole : (p.merklePath.flatMap (·.toBytes) ++ (p.pathDirs ++ rest)).drop
      (p.merklePath.length * 32 + p.merklePath.length) = rest := by
    rw [← List.drop_drop, List.drop_left' hashes, List.drop_left' even]
  rw [if_neg (by omega), if_neg (by simp only [List.length_append, hashes, even]; omega), whole,
    List.take_left' (Bytes32.length_toBytes _), List.take_left' (Bytes32.length_toBytes _),
    readHashes_flatMap, List.drop_left' hashes, List.take_left' even, cut, readLE32_writeLE32,
    Bytes32.ofBytes_toBytes, Bytes32.ofBytes_toBytes]

/-- The proofs of an input read back one after the other. -/
theorem scan_serialize : ∀ {proofs : List NoiseProof}, (∀ p ∈ proofs, p.Fits) →
    scan (proofs.flatMap (·.serialize)) = (proofs, true) := by
  intro proofs
  induction proofs with
  | nil => exact fun _ => rfl
  | cons p proofs ih =>
      intro fits
      rw [List.flatMap_cons, scan_of_read (deserialize_serialize (fits p List.mem_cons_self) _),
        ih fun q mem => fits q (List.mem_cons_of_mem _ mem)]

end NoiseProof

/-! ### The pool -/

namespace NoiseFile

def noiseOtpLeafSize : Nat := 32

/-- `NoiseFile::Generate`, `none` where it throws. -/
def generate (P : Params) (rawNoise : List UInt8) (leafCount : UInt32) : Option NoiseFile :=
  if leafCount = 0 then none
  else if rawNoise.length < leafCount.toNat * noiseOtpLeafSize then none
  else
    let nf := ofLeaves P ((List.range leafCount.toNat).map fun i =>
      P.sha256 (((rawNoise.drop (i * noiseOtpLeafSize)).take 32) ++ writeLE32 (UInt32.ofNat i)))
    some { nf with mUsed := List.replicate ((nf.mLeaves.length + 7) / 8) 0 }

def setNextLeaf (next : UInt32) (nf : NoiseFile) : NoiseFile :=
  let next := if nf.mLeaves.length < next.toNat then UInt32.ofNat nf.mLeaves.length else next
  if nf.mNextLeaf < next then { nf with mNextLeaf := next } else nf

def isLeafUsed (index : UInt32) (nf : NoiseFile) : Bool := Bitmap.testBit nf.mUsed index.toNat

def markLeafUsed (index : UInt32) (nf : NoiseFile) : NoiseFile :=
  if nf.mLeaves.length ≤ index.toNat then nf
  else
    let mUsed := if nf.mUsed.length < index.toNat / 8 + 1
      then resize nf.mUsed ((nf.mLeaves.length + 7) / 8) else nf.mUsed
    { nf with mUsed := Bitmap.setBit mUsed index.toNat }

def countUsed (nf : NoiseFile) : Nat :=
  (nf.mUsed.map fun byte => (List.range 8).countP fun k => byte.toNat.testBit k).sum

def getRemaining (nf : NoiseFile) : Nat :=
  let total := nf.mLeaves.length
  let used := nf.countUsed
  if total ≤ used then 0 else total - used

def setUsedMap (map : List UInt8) (nf : NoiseFile) : NoiseFile :=
  { nf with mUsed := resize map ((nf.mLeaves.length + 7) / 8) }

/-- The leaves of a file are counted in 32 bits and its tree is over them. -/
structure Built (P : Params) (nf : NoiseFile) : Prop where
  few : nf.mLeaves.length < 2 ^ 32
  levels : nf.mLevels = (ofLeaves P nf.mLeaves).mLevels

section

variable {P : Params} {nf : NoiseFile}

theorem mLeaves_ofLeaves (leaves : List Bytes32) : (ofLeaves P leaves).mLeaves = leaves := by
  unfold ofLeaves buildTree
  split
  · rfl
  · rfl

theorem built_generate {rawNoise : List UInt8} {leafCount : UInt32}
    (made : generate P rawNoise leafCount = some nf) :
    nf.Built P ∧ nf.mLeaves.length = leafCount.toNat ∧ nf.mNextLeaf = 0 := by
  unfold generate at made
  split at made
  · cases made
  · split at made
    · cases made
    · obtain rfl := Option.some.inj made
      have count := congrArg List.length (mLeaves_ofLeaves (P := P) ((List.range leafCount.toNat).map
        fun i => P.sha256 (((rawNoise.drop (i * noiseOtpLeafSize)).take 32) ++
          writeLE32 (UInt32.ofNat i))))
      rw [List.length_map, List.length_range] at count
      refine ⟨⟨?_, ?_⟩, count, ?_⟩
      · dsimp only
        rw [count]
        exact leafCount.toNat_lt
      · dsimp only
        rw [mLeaves_ofLeaves]
      · dsimp only
        unfold ofLeaves buildTree
        split
        · rfl
        · rfl

@[simp] theorem mLeaves_markLeafUsed (index : UInt32) :
    (nf.markLeafUsed index).mLeaves = nf.mLeaves := by
  unfold markLeafUsed
  split
  · rfl
  · rfl

@[simp] theorem mLevels_markLeafUsed (index : UInt32) :
    (nf.markLeafUsed index).mLevels = nf.mLevels := by
  unfold markLeafUsed
  split
  · rfl
  · rfl

@[simp] theorem mNextLeaf_markLeafUsed (index : UInt32) :
    (nf.markLeafUsed index).mNextLeaf = nf.mNextLeaf := by
  unfold markLeafUsed
  split
  · rfl
  · rfl

/-- The pointer stays within the pool. -/
theorem mNextLeaf_setNextLeaf_le {count next : UInt32} (long : nf.mLeaves.length = count.toNat)
    (inside : nf.mNextLeaf ≤ count) : (nf.setNextLeaf next).mNextLeaf ≤ count := by
  unfold setNextLeaf
  dsimp only
  rw [long, UInt32.ofNat_toNat]
  have clamped : (if count.toNat < next.toNat then count else next) ≤ count := by
    split
    · exact UInt32.le_refl _
    · rename_i small
      exact UInt32.le_iff_toNat_le.mpr (not_lt.mp small)
  generalize (if count.toNat < next.toNat then count else next) = n at clamped ⊢
  split
  · exact clamped
  · exact inside

@[simp] theorem mLeaves_setNextLeaf (next : UInt32) :
    (nf.setNextLeaf next).mLeaves = nf.mLeaves := by
  unfold setNextLeaf
  dsimp only
  generalize (if nf.mLeaves.length < next.toNat then UInt32.ofNat nf.mLeaves.length else next) = n
  split
  · rfl
  · rfl

@[simp] theorem mLevels_setNextLeaf (next : UInt32) :
    (nf.setNextLeaf next).mLevels = nf.mLevels := by
  unfold setNextLeaf
  dsimp only
  generalize (if nf.mLeaves.length < next.toNat then UInt32.ofNat nf.mLeaves.length else next) = n
  split
  · rfl
  · rfl

theorem Built.markLeafUsed (built : nf.Built P) (index : UInt32) :
    (nf.markLeafUsed index).Built P := by
  constructor
  · rw [mLeaves_markLeafUsed]
    exact built.few
  · rw [mLeaves_markLeafUsed, mLevels_markLeafUsed]
    exact built.levels

theorem Built.setNextLeaf (built : nf.Built P) (next : UInt32) : (nf.setNextLeaf next).Built P := by
  constructor
  · rw [mLeaves_setNextLeaf]
    exact built.few
  · rw [mLeaves_setNextLeaf, mLevels_setNextLeaf]
    exact built.levels

theorem depth_le : ∀ (fuel width k : Nat), width ≤ 2 ^ k → depth fuel width ≤ k := by
  intro fuel
  induction fuel with
  | zero => exact fun _ _ _ => Nat.zero_le _
  | succ fuel ih =>
      intro width k le
      rw [depth]
      split
      · cases k with
        | zero => omega
        | succ k =>
            have half := ih ((width + 1) / 2) k (by omega)
            omega
      · exact Nat.zero_le _

/-- The proof of a leaf names it and reads back. -/
theorem createProofAt_fits (built : nf.Built P) {index : UInt32} {txHash : Bytes32}
    {p : NoiseProof} (made : nf.createProofAt P index txHash = some p) :
    p.leafIndex = index ∧ p.Fits := by
  have same : nf.createProofAt P index txHash =
      (ofLeaves P nf.mLeaves).createProofAt P index txHash := by
    rw [createProofAt, createProofAt, mLeaves_ofLeaves, built.levels]
  cases found : nf.mLeaves[index.toNat]? with
  | none =>
      rw [createProofAt, found] at made
      cases made
  | some leaf =>
      rw [same, createProofAt_ofLeaves txHash found] at made
      obtain rfl := Option.some.inj made
      have lt := (List.getElem?_eq_some_iff.mp found).1
      have long : (siblings index.toNat (levels (sha256Pair P) nf.mLeaves.length
          (commitments P nf.mLeaves))).length = depth nf.mLeaves.length nf.mLeaves.length := by
        simpa using length_siblings (sha256Pair P) nf.mLeaves.length (commitments P nf.mLeaves) _
          (by simpa using lt)
      refine ⟨rfl, ⟨?_, ?_⟩⟩
      · rw [length_dirsOf]
        exact long.symm
      · have deep := depth_le nf.mLeaves.length nf.mLeaves.length 32 built.few.le
        dsimp only
        omega

theorem lt_of_createProofAt {index : UInt32} {txHash : Bytes32} {p : NoiseProof}
    (made : nf.createProofAt P index txHash = some p) : index.toNat < nf.mLeaves.length := by
  unfold createProofAt at made
  split at made
  · cases made
  · rename_i found
    exact (List.getElem?_eq_some_iff.mp found).1

end

end NoiseFile

end QmaskCore
