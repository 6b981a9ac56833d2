import QmaskCore.Lib.MerkleTree
import QmaskCore.SmallNetwork
import QmaskCore.Wallet.NoiseOtp

/-!
`NoiseFile`: the leaves of a wallet, the tree over them and which are used.

`buildTree` hashes the leaves into levels and `createProofAt` reads a proof off
them. `verifyProof_iff` says a proof verifies against the root exactly when it
is the one `createProofAt` gives for its leaf.
-/

namespace QmaskCore

open MerkleTree

structure NoiseFile where
  mLeaves : List Bytes32
  mLevels : List (List Bytes32)
  mRoot : Bytes32
  mNextLeaf : UInt32
  mUsed : List UInt8
deriving DecidableEq

namespace NoiseFile

def empty : NoiseFile := ⟨[], [], 0, 0, []⟩

def buildTree (P : Params) (nf : NoiseFile) : NoiseFile :=
  if nf.mLeaves = [] then { nf with mLevels := [], mRoot := 0 }
  else
    let mLevels := levels (sha256Pair P) nf.mLeaves.length
      (nf.mLeaves.map fun leaf => P.sha256 leaf.toBytes)
    { nf with mLevels, mRoot := (root mLevels).getD 0 }

/-- The siblings and directions from a position up through the levels. -/
def pathFrom : Nat → List (List Bytes32) → List Bytes32 × List UInt8
  | idx, cur :: next :: rest =>
      let sibling := if idx % 2 = 0 then idx + 1 else idx - 1
      let sibling := if cur.length ≤ sibling then idx else sibling
      let path := pathFrom (idx / 2) (next :: rest)
      (cur.getD sibling 0 :: path.1, (if idx % 2 = 0 then 0 else 1) :: path.2)
  | _, _ => ([], [])

/-- `none` where the source throws. -/
def createProofAt (P : Params) (index : UInt32) (txHash : Bytes32) (nf : NoiseFile) :
    Option NoiseProof :=
  match nf.mLeaves[index.toNat]? with
  | none => none
  | some leaf =>
      if nf.mLevels = [] then none
      else
        let path := pathFrom index.toNat nf.mLevels
        some ⟨index, leaf, bindLeafToTx P leaf txHash, path.1, path.2⟩

/-- A file of some leaves, its tree built. -/
def ofLeaves (P : Params) (leaves : List Bytes32) : NoiseFile :=
  { empty with mLeaves := leaves }.buildTree P

end NoiseFile

/-! ### Proofs and the tree -/

/-- The bytes hashed for two nodes joined. -/
def pairBytes (pair : Bytes32 × Bytes32) : List UInt8 := pair.1.toBytes ++ pair.2.toBytes

theorem pairBytes_inj {a b : Bytes32 × Bytes32} (same : pairBytes a = pairBytes b) : a = b :=
  Bytes32.append_toBytes_inj same

theorem expectedDepth_eq : ∀ fuel width, expectedDepth fuel width = depth fuel width := by
  intro fuel
  induction fuel with
  | zero => exact fun _ => rfl
  | succ fuel ih =>
      intro width
      rw [expectedDepth, depth, ih]

/-- The directions of a position on a path of some length. -/
def dirsOf : Nat → Nat → List UInt8
  | 0, _ => []
  | n + 1, idx => (if idx % 2 = 0 then 0 else 1) :: dirsOf n (idx / 2)

theorem dirsFollow_iff : ∀ {dirs : List UInt8} {idx : Nat},
    dirsFollow idx dirs = true ↔ dirs = dirsOf dirs.length idx := by
  intro dirs
  induction dirs with
  | nil => simp [dirsFollow, dirsOf]
  | cons dir dirs ih =>
      intro idx
      simp [dirsFollow, dirsOf, ih]

@[simp] theorem length_dirsOf : ∀ n idx, (dirsOf n idx).length = n := by
  intro n
  induction n with
  | zero => exact fun _ => rfl
  | succ n ih => exact fun idx => congrArg (· + 1) (ih (idx / 2))

theorem le_one_of_mem_dirsOf : ∀ {n idx : Nat} {dir : UInt8}, dir ∈ dirsOf n idx → dir ≤ 1 := by
  intro n
  induction n with
  | zero => exact fun mem => nomatch mem
  | succ n ih =>
      intro idx dir mem
      rcases List.mem_cons.mp mem with rfl | mem
      · split <;> decide
      · exact ih mem

/-- With the directions of a position, hashing along a path is climbing from it. -/
theorem rootFromPath_eq (P : Params) : ∀ (path : List Bytes32) (idx : Nat) (acc : Bytes32),
    rootFromPath P acc (path.zip (dirsOf path.length idx)) = climb (sha256Pair P) idx acc path := by
  intro path
  induction path with
  | nil => exact fun _ _ => rfl
  | cons other path ih =>
      intro idx acc
      simp only [List.length_cons, dirsOf, List.zip_cons_cons, rootFromPath, climb]
      rcases Nat.mod_two_eq_zero_or_one idx with even | odd
      · simp only [even, if_true, ih]
      · simp only [odd, Nat.one_ne_zero, if_false, ih, show (1 : UInt8) ≠ 0 by decide]

/-- What a proof is made of are the siblings of its position and its directions. -/
theorem NoiseFile.pathFrom_eq (P : Params) : ∀ (fuel : Nat) (level : List Bytes32) (idx : Nat),
    idx < level.length → NoiseFile.pathFrom idx (levels (sha256Pair P) fuel level) =
      (siblings idx (levels (sha256Pair P) fuel level), dirsOf (depth fuel level.length) idx) := by
  intro fuel
  induction fuel with
  | zero => exact fun _ _ _ => rfl
  | succ fuel ih =>
      intro level idx lt
      rw [levels, depth]
      split
      · rename_i wide
        obtain ⟨rest, above⟩ := exists_levels_eq (sha256Pair P) fuel
          (pairUp (sha256Pair P) level)
        have up := ih (pairUp (sha256Pair P) level) (idx / 2) (by
          rw [length_pairUp]
          omega)
        obtain ⟨other, beside⟩ := exists_sibling lt
        rw [length_pairUp] at up
        rw [above] at up ⊢
        rw [NoiseFile.pathFrom, up, siblings, beside, dirsOf]
        have first : level.getD (if level.length ≤ if idx % 2 = 0 then idx + 1 else idx - 1 then idx
            else if idx % 2 = 0 then idx + 1 else idx - 1) 0 = other := by
          unfold sibling at beside
          dsimp only at beside
          rw [List.getD_eq_getElem?_getD, apply_ite (level[·]?), beside]
          rfl
        rw [first]
        rfl
      · rfl

/-- The hashes of the leaves, the bottom of the tree. -/
abbrev commitments (P : Params) (leaves : List Bytes32) : List Bytes32 :=
  leaves.map fun leaf => P.sha256 leaf.toBytes

/-- The byte strings hashed to build the tree over some leaves. -/
def treeInputs (P : Params) (leaves : List Bytes32) : List (List UInt8) :=
  leaves.map (·.toBytes) ++
    (joined (levels (sha256Pair P) leaves.length (commitments P leaves))).map pairBytes

/-- The byte strings hashed to find the root of a proof. -/
def proofInputs (P : Params) (p : NoiseProof) : List (List UInt8) :=
  p.leaf.toBytes ::
    (climbed (sha256Pair P) p.leafIndex.toNat (P.sha256 p.leaf.toBytes) p.merklePath).map pairBytes

section

variable {P : Params} {leaves : List Bytes32}

theorem root_ofLeaves (nonempty : leaves ≠ []) :
    root (levels (sha256Pair P) leaves.length (commitments P leaves)) =
      some (NoiseFile.ofLeaves P leaves).mRoot := by
  have positive := List.length_pos_iff.mpr nonempty
  have first : (commitments P leaves)[0]? = some (P.sha256 leaves[0].toBytes) := by
    rw [List.getElem?_map, List.getElem?_eq_getElem positive, Option.map_some]
  have found := climb_siblings (sha256Pair P) leaves.length _ (by simp) first
  rw [NoiseFile.ofLeaves, NoiseFile.buildTree, if_neg nonempty]
  dsimp only
  rw [found]
  rfl

/-- The proof of a position: its leaf bound to the transaction, the siblings and
the directions of the position. -/
theorem createProofAt_ofLeaves {index : UInt32} {leaf : Bytes32} (txHash : Bytes32)
    (found : leaves[index.toNat]? = some leaf) :
    (NoiseFile.ofLeaves P leaves).createProofAt P index txHash =
      some ⟨index, leaf, bindLeafToTx P leaf txHash,
        siblings index.toNat (levels (sha256Pair P) leaves.length (commitments P leaves)),
        dirsOf (depth leaves.length leaves.length) index.toNat⟩ := by
  have lt := (List.getElem?_eq_some_iff.mp found).1
  have nonempty : leaves ≠ [] := by
    rintro rfl
    simp at lt
  have path := NoiseFile.pathFrom_eq P leaves.length (commitments P leaves) index.toNat
    (by simpa using lt)
  have some := levels_ne_nil (sha256Pair P) leaves.length (commitments P leaves)
  rw [List.length_map] at path
  rw [NoiseFile.ofLeaves, NoiseFile.buildTree, if_neg nonempty]
  simp only [NoiseFile.createProofAt, found]
  rw [if_neg some, path]

/-- **Noise proofs.** Where the digest is injective on what is hashed, a proof
verifies against the root of a tree of any width exactly when it is the proof
the tree gives for its position. -/
theorem verifyProof_iff {n : UInt32} (nonempty : leaves ≠ []) (count : leaves.length = n.toNat)
    (txHash : Bytes32) (p : NoiseProof)
    (injective : Set.InjOn P.sha256 {bytes | bytes ∈ treeInputs P leaves ++ proofInputs P p}) :
    NoiseFile.verifyProof P (NoiseFile.ofLeaves P leaves).mRoot txHash p n = true ↔
      p.leafIndex < n ∧
        (NoiseFile.ofLeaves P leaves).createProofAt P p.leafIndex txHash = some p := by
  have top := root_ofLeaves (P := P) nonempty
  constructor
  · intro verified
    simp only [NoiseFile.verifyProof, Bool.and_eq_true, decide_eq_true_eq, dirsFollow_iff,
      expectedDepth_eq, ← count] at verified
    obtain ⟨⟨⟨⟨⟨⟨⟨-, below⟩, even⟩, long⟩, -⟩, dirs⟩, bound⟩, ends⟩ := verified
    have lt : p.leafIndex.toNat < leaves.length := by
      rw [count]
      exact UInt32.lt_iff_toNat_lt.mp below
    have found := List.getElem?_eq_getElem lt
    have bottom : (commitments P leaves)[p.leafIndex.toNat]? =
        some (P.sha256 leaves[p.leafIndex.toNat].toBytes) := by
      rw [List.getElem?_map, found, Option.map_some]
    rw [dirs, ← even, rootFromPath_eq] at ends
    rw [← ends] at top
    obtain ⟨start, path⟩ := climb_inj leaves.length _ _ (by simp) bottom (by simpa using long)
      (fun a memA b memB same => pairBytes_inj (injective
        (List.mem_append_left _ (List.mem_append_right _ (List.mem_map_of_mem memA)))
        (List.mem_append_right _ (List.mem_cons_of_mem _ (List.mem_map_of_mem memB))) same)) top
    have leaf : p.leaf = leaves[p.leafIndex.toNat] := by
      refine Bytes32.toBytes_inj (injective (List.mem_append_right _ List.mem_cons_self)
        (List.mem_append_left _ (List.mem_append_left _ ?_)) start)
      exact List.mem_map_of_mem (List.getElem_mem lt)
    refine ⟨below, ?_⟩
    rw [createProofAt_ofLeaves txHash found, ← leaf, bound, ← path, ← long, even, ← dirs]
  · rintro ⟨below, created⟩
    have lt : p.leafIndex.toNat < leaves.length := by
      rw [count]
      exact UInt32.lt_iff_toNat_lt.mp below
    have found := List.getElem?_eq_getElem lt
    have bottom : (commitments P leaves)[p.leafIndex.toNat]? =
        some (P.sha256 leaves[p.leafIndex.toNat].toBytes) := by
      rw [List.getElem?_map, found, Option.map_some]
    rw [createProofAt_ofLeaves txHash found, Option.some_inj] at created
    have ends := climb_siblings (sha256Pair P) leaves.length _ (by simp) bottom
    have long : p.merklePath.length = depth leaves.length leaves.length := by
      rw [← created]
      simpa using length_siblings (sha256Pair P) leaves.length (commitments P leaves) _
        (by simpa using lt)
    have dirs : p.pathDirs = dirsOf p.merklePath.length p.leafIndex.toNat := by
      rw [long, ← created]
    have even : p.merklePath.length = p.pathDirs.length := by
      rw [dirs, length_dirsOf]
    have bound : bindLeafToTx P p.leaf txHash = p.boundProof := by rw [← created]
    have leaf : p.leaf = leaves[p.leafIndex.toNat] := (congrArg NoiseProof.leaf created).symm
    have path : p.merklePath = siblings p.leafIndex.toNat
        (levels (sha256Pair P) leaves.length (commitments P leaves)) :=
      (congrArg NoiseProof.merklePath created).symm
    rw [top, ← path, ← leaf, Option.some_inj] at ends
    simp only [NoiseFile.verifyProof, Bool.and_eq_true, decide_eq_true_eq, dirsFollow_iff,
      expectedDepth_eq, ← count]
    refine ⟨⟨⟨⟨⟨⟨⟨?_, below⟩, even⟩, long⟩, ?_⟩, even ▸ dirs⟩, bound⟩, ?_⟩
    · rintro rfl
      exact absurd below (UInt32.not_lt_zero)
    · rw [dirs]
      exact List.all_eq_true.mpr fun dir mem => decide_eq_true (le_one_of_mem_dirsOf mem)
    · rw [dirs, rootFromPath_eq, ends]

end

namespace SmallNetwork

/-- A digest that tells the nodes of a small tree apart. -/
def spread (bytes : List UInt8) : Bytes32 :=
  if bytes.length ≤ 32 then Bytes32.ofBytes bytes
  else 100 * Bytes32.ofBytes (bytes.take 32) + Bytes32.ofBytes (bytes.drop 32)

end SmallNetwork

open SmallNetwork in
theorem verifyProof_iff_third_of_three :
    let P := { smallNetwork with sha256 := spread }
    let file := NoiseFile.ofLeaves P [1, 2, 3]
    let p : NoiseProof := ⟨2, 3, bindLeafToTx P 3 7, [3, 102], [0, 1]⟩
    NoiseFile.verifyProof P file.mRoot 7 p 3 = true ↔
      p.leafIndex < 3 ∧ file.createProofAt P p.leafIndex 7 = some p := by
  refine verifyProof_iff (by decide) rfl 7 _ fun a memA b memB same => ?_
  have apart : ∀ a ∈ treeInputs { smallNetwork with sha256 := spread } [1, 2, 3] ++
      proofInputs { smallNetwork with sha256 := spread }
        ⟨2, 3, bindLeafToTx { smallNetwork with sha256 := spread } 3 7, [3, 102], [0, 1]⟩,
      ∀ b ∈ treeInputs { smallNetwork with sha256 := spread } [1, 2, 3] ++
        proofInputs { smallNetwork with sha256 := spread }
          ⟨2, 3, bindLeafToTx { smallNetwork with sha256 := spread } 3 7, [3, 102], [0, 1]⟩,
      spread a = spread b → a = b := by
    decide +kernel
  exact apart a memA b memB same

end QmaskCore
