import QmaskCore.Wallet.NoisePool

/-!
`NoiseTreeBuilder`: the root of a noise file too large for memory.

`computeRoot` reduces the tree level by level through files of a scratch
directory. `computeRoot_eq_generate` says that the root is the one `generate`
gives the noise file, and `computeRoot_leaves_nothing` that no level file stays
behind. File operations succeed; a read can still find too few bytes.
-/

namespace QmaskCore

open MerkleTree

/-- The level files of a scratch directory. -/
abbrev Scratch := Nat → Option (List UInt8)

namespace NoiseTreeBuilder

def commitmentAt (P : Params) (rawNoise : List UInt8) (i : Nat) : Bytes32 :=
  let leaf := P.sha256 ((rawNoise.drop (i * 32)).take 32 ++ writeLE32 (UInt32.ofNat i))
  P.sha256 leaf.toBytes

/-- `fread` of a node, with what is behind it. -/
def readNode (unread : List UInt8) : Option (Bytes32 × List UInt8) :=
  if unread.length < 32 then none
  else some (Bytes32.ofBytes (unread.take 32), unread.drop 32)

/-- The loop over a level: what is written, and how many nodes. A last node
without a second is its own. -/
def reduceLevel (P : Params) : Nat → List UInt8 → List UInt8 → Nat → Option (List UInt8 × Nat)
  | 0, _, out, produced => some (out, produced)
  | 1, unread, out, produced =>
      match readNode unread with
      | none => none
      | some (left, _) => some (out ++ (sha256Pair P left left).toBytes, produced + 1)
  | remaining + 2, unread, out, produced =>
      match readNode unread with
      | none => none
      | some (left, unread) =>
          match readNode unread with
          | none => none
          | some (right, unread) =>
              reduceLevel P remaining unread (out ++ (sha256Pair P left right).toBytes)
                (produced + 1)

/-- The end of `ComputeRoot`: the first node of the last level. -/
def readRoot (level : Nat) (dir : Scratch) : Option Bytes32 × Scratch :=
  match dir level with
  | none => (none, dir)
  | some contents => ((readNode contents).map (·.1), Function.update dir level none)

/-- `while (levelCount > 1)`, with as many turns as it may take. -/
def reduceFrom (P : Params) : Nat → Nat → Nat → Scratch → Option Bytes32 × Scratch
  | 0, level, levelCount, dir => if 1 < levelCount then (none, dir) else readRoot level dir
  | turns + 1, level, levelCount, dir =>
      if 1 < levelCount then
        match dir level with
        | none => (none, dir)
        | some contents =>
            match reduceLevel P levelCount contents [] 0 with
            | none => (none, Function.update (Function.update dir level none) (level + 1) none)
            | some (out, produced) =>
                reduceFrom P turns (level + 1) produced
                  (Function.update (Function.update dir (level + 1) (some out)) level none)
      else readRoot level dir

/-- `ComputeRoot`, `none` where it fails. -/
def computeRoot (P : Params) (rawNoise : List UInt8) (leafCount : UInt32) (dir : Scratch) :
    Option Bytes32 × Scratch :=
  if leafCount = 0 then (some 0, dir)
  else if rawNoise.length < leafCount.toNat * 32 then (none, dir)
  else
    let contents := (List.range leafCount.toNat).flatMap fun i =>
      (commitmentAt P rawNoise i).toBytes
    reduceFrom P leafCount.toNat 0 leafCount.toNat (Function.update dir 0 (some contents))

/-! ### A level -/

/-- The bytes of a level file. -/
def nodeBytes (nodes : List Bytes32) : List UInt8 := nodes.flatMap (·.toBytes)

@[simp] theorem nodeBytes_cons (node : Bytes32) (nodes : List Bytes32) :
    nodeBytes (node :: nodes) = node.toBytes ++ nodeBytes nodes := rfl

theorem readNode_append (node : Bytes32) (rest : List UInt8) :
    readNode (node.toBytes ++ rest) = some (node, rest) := by
  have long : ¬ (node.toBytes ++ rest).length < 32 := by
    rw [List.length_append, node.length_toBytes]
    omega
  rw [readNode, if_neg long, List.take_left' node.length_toBytes,
    List.drop_left' node.length_toBytes, Bytes32.ofBytes_toBytes]

/-- A level file is reduced to the file of the level above. -/
theorem reduceLevel_eq (P : Params) : ∀ (nodes : List Bytes32) (out : List UInt8) (produced : Nat),
    reduceLevel P nodes.length (nodeBytes nodes) out produced =
      some (out ++ nodeBytes (pairUp (sha256Pair P) nodes),
        produced + (pairUp (sha256Pair P) nodes).length)
  | [], out, produced => by simp [reduceLevel, pairUp, nodeBytes]
  | [left], out, produced => by
      rw [nodeBytes_cons, List.length_singleton, reduceLevel, readNode_append]
      simp [pairUp, nodeBytes]
  | left :: right :: rest, out, produced => by
      rw [nodeBytes_cons, nodeBytes_cons, List.length_cons, List.length_cons, reduceLevel,
        readNode_append]
      dsimp only
      rw [readNode_append]
      dsimp only
      rw [reduceLevel_eq P rest, pairUp, List.length_cons, nodeBytes_cons, List.append_assoc,
        Nat.add_assoc, Nat.add_comm 1]

/-! ### All levels -/

/-- The files of the levels are gone, whatever they held. -/
def cleared (first count : Nat) (dir : Scratch) : Scratch :=
  fun level => if first ≤ level ∧ level ≤ first + count then none else dir level

theorem readRoot_eq {level : Nat} {dir : Scratch} {node : Bytes32}
    (found : dir level = some (nodeBytes [node])) :
    readRoot level dir = (some node, cleared level 0 dir) := by
  have one := readNode_append node []
  rw [List.append_nil] at one
  have bytes : nodeBytes [node] = node.toBytes := List.append_nil _
  simp only [readRoot, found, bytes, one, Option.map_some]
  congr 1
  funext l
  by_cases here : l = level
  · rw [here, Function.update_self, cleared, if_pos ⟨le_rfl, le_rfl⟩]
  · rw [Function.update_of_ne here, cleared, if_neg (by omega)]

/-- The file below is gone, and those above are cleared in turn. -/
theorem cleared_succ (level count : Nat) (out : List UInt8) (dir : Scratch) :
    cleared (level + 1) count
        (Function.update (Function.update dir (level + 1) (some out)) level none) =
      cleared level (count + 1) dir := by
  funext l
  by_cases here : l = level
  · subst here
    rw [cleared, if_neg (by omega), Function.update_self, cleared, if_pos (by omega)]
  · unfold cleared
    by_cases inside : level + 1 ≤ l ∧ l ≤ level + 1 + count
    · rw [if_pos inside, if_pos (by omega)]
    · rw [if_neg inside, if_neg (by omega), Function.update_of_ne here,
        Function.update_of_ne (by omega)]

/-- **The levels.** From the file of a level, the root of the tree over it. -/
theorem reduceFrom_eq (P : Params) : ∀ {turns level : Nat} {nodes : List Bytes32} {dir : Scratch},
    nodes ≠ [] → nodes.length ≤ turns + 1 → dir level = some (nodeBytes nodes) →
    reduceFrom P turns level nodes.length dir =
      (root (levels (sha256Pair P) turns nodes), cleared level (depth turns nodes.length) dir) := by
  intro turns
  have last {level : Nat} {nodes : List Bytes32} {dir : Scratch} (nonempty : nodes ≠ [])
      (single : ¬ 1 < nodes.length) (found : dir level = some (nodeBytes nodes)) (turns : Nat) :
      readRoot level dir = (root (levels (sha256Pair P) turns nodes), cleared level 0 dir) := by
    have positive := List.length_pos_iff.mpr nonempty
    obtain ⟨node, rfl⟩ := List.length_eq_one_iff.mp (show nodes.length = 1 by omega)
    rw [readRoot_eq found, root_levels_singleton]
  induction turns with
  | zero =>
      intro level nodes dir nonempty short found
      have single : ¬ 1 < nodes.length := by omega
      rw [reduceFrom, if_neg single, depth]
      exact last nonempty single found 0
  | succ turns ih =>
      intro level nodes dir nonempty short found
      rw [reduceFrom, depth]
      split
      · rename_i wide
        have above : pairUp (sha256Pair P) nodes ≠ [] := by
          rw [← List.length_pos_iff, length_pairUp]
          omega
        have fewer : (pairUp (sha256Pair P) nodes).length ≤ turns + 1 := by
          rw [length_pairUp]
          omega
        let onward : Scratch := Function.update (Function.update dir (level + 1)
          (some (nodeBytes (pairUp (sha256Pair P) nodes)))) level none
        have there : onward (level + 1) = some (nodeBytes (pairUp (sha256Pair P) nodes)) :=
          (Function.update_of_ne (by omega) _ _).trans (Function.update_self ..)
        have written := ih above fewer there
        rw [found]
        dsimp only
        rw [reduceLevel_eq]
        dsimp only
        rw [List.nil_append, Nat.zero_add, written, cleared_succ, root_levels_pairUp _ _ wide,
          length_pairUp]
      · rename_i single
        exact last nonempty single found (turns + 1)

/-! ### The whole file -/

section

variable (P : Params) {rawNoise : List UInt8} {leafCount : UInt32}

/-- What the builder does with enough noise. -/
theorem computeRoot_eq (dir : Scratch) (positive : leafCount ≠ 0)
    (enough : leafCount.toNat * 32 ≤ rawNoise.length) :
    computeRoot P rawNoise leafCount dir =
      (root (levels (sha256Pair P) leafCount.toNat
          ((List.range leafCount.toNat).map (commitmentAt P rawNoise))),
        cleared 0 (depth leafCount.toNat leafCount.toNat) dir) := by
  have count : leafCount.toNat ≠ 0 := fun zero => positive (UInt32.toNat_inj.mp zero)
  let nodes := (List.range leafCount.toNat).map (commitmentAt P rawNoise)
  have length : nodes.length = leafCount.toNat := by simp [nodes]
  have nonempty : nodes ≠ [] := List.ne_nil_of_length_pos (by omega)
  have there : Function.update dir 0 (some (nodeBytes nodes)) 0 = some (nodeBytes nodes) :=
    Function.update_self ..
  have short : nodes.length ≤ leafCount.toNat + 1 := by omega
  have reduced := reduceFrom_eq P nonempty short there
  rw [length] at reduced
  have contents : ((List.range leafCount.toNat).flatMap fun i =>
      (commitmentAt P rawNoise i).toBytes) = nodeBytes nodes := by
    rw [nodeBytes, List.flatMap_map]
  rw [computeRoot, if_neg positive, if_neg (by omega)]
  dsimp only
  rw [contents, reduced]
  congr 1
  funext level
  unfold cleared
  split
  · rfl
  · exact Function.update_of_ne (by omega) _ _

/-- **The root of a noise file.** Built through level files or in memory, it is
the same. -/
theorem computeRoot_eq_generate (dir : Scratch) (positive : leafCount ≠ 0)
    (enough : leafCount.toNat * 32 ≤ rawNoise.length) :
    ∃ nf, NoiseFile.generate P rawNoise leafCount = some nf ∧
      (computeRoot P rawNoise leafCount dir).1 = some nf.mRoot := by
  have count : leafCount.toNat ≠ 0 := fun zero => positive (UInt32.toNat_inj.mp zero)
  let leaves := (List.range leafCount.toNat).map fun i =>
    P.sha256 (((rawNoise.drop (i * 32)).take 32) ++ writeLE32 (UInt32.ofNat i))
  have length : leaves.length = leafCount.toNat := by simp [leaves]
  have nonempty : leaves ≠ [] := List.ne_nil_of_length_pos (by omega)
  have rooted := root_ofLeaves (P := P) nonempty
  have commitments : commitments P leaves =
      (List.range leafCount.toNat).map (commitmentAt P rawNoise) := by
    rw [QmaskCore.commitments, List.map_map]
    rfl
  rw [length, commitments] at rooted
  rw [computeRoot_eq P dir positive enough]
  refine ⟨{ NoiseFile.ofLeaves P leaves with
    mUsed := List.replicate (((NoiseFile.ofLeaves P leaves).mLeaves.length + 7) / 8) 0 }, ?_, rooted⟩
  have long : ¬ rawNoise.length < leafCount.toNat * NoiseFile.noiseOtpLeafSize :=
    Nat.not_lt.mpr enough
  rw [NoiseFile.generate, if_neg positive, if_neg long]
  rfl

/-- Three leaves: the last one is its own neighbour. -/
theorem computeRoot_of_three_leaves : ∃ nf,
    NoiseFile.generate smallNetwork (List.replicate 100 7) 3 = some nf ∧
      (computeRoot smallNetwork (List.replicate 100 7) 3 fun _ => none).1 = some nf.mRoot :=
  computeRoot_eq_generate smallNetwork (fun _ => none) (by decide) (by simp)

/-- The level files are gone, and no other file of the directory has changed. -/
theorem computeRoot_leaves_nothing (dir : Scratch) (positive : leafCount ≠ 0)
    (enough : leafCount.toNat * 32 ≤ rawNoise.length) (level : Nat) :
    (computeRoot P rawNoise leafCount dir).2 level =
      if level ≤ depth leafCount.toNat leafCount.toNat then none else dir level := by
  rw [computeRoot_eq P dir positive enough]
  simp [cleared]

end

end NoiseTreeBuilder

end QmaskCore
