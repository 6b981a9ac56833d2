import QmaskCore.Lib.MerkleList
import QmaskCore.SmallNetwork
import QmaskCore.Validation.Rules

/-!
The Merkle root of a block and its transactions.

`merkleInputs` lists what `ComputeMerkleRoot` hashes. Two blocks without a
repeated transaction and with one root list the same ids in the same order,
unless only one of them has transactions: the root of none is zero, which the
id of a transaction may be too.
-/

namespace QmaskCore

/-- Two hashes are hashed one after the other. -/
def joinHashes (sha256 : List UInt8 → Bytes32) (a b : Bytes32) : Bytes32 :=
  sha256 (a.toBytes ++ b.toBytes)

/-- What one level hashes. -/
def levelInputs : List Bytes32 → List (List UInt8)
  | [] => []
  | [a] => [a.toBytes ++ a.toBytes]
  | a :: b :: rest => (a.toBytes ++ b.toBytes) :: levelInputs rest

/-- What the climb to the root hashes, level by level. -/
def climbInputs (sha256 : List UInt8 → Bytes32) : Nat → List Bytes32 → List (List UInt8)
  | 0, _ => []
  | fuel + 1, level =>
      if 1 < level.length then levelInputs level ++ climbInputs sha256 fuel (merkleLevel sha256 level)
      else []

def Block.merkleInputs (sha256 : List UInt8 → Bytes32) (b : Block) : List (List UInt8) :=
  climbInputs sha256 b.transactions.length (b.transactions.map (·.hash))

open MerkleTree (pairs pairUp raise below)

theorem merkleLevel_eq (sha256 : List UInt8 → Bytes32) : ∀ level : List Bytes32,
    merkleLevel sha256 level = pairUp (joinHashes sha256) level
  | [] => rfl
  | [_] => rfl
  | a :: b :: rest => by rw [merkleLevel, pairUp, merkleLevel_eq sha256 rest]; rfl

theorem levelInputs_eq : ∀ level : List Bytes32,
    levelInputs level = (pairs level).map fun p => p.1.toBytes ++ p.2.toBytes
  | [] => rfl
  | [_] => rfl
  | a :: b :: rest => by rw [levelInputs, pairs, List.map_cons, levelInputs_eq rest]

/-- The climb ends a number of levels up, and hashes what is joined on the way. -/
theorem merkleClimb_spec (sha256 : List UInt8 → Bytes32) : ∀ (fuel : Nat) {level : List Bytes32},
    level ≠ [] → level.length ≤ fuel → ∃ n,
      raise (joinHashes sha256) n level = [merkleClimb sha256 fuel level] ∧
      climbInputs sha256 fuel level =
        (below (joinHashes sha256) n level).map fun p => p.1.toBytes ++ p.2.toBytes := by
  intro fuel
  induction fuel with
  | zero =>
      intro level some le
      exact absurd (List.length_eq_zero_iff.mp (Nat.le_zero.mp le)) some
  | succ fuel ih =>
      intro level some le
      match level, some, le with
      | [h], _, _ => exact ⟨0, rfl, rfl⟩
      | a :: b :: rest, _, le =>
          have shorter : (pairUp (joinHashes sha256) (a :: b :: rest)).length ≤ fuel := by
            rw [MerkleTree.length_pairUp]
            simp only [List.length_cons] at le ⊢
            omega
          obtain ⟨n, top, inputs⟩ := ih (by simp [pairUp]) shorter
          have climbs : merkleClimb sha256 (fuel + 1) (a :: b :: rest) =
              merkleClimb sha256 fuel (merkleLevel sha256 (a :: b :: rest)) := rfl
          refine ⟨n + 1, ?_, ?_⟩
          · rw [raise, top, climbs, merkleLevel_eq]
          · rw [climbInputs, if_pos (by simp), merkleLevel_eq, inputs, below, List.map_append,
              levelInputs_eq]

namespace BlockValidation

/-- **The Merkle root identifies the transactions.** Where the digest is injective
on what the two roots hash and none of it hashes to a transaction id, two blocks
that pass the checks of their root and of repeated transactions and carry one
root have the same ids in the same order, if both have transactions or neither. -/
theorem same_ids_of_same_root {P : Params} {b b' : Block}
    (root : checkMerkleRoot P b = .ok ()) (root' : checkMerkleRoot P b' = .ok ())
    (distinct : checkDuplicateTransactions b = .ok ())
    (distinct' : checkDuplicateTransactions b' = .ok ())
    (same : b.header.merkleRoot = b'.header.merkleRoot)
    (alike : b.transactions = [] ↔ b'.transactions = [])
    (injective : ∀ x ∈ b.merkleInputs P.sha256 ++ b'.merkleInputs P.sha256,
      ∀ y ∈ b.merkleInputs P.sha256 ++ b'.merkleInputs P.sha256,
        P.sha256 x = P.sha256 y → x = y)
    (apart : ∀ tx ∈ b.transactions ++ b'.transactions,
      ∀ x ∈ b.merkleInputs P.sha256 ++ b'.merkleInputs P.sha256, tx.hash ≠ P.sha256 x) :
    b.transactions.map (·.hash) = b'.transactions.map (·.hash) := by
  by_cases blank : b.transactions = []
  · rw [blank, alike.mp blank]
  have climb : b.computeMerkleRoot P.sha256 = b.header.merkleRoot := by
    simpa [checkMerkleRoot] using root
  have climb' : b'.computeMerkleRoot P.sha256 = b.header.merkleRoot := by
    rw [same]
    simpa [checkMerkleRoot] using root'
  have ids : (b.transactions.map (·.hash)).Nodup := by
    simpa using checkHashesFrom_ok List.nodup_nil distinct
  have ids' : (b'.transactions.map (·.hash)).Nodup := by
    simpa using checkHashesFrom_ok List.nodup_nil distinct'
  have filled : b.transactions.map (·.hash) ≠ [] := mt List.map_eq_nil_iff.mp blank
  have filled' : b'.transactions.map (·.hash) ≠ [] :=
    mt List.map_eq_nil_iff.mp fun none => blank (alike.mpr none)
  obtain ⟨n, top, inputs⟩ := merkleClimb_spec P.sha256 b.transactions.length filled (by simp)
  obtain ⟨m, top', inputs'⟩ := merkleClimb_spec P.sha256 b'.transactions.length filled' (by simp)
  rw [Block.computeMerkleRoot, computeMerkleRoot, List.length_map] at climb climb'
  rw [climb] at top
  rw [climb'] at top'
  let known := below (joinHashes P.sha256) n (b.transactions.map (·.hash)) ++
    below (joinHashes P.sha256) m (b'.transactions.map (·.hash))
  have listed : b.merkleInputs P.sha256 ++ b'.merkleInputs P.sha256 =
      known.map fun p => p.1.toBytes ++ p.2.toBytes := by
    rw [List.map_append, ← inputs, ← inputs']
    rfl
  rw [listed] at injective apart
  have inj : MerkleTree.InjOn (joinHashes P.sha256) known := fun p memP q memQ eq =>
    Bytes32.append_toBytes_inj (injective _ (List.mem_map_of_mem memP) _ (List.mem_map_of_mem memQ) eq)
  refine MerkleTree.eq_of_root inj (List.subset_append_left _ _) (List.subset_append_right _ _)
    ids ids' (fun a mem p memP => ?_) top top' filled filled'
  rw [← List.map_append] at mem
  obtain ⟨tx, memTx, rfl⟩ := List.mem_map.mp mem
  exact apart tx memTx _ (List.mem_map_of_mem memP)

end BlockValidation

namespace SmallNetwork

/-- The small network with a digest that counts up from above its ids. -/
def summing : Params :=
  { smallNetwork with sha256 := fun bytes => BitVec.ofNat 256 (100 + (bytes.map UInt8.toNat).sum) }

/-- A block of two transactions, with its root. -/
def twoMints (nonce : UInt32) : Block where
  header := ⟨1, 0, computeMerkleRoot summing.sha256 [1, 2], 0, 10, 0, 1, nonce⟩
  transactions := [mint 1 50, mint 2 50]
  transactions_le := by decide

/-- A block of the header alone or of one transaction of id zero. -/
def rootless (transactions : List Transaction) (fits : transactions.length ≤ Block.maxTransactions) :
    Block := ⟨⟨1, 0, 0, 0, 10, 0, 1, 0⟩, transactions, fits⟩
end SmallNetwork

namespace BlockValidation

open SmallNetwork in
theorem same_ids_of_same_root_twoMints :
    (twoMints 0).transactions.map (·.hash) = (twoMints 1).transactions.map (·.hash) := by
  have joined (nonce : UInt32) : (twoMints nonce).merkleInputs summing.sha256 =
      [(1 : Bytes32).toBytes ++ (2 : Bytes32).toBytes] := rfl
  have root (nonce : UInt32) : checkMerkleRoot summing (twoMints nonce) = .ok () := rfl
  refine same_ids_of_same_root (root 0) (root 1) rfl rfl rfl (by simp [twoMints]) ?_ ?_
  · rw [joined, joined]
    simp
  · rw [joined, joined]
    decide +kernel

open SmallNetwork in
/-- A block without transactions has the root of one whose only id is zero. -/
theorem rootless_differ :
    let none := rootless [] (by decide)
    let zero := rootless [mint 0 50] (by decide)
    checkMerkleRoot summing none = .ok () ∧ checkMerkleRoot summing zero = .ok () ∧
    checkDuplicateTransactions none = .ok () ∧ checkDuplicateTransactions zero = .ok () ∧
    none.header.merkleRoot = zero.header.merkleRoot ∧
    none.merkleInputs summing.sha256 ++ zero.merkleInputs summing.sha256 = [] ∧
    none.transactions.map (·.hash) ≠ zero.transactions.map (·.hash) :=
  ⟨rfl, rfl, rfl, rfl, rfl, rfl, by decide⟩

end BlockValidation

end QmaskCore
