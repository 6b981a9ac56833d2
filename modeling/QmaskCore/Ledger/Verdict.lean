import QmaskCore.Ledger.Extends
import QmaskCore.Ledger.Headers

/-!
A block that comes a second time.

`AcceptBlock` stores a block before it tries to make it the tip, and the next
time it finds the block stored and answers that it was accepted. A refusal
therefore stands exactly when it came from the checks made before the block is
stored.
-/

namespace QmaskCore

/-- The checks made before a block is stored let it through. -/
def ChainState.Stores (P : Params) (s : ChainState) (now : UInt64) (block : Block) : Prop :=
  ∃ parent, s.readBlockIndex block.header.prevBlockHash = some parent ∧
    s.admits P now block parent = true

section

variable {P : Params} {s : ChainState} {L : Ledger} {now : UInt64} {block : Block}

/-- A block that is not stored leaves the state as it is. -/
theorem ChainState.acceptBlock_of_not_stores (known : s.mBlockData.hasBlock (block.getHash P.sha256) = false)
    (refused : ¬ s.Stores P now block) : s.acceptBlock P now block = (false, s) := by
  rw [acceptBlock]
  dsimp only
  split
  · rfl
  · rw [if_neg (by simp [known])]
    cases parent : s.readBlockIndex block.header.prevBlockHash with
    | none => rfl
    | some entry =>
        have low : s.admits P now block entry = false := by
          by_contra admitted
          exact refused ⟨entry, parent, by simpa using admitted⟩
        exact if_pos low

/-- A block that is let through is stored when the call ends, whatever its answer. -/
theorem Represents.hasBlock_of_stores (rep : Represents P s L) (stores : s.Stores P now block) :
    (s.acceptBlock P now block).2.mBlockData.hasBlock (block.getHash P.sha256) = true := by
  obtain ⟨parent, read, admitted⟩ := stores
  have after : Matches P (s.acceptBlock P now block) (L.accept P now block) := rep.acceptBlock_sim
  rw [after.state.hasBlock_eq]
  cases known : L.tree (block.getHash P.sha256) with
  | some st =>
      have here : (some st).isSome = true := rfl
      rw [Ledger.accept, known, if_pos here, known]
      rfl
  | none =>
      cases found : L.tree block.header.prevBlockHash with
      | none =>
          rw [rep.absent found] at read
          cases read
      | some st =>
          obtain ⟨pos, here, -⟩ := rep.stored found
          obtain rfl : BlockData.indexEntry st.block st.height st.work pos = parent :=
            Option.some.inj (here.symm.trans read)
          rw [rep.admits_eq] at admitted
          rw [Ledger.stored_of_admits rep.valid known found admitted]
          rfl

end

/-- **When a refusal stands.** In every state a node reaches, a block that is
refused is refused again exactly when the checks made before it is stored do not
let it through; otherwise the second call reports it as accepted. -/
theorem refused_again_iff {P : Params} (sound : P.SoundGenesis) {s₀ : ChainState}
    (opened : ChainState.initializeState P (.ofDisk .empty) = .ok s₀) {ops : List NodeOp}
    (fine : Deliverable P (calls ops)) (now : UInt64) (block : Block) :
    ∃ s, s₀.life P ops = .ok s ∧ ∀ s', s.acceptBlock P now block = (false, s') →
      ((s'.acceptBlock P now block).1 = false ↔ ¬ s.Stores P now block) := by
  obtain ⟨s, ran, rep, -⟩ := lived sound opened fine
  refine ⟨s, ran, fun s' first => ?_⟩
  have known : s.mBlockData.hasBlock (block.getHash P.sha256) = false := by
    by_contra stored
    rw [ChainState.acceptBlock, rep.ready] at first
    simp_all
  constructor
  · intro second stores
    have stored := rep.hasBlock_of_stores stores
    have after : Matches P (s.acceptBlock P now block) (Ledger.accept P now block _) :=
      rep.acceptBlock_sim
    have ready := after.state.ready
    rw [first] at stored ready
    rw [ChainState.acceptBlock, ready] at second
    simp_all
  · intro refused
    have same := ChainState.acceptBlock_of_not_stores known refused
    rw [same] at first
    obtain ⟨-, rfl⟩ := Prod.mk.inj first
    rw [same]

namespace SmallNetwork

/-- A first block whose bits are not those the difficulty rule asks for. -/
def wrongBits : Block := withBits 2 blockOne

end SmallNetwork

open SmallNetwork in
theorem refused_again_iff_wrongBits :
    ∃ s, node.life smallNetwork [] = .ok s ∧
      ∀ s', s.acceptBlock smallNetwork 20 wrongBits = (false, s') →
        ((s'.acceptBlock smallNetwork 20 wrongBits).1 = false ↔
          ¬ s.Stores smallNetwork 20 wrongBits) :=
  refused_again_iff soundGenesis_smallNetwork node_opened
    (show Deliverable smallNetwork (calls []) from deliverable_accepts smallNetwork []) 20
    wrongBits

open SmallNetwork in
/-- A block refused for its bits is accepted when it comes again. -/
theorem wrongBits_accepted_again :
    (node.acceptBlock smallNetwork 20 wrongBits).1 = false ∧
      ((node.acceptBlock smallNetwork 20 wrongBits).2.acceptBlock smallNetwork 20 wrongBits).1 =
        true := by
  decide +kernel

end QmaskCore
