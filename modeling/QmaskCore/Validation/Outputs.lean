import QmaskCore.Primitives.ScriptPushes
import QmaskCore.SmallNetwork
import QmaskCore.Validation.Rules

/-!
What the outputs of a checked transaction are.

`checkOutputsFrom_spec` takes the loop over the outputs apart: each script is a
payment or a data carrier, each value is in range, and so is every partial sum.
Nothing in it asks a data carrier to have no value (`outputs_sound_iff`).
-/

namespace QmaskCore

open Checks TxValidation

/-- A payment worth spending, or data that fits and carries no value. -/
def TxOutput.Sound (P : Params) (tx : Transaction) (out : TxOutput) : Prop :=
  (∃ h, out.scriptPubKey = createPayToPubkeyHash h ∧
    (tx.isCoinbase = false → P.dustThreshold ≤ out.value)) ∨
  ∃ rest chunks, out.scriptPubKey = opReturn :: rest ∧ Pushes rest chunks ∧
    chunks.flatten.length ≤ P.maxOpReturnSize.toNat ∧ out.value = 0

/-- What the first outputs are worth. -/
def Transaction.totalOfFirst (tx : Transaction) (n : Nat) : Int :=
  ((tx.outputs.take n).map (·.value.toInt)).sum

namespace TxValidation

section

variable {P : Params} {tx : Transaction}

/-- A script that is accepted follows one of the two templates. -/
theorem checkScript_ok {out : TxOutput} {i : Nat} (passed : checkScript P out i = .ok ()) :
    (∃ h, out.scriptPubKey = createPayToPubkeyHash h) ∨
    ∃ rest chunks, out.scriptPubKey = opReturn :: rest ∧ Pushes rest chunks ∧
      chunks.flatten.length ≤ P.maxOpReturnSize.toNat := by
  unfold checkScript at passed
  split at passed
  · rename_i solutions solved
    obtain ⟨h, made, -⟩ := solver_eq_pubkeyHash_iff.mp solved
    exact .inl ⟨h, made⟩
  · rename_i solutions solved
    obtain ⟨rest, chunks, carrier, pushes, rfl⟩ := solver_eq_nullData_iff.mp solved
    rw [rejectIf_eq_ok] at passed
    exact .inr ⟨rest, chunks, carrier, pushes, Nat.not_lt.mp passed⟩
  · cases passed

/-- The loop over the outputs, as it passes. -/
theorem checkOutputsFrom_spec : ∀ {outs : List TxOutput} {i : Nat} {total : Int64}, 0 ≤ total →
    total ≤ P.maxMoney → checkOutputsFrom P tx i total outs = .ok () →
    (∀ out ∈ outs, 0 ≤ out.value ∧
      ((∃ h, out.scriptPubKey = createPayToPubkeyHash h ∧
          (tx.isCoinbase = false → P.dustThreshold ≤ out.value)) ∨
        ∃ rest chunks, out.scriptPubKey = opReturn :: rest ∧ Pushes rest chunks ∧
          chunks.flatten.length ≤ P.maxOpReturnSize.toNat)) ∧
      ∀ n, total.toInt + ((outs.take n).map (·.value.toInt)).sum ≤ P.maxMoney.toInt := by
  intro outs
  induction outs with
  | nil =>
      intro i total low high passed
      refine ⟨nofun, fun n => ?_⟩
      rw [List.take_nil, List.map_nil, List.sum_nil, add_zero]
      exact Int64.le_iff_toInt_le.mp high
  | cons out outs ih =>
      intro i total low high passed
      simp only [checkOutputsFrom, bind_eq_ok, rejectIf_eq_ok, exists_unit_iff] at passed
      obtain ⟨range, template, dust, rest⟩ := passed
      obtain ⟨nonneg, -⟩ := checkMoneyRange_ok range
      cases sum : safeAdd total out.value with
      | none => simp [sum] at rest
      | some next =>
          simp only [sum, bind_eq_ok, rejectIf_eq_ok, exists_unit_iff] at rest
          obtain ⟨limit, later⟩ := rest
          have exact := safeAdd_eq_some sum
          have lowNext : 0 ≤ next := by
            rw [Int64.le_iff_toInt_le, Int64.toInt_zero] at low nonneg ⊢
            omega
          obtain ⟨each, sums⟩ := ih lowNext (Int64.not_lt.mp limit) later
          refine ⟨List.forall_mem_cons.mpr ⟨⟨nonneg, ?_⟩, each⟩, fun n => ?_⟩
          · rcases checkScript_ok template with ⟨h, pays⟩ | carrier
            · refine .inl ⟨h, pays, fun payment => Int64.not_lt.mp fun low => dust ⟨payment, ?_, low⟩⟩
              rw [solver_eq_pubkeyHash_iff.mpr ⟨h, pays, rfl⟩]
            · exact .inr carrier
          · cases n with
            | zero =>
                rw [List.take_zero, List.map_nil, List.sum_nil, add_zero]
                exact Int64.le_iff_toInt_le.mp high
            | succ n =>
                have later := sums n
                rw [exact] at later
                rw [List.take_succ_cons, List.map_cons, List.sum_cons]
                omega

end

end TxValidation

/-- **Accepted outputs.** Every output of an accepted transaction is a payment or
data within the limit, and no partial sum leaves the money range; each is as the
white paper has it exactly when no `OP_RETURN` output has a value. -/
theorem outputs_sound_iff {P : Params} {tx : Transaction}
    (passed : checkTransaction P tx = .ok ()) :
    ((∀ out ∈ tx.outputs, out.Sound P tx) ∧
        (∀ n, 0 ≤ tx.totalOfFirst n ∧ tx.totalOfFirst n ≤ P.maxMoney.toInt)) ↔
      ∀ out ∈ tx.outputs, out.scriptPubKey.head? = some opReturn → out.value = 0 := by
  simp only [checkTransaction, checkTxOutputs, bind_eq_ok, rejectIf_eq_ok, exists_unit_iff] at passed
  obtain ⟨-, -, ⟨some, outs⟩, -⟩ := passed
  have money : 0 ≤ P.maxMoney := by
    cases listed : tx.outputs with
    | nil => exact absurd listed some
    | cons out outs' =>
        rw [listed, checkOutputsFrom] at outs
        simp only [bind_eq_ok] at outs
        obtain ⟨_, range, -⟩ := outs
        exact Int64.le_trans (checkMoneyRange_ok range).1 (checkMoneyRange_ok range).2
  obtain ⟨each, sums⟩ := checkOutputsFrom_spec (Int64.le_refl 0) money outs
  constructor
  · rintro ⟨sound, -⟩ out mem carrier
    rcases sound out mem with ⟨h, pays, -⟩ | ⟨rest, chunks, -, -, -, valueless⟩
    · rw [pays] at carrier
      cases carrier
    · exact valueless
  · intro valueless
    refine ⟨fun out mem => ?_, fun n => ⟨?_, ?_⟩⟩
    · rcases (each out mem).2 with pays | ⟨rest, chunks, carrier, pushes, fits⟩
      · exact .inl pays
      · exact .inr ⟨rest, chunks, carrier, pushes, fits, valueless out mem (by rw [carrier]; rfl)⟩
    · apply List.sum_nonneg
      intro v mem
      obtain ⟨out, listed, rfl⟩ := List.mem_map.mp mem
      exact Int64.le_iff_toInt_le.mp (each out (List.mem_of_mem_take listed)).1
    · have limit := sums n
      rwa [Int64.toInt_zero, zero_add] at limit

namespace SmallNetwork

/-- A payment with a message behind it, and what the message is worth. -/
def payWithMessage (value : Int64) : Transaction :=
  { pay 3 2 7 5 with
    outputs := [.payTo 5 1, ⟨value, createNullData [72, 105]⟩]
    outputs_le := by simp [Transaction.maxOutputs] }

end SmallNetwork

open SmallNetwork in
theorem outputs_sound_iff_valueless_message :
    checkTransaction smallNetwork (payWithMessage 0) = .ok () ∧
      ∀ out ∈ (payWithMessage 0).outputs, out.Sound smallNetwork (payWithMessage 0) := by
  have passed : checkTransaction smallNetwork (payWithMessage 0) = .ok () := by decide +kernel
  refine ⟨passed, ((outputs_sound_iff passed).mpr ?_).1⟩
  decide +kernel

open SmallNetwork in
/-- A message that carries a value is accepted. -/
theorem message_with_value_accepted :
    checkTransaction smallNetwork (payWithMessage 3) = .ok () ∧
      ¬ ∀ out ∈ (payWithMessage 3).outputs, out.Sound smallNetwork (payWithMessage 3) := by
  refine ⟨by decide +kernel, fun sound => ?_⟩
  rcases sound ⟨3, createNullData [72, 105]⟩ (by simp [payWithMessage]) with
    ⟨h, pays, -⟩ | ⟨rest, chunks, -, -, -, valueless⟩
  · cases congrArg List.head? pays
  · cases valueless

end QmaskCore
