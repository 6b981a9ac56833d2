import QmaskCore.Lib.Buffer
import QmaskCore.Primitives.Script

/-!
The pushes of a script.

`Push` is what one push is made of, `Pushes` a script of nothing else.
`Script.getOpAt` and `solverAt` are `GetOp` and `Solver` as the source runs
them, with a position that moves over the script; `solverAt_eq` says they end,
read nothing outside and answer as `solver` does. `solver_eq_nullData_iff` tells
data carriers by their pushes.
-/

namespace QmaskCore

open LittleEndian Buffer

/-! ### What a push is made of -/

/-- The bytes of a push and what it pushes. -/
inductive Push : List UInt8 → List UInt8 → Prop
  | empty : Push [op0] []
  | direct {data : List UInt8} : 1 ≤ data.length → data.length ≤ 75 →
      Push (UInt8.ofNat data.length :: data) data
  | data1 {data : List UInt8} : data.length < 2 ^ 8 →
      Push (opPushData1 :: UInt8.ofNat data.length :: data) data
  | data2 {data : List UInt8} : data.length < 2 ^ 16 →
      Push (opPushData2 :: (leBytes 2 data.length ++ data)) data
  | data4 {data : List UInt8} : data.length ≤ maxScriptSize →
      Push (opPushData4 :: (leBytes 4 data.length ++ data)) data

/-- A script of pushes, with what each pushes. -/
inductive Pushes : Script → List (List UInt8) → Prop
  | nil : Pushes [] []
  | cons {bytes data : List UInt8} {rest : Script} {chunks : List (List UInt8)} :
      Push bytes data → Pushes rest chunks → Pushes (bytes ++ rest) (data :: chunks)

theorem takePush_append (data rest : List UInt8) :
    takePush data.length (data ++ rest) = some (data, rest) := by
  rw [takePush, if_neg (by simp), List.take_left' rfl, List.drop_left' rfl]

theorem takePush_eq_some {len : Nat} {script chunk rest : List UInt8}
    (taken : takePush len script = some (chunk, rest)) :
    script = chunk ++ rest ∧ chunk.length = len := by
  unfold takePush at taken
  split at taken
  · cases taken
  · rename_i inside
    cases taken
    exact ⟨(List.take_append_drop len script).symm, by rw [List.length_take]; omega⟩

/-- `PushData` writes a push, as long as its length fits what the reader takes. -/
theorem push_pushData {data : List UInt8} (fits : data.length < 2 ^ 16) :
    Push (pushData data) data := by
  unfold pushData
  split
  · rename_i none
    rw [List.length_eq_zero_iff.mp none]
    exact .empty
  · split
    · exact .direct (by omega) (by omega)
    · split
      · exact .data1 (by omega)
      · rw [if_pos (by omega)]
        exact .data2 fits

/-- Two bytes of a length. -/
theorem leBytes_two (n : Nat) : ∃ b0 b1, leBytes 2 n = [b0, b1] := ⟨_, _, rfl⟩

theorem leBytes_four (n : Nat) : ∃ b0 b1 b2 b3, leBytes 4 n = [b0, b1, b2, b3] := ⟨_, _, _, _, rfl⟩

/-! ### Reading a push -/

theorem getOp_direct {opcode : UInt8} (low : 0x01 ≤ opcode) (high : opcode ≤ 0x4b) (rest : Script) :
    Script.getOp (opcode :: rest) =
      (takePush opcode.toNat rest).map fun p => (opcode, p.1, p.2) :=
  if_pos ⟨low, high⟩

theorem getOp_pushData1 (len : UInt8) (rest : Script) : Script.getOp (opPushData1 :: len :: rest) =
    (takePush len.toNat rest).map fun p => (opPushData1, p.1, p.2) := rfl

theorem getOp_pushData2 (b0 b1 : UInt8) (rest : Script) :
    Script.getOp (opPushData2 :: b0 :: b1 :: rest) =
      (takePush (ofLE [b0, b1]) rest).map fun p => (opPushData2, p.1, p.2) := rfl

theorem getOp_pushData4 (b0 b1 b2 b3 : UInt8) (rest : Script) :
    Script.getOp (opPushData4 :: b0 :: b1 :: b2 :: b3 :: rest) =
      if maxScriptSize < ofLE [b0, b1, b2, b3] then none
      else (takePush (ofLE [b0, b1, b2, b3]) rest).map fun p => (opPushData4, p.1, p.2) := rfl

theorem getOp_pushData2_short {rest : Script} (short : rest.length < 2) :
    Script.getOp (opPushData2 :: rest) = none := by
  match rest, short with
  | [], _ => rfl
  | [_], _ => rfl

theorem getOp_pushData4_short {rest : Script} (short : rest.length < 4) :
    Script.getOp (opPushData4 :: rest) = none := by
  match rest, short with
  | [], _ => rfl
  | [_], _ => rfl
  | [_, _], _ => rfl
  | [_, _, _], _ => rfl

/-- An opcode that carries nothing. -/
theorem getOp_bare {opcode : UInt8} (indirect : ¬ (0x01 ≤ opcode ∧ opcode ≤ 0x4b))
    (one : opcode ≠ opPushData1) (two : opcode ≠ opPushData2) (four : opcode ≠ opPushData4)
    (rest : Script) : Script.getOp (opcode :: rest) = some (opcode, [], rest) := by
  unfold Script.getOp
  dsimp only
  rw [if_neg indirect, if_neg one, if_neg two, if_neg four]

/-- A push is read as it was written, whatever comes behind it. -/
theorem Push.getOp {bytes data : List UInt8} (push : Push bytes data) :
    ∃ opcode, isPush opcode = true ∧
      ∀ rest, Script.getOp (bytes ++ rest) = some (opcode, data, rest) := by
  cases push with
  | empty => exact ⟨op0, rfl, fun rest => rfl⟩
  | direct some few =>
      have value : (UInt8.ofNat data.length).toNat = data.length := by
        rw [UInt8.toNat_ofNat', Nat.mod_eq_of_lt (by omega)]
      have low : 0x01 ≤ UInt8.ofNat data.length := by
        rw [UInt8.le_iff_toNat_le, value]
        exact some
      have high : UInt8.ofNat data.length ≤ 0x4b := by
        rw [UInt8.le_iff_toNat_le, value]
        exact few
      refine ⟨UInt8.ofNat data.length, ?_, fun rest => ?_⟩
      · simp [isPush, low, high]
      · rw [List.cons_append, getOp_direct low high, value, takePush_append]
        rfl
  | data1 few =>
      have value : (UInt8.ofNat data.length).toNat = data.length := by
        rw [UInt8.toNat_ofNat', Nat.mod_eq_of_lt few]
      refine ⟨opPushData1, rfl, fun rest => ?_⟩
      rw [List.cons_append, List.cons_append, getOp_pushData1, value, takePush_append]
      rfl
  | data2 few =>
      obtain ⟨b0, b1, bytes⟩ := leBytes_two data.length
      have value : ofLE [b0, b1] = data.length := by
        rw [← bytes, ofLE_leBytes_of_lt few]
      refine ⟨opPushData2, rfl, fun rest => ?_⟩
      rw [bytes]
      simp only [List.cons_append, List.nil_append]
      rw [getOp_pushData2, value, takePush_append]
      rfl
  | data4 few =>
      obtain ⟨b0, b1, b2, b3, bytes⟩ := leBytes_four data.length
      have value : ofLE [b0, b1, b2, b3] = data.length := by
        rw [← bytes, ofLE_leBytes_of_lt (few.trans_lt (by decide))]
      refine ⟨opPushData4, rfl, fun rest => ?_⟩
      rw [bytes]
      simp only [List.cons_append, List.nil_append]
      rw [getOp_pushData4, value, if_neg (Nat.not_lt.mpr few), takePush_append]
      rfl

/-- What is read as a push is one. -/
theorem push_of_getOp {script chunk rest : List UInt8} {opcode : UInt8}
    (read : Script.getOp script = some (opcode, chunk, rest)) (pushes : isPush opcode = true) :
    ∃ bytes, Push bytes chunk ∧ script = bytes ++ rest := by
  cases script with
  | nil => cases read
  | cons first behind =>
      by_cases direct : 0x01 ≤ first ∧ first ≤ 0x4b
      · rw [getOp_direct direct.1 direct.2] at read
        obtain ⟨⟨data, rest'⟩, taken, same⟩ := Option.map_eq_some_iff.mp read
        cases same
        obtain ⟨whole, length⟩ := takePush_eq_some taken
        have push := @Push.direct data (length ▸ UInt8.le_iff_toNat_le.mp direct.1)
          (length ▸ UInt8.le_iff_toNat_le.mp direct.2)
        rw [length, UInt8.ofNat_toNat] at push
        exact ⟨_, push, congrArg _ whole⟩
      by_cases one : first = opPushData1
      · subst one
        cases behind with
        | nil => cases read
        | cons len behind =>
            rw [getOp_pushData1] at read
            obtain ⟨⟨data, rest'⟩, taken, same⟩ := Option.map_eq_some_iff.mp read
            cases same
            obtain ⟨whole, length⟩ := takePush_eq_some taken
            have push := @Push.data1 data (length ▸ len.toNat_lt)
            rw [length, UInt8.ofNat_toNat] at push
            exact ⟨_, push, by rw [whole]; rfl⟩
      by_cases two : first = opPushData2
      · subst two
        match behind, read with
        | b0 :: b1 :: behind, read =>
            rw [getOp_pushData2] at read
            obtain ⟨⟨data, rest'⟩, taken, same⟩ := Option.map_eq_some_iff.mp read
            cases same
            obtain ⟨whole, length⟩ := takePush_eq_some taken
            have small : ofLE [b0, b1] < 2 ^ 16 := by simpa using ofLE_lt [b0, b1]
            have push := @Push.data2 data (length ▸ small)
            have bytes : leBytes 2 data.length = [b0, b1] := by
              rw [length]
              exact leBytes_ofLE [b0, b1]
            rw [bytes] at push
            exact ⟨_, push, by rw [whole]; rfl⟩
      by_cases four : first = opPushData4
      · subst four
        match behind, read with
        | b0 :: b1 :: b2 :: b3 :: behind, read =>
            rw [getOp_pushData4] at read
            split at read
            · cases read
            rename_i few
            obtain ⟨⟨data, rest'⟩, taken, same⟩ := Option.map_eq_some_iff.mp read
            cases same
            obtain ⟨whole, length⟩ := takePush_eq_some taken
            have push := @Push.data4 data (length ▸ Nat.not_lt.mp few)
            have bytes : leBytes 4 data.length = [b0, b1, b2, b3] := by
              rw [length]
              exact leBytes_ofLE [b0, b1, b2, b3]
            rw [bytes] at push
            exact ⟨_, push, by rw [whole]; rfl⟩
      -- A bare opcode is a push only where it pushes nothing.
      rw [getOp_bare direct one two four] at read
      cases read
      have zero : opcode = op0 := by
        simp only [isPush, Bool.or_eq_true, Bool.and_eq_true, decide_eq_true_eq] at pushes
        tauto
      exact ⟨[opcode], zero ▸ .empty, rfl⟩

theorem Push.ne_nil {bytes data : List UInt8} (push : Push bytes data) : bytes ≠ [] := by
  cases push <;> simp

/-- Reading a push moves on. -/
theorem Push.length_lt {bytes data : List UInt8} (push : Push bytes data) (rest : Script) :
    List.length rest < (bytes ++ rest).length := by
  have some := List.length_pos_iff.mpr push.ne_nil
  rw [List.length_append]
  omega

/-! ### Data carriers -/

theorem nullDataPayload_append {bytes data : List UInt8} (push : Push bytes data) (fuel : Nat)
    (rest : Script) (payload : List UInt8) : nullDataPayload (fuel + 1) (bytes ++ rest) payload =
      nullDataPayload fuel rest (payload ++ data) := by
  obtain ⟨opcode, pushes, read⟩ := push.getOp
  rw [nullDataPayload, read rest]
  · dsimp only
    rw [if_pos pushes]
  · intro empty
    exact push.ne_nil (List.append_eq_nil_iff.mp empty).1

theorem Pushes.eq_or {script : Script} {chunks : List (List UInt8)} (pushes : Pushes script chunks) :
    script = [] ∧ chunks = [] ∨ ∃ bytes data rest chunks', Push bytes data ∧ Pushes rest chunks' ∧
      script = bytes ++ rest ∧ chunks = data :: chunks' := by
  cases pushes with
  | nil => exact .inl ⟨rfl, rfl⟩
  | cons push rest => exact .inr ⟨_, _, _, _, push, rest, rfl, rfl⟩

theorem pushes_nil_iff {chunks : List (List UInt8)} : Pushes [] chunks ↔ chunks = [] := by
  constructor
  · intro pushes
    rcases pushes.eq_or with ⟨-, none⟩ | ⟨bytes, data, rest, chunks', push, -, whole, -⟩
    · exact none
    · exact absurd (List.append_eq_nil_iff.mp whole.symm).1 push.ne_nil
  · rintro rfl
    exact .nil

/-- The payload of a script is what its pushes carry. -/
theorem nullDataPayload_eq_some_iff : ∀ {fuel : Nat} {script : Script} {payload total : List UInt8},
    script.length ≤ fuel → (nullDataPayload fuel script payload = some total ↔
      ∃ chunks, Pushes script chunks ∧ total = payload ++ chunks.flatten) := by
  have done (fuel : Nat) (payload total : List UInt8) :
      nullDataPayload fuel [] payload = some total ↔
        ∃ chunks, Pushes [] chunks ∧ total = payload ++ chunks.flatten := by
    rw [nullDataPayload]
    simp only [pushes_nil_iff, exists_eq_left, List.flatten_nil, List.append_nil, Option.some.injEq]
    exact eq_comm
  intro fuel
  induction fuel with
  | zero =>
      intro script payload total short
      obtain rfl := List.length_eq_zero_iff.mp (Nat.le_zero.mp short)
      exact done 0 payload total
  | succ fuel ih =>
      intro script payload total short
      cases script with
      | nil => exact done (fuel + 1) payload total
      | cons first behind =>
          constructor
          · intro found
            unfold nullDataPayload at found
            split at found
            · cases found
            rename_i opcode chunk rest read
            split at found
            · rename_i pushes
              obtain ⟨bytes, push, whole⟩ := push_of_getOp read pushes
              have fewer : rest.length ≤ fuel :=
                Nat.le_of_lt_succ ((whole ▸ push.length_lt rest).trans_le short)
              obtain ⟨chunks, later, rfl⟩ := (ih fewer).mp found
              refine ⟨chunk :: chunks, ?_, ?_⟩
              · rw [whole]
                exact .cons push later
              · rw [List.flatten_cons, List.append_assoc]
            · cases found
          · rintro ⟨chunks, pushes, rfl⟩
            rcases pushes.eq_or with ⟨empty, -⟩ | ⟨bytes, data, rest, chunks', push, later, whole, rfl⟩
            · cases empty
            · have fewer : rest.length ≤ fuel := by
                have total := congrArg List.length whole
                have some := List.length_pos_iff.mpr push.ne_nil
                rw [List.length_append] at total
                omega
              rw [whole, nullDataPayload_append push]
              exact (ih fewer).mpr ⟨chunks', later, by rw [List.flatten_cons, List.append_assoc]⟩

theorem not_pays_carrier (rest : Script) : Script.isPayToPubkeyHash (opReturn :: rest) = none :=
  if_neg fun template => absurd template.2.1 (by simp [opReturn, opDup])

/-- A data carrier is an `OP_RETURN` with pushes behind it, and its solution is
what they carry. -/
theorem solver_eq_nullData_iff {script : Script} {solutions : List (List UInt8)} :
    solver script = (.nullData, solutions) ↔ ∃ rest chunks,
      script = opReturn :: rest ∧ Pushes rest chunks ∧ solutions = [chunks.flatten] := by
  constructor
  · intro solved
    unfold solver at solved
    split at solved
    · cases solved
    split at solved
    · rename_i opcode rest _
      split at solved
      · rename_i carrier
        split at solved
        · rename_i payload found
          cases solved
          obtain ⟨chunks, pushes, rfl⟩ := (nullDataPayload_eq_some_iff le_rfl).mp found
          exact ⟨rest, chunks, by rw [carrier], pushes, by rw [List.nil_append]⟩
        · cases solved
      · cases solved
    · cases solved
  · rintro ⟨rest, chunks, rfl, pushes, rfl⟩
    have other := not_pays_carrier rest
    have found := (@nullDataPayload_eq_some_iff _ rest [] _ le_rfl).mpr ⟨chunks, pushes, rfl⟩
    rw [List.nil_append] at found
    rw [solver, other]
    dsimp only
    rw [if_pos rfl, found]

theorem solver_of_not_pushes {rest : Script} (other : ∀ chunks, ¬ Pushes rest chunks) :
    solver (opReturn :: rest) = (.nonstandard, []) := by
  have unpaid : Script.isPayToPubkeyHash (opReturn :: rest) = none := not_pays_carrier rest
  have none : nullDataPayload rest.length rest [] = none := by
    rw [Option.eq_none_iff_forall_ne_some]
    intro total found
    obtain ⟨chunks, pushes, -⟩ := (nullDataPayload_eq_some_iff le_rfl).mp found
    exact other chunks pushes
  rw [solver, unpaid]
  dsimp only
  rw [if_pos rfl, none]

/-! ### Payments -/

/-- A payment script is the one made for the hash in it. -/
theorem eq_createPayToPubkeyHash {script : Script} {h : Bytes32}
    (pays : script.isPayToPubkeyHash = some h) : script = createPayToPubkeyHash h := by
  unfold Script.isPayToPubkeyHash at pays
  split at pays
  · rename_i template
    cases pays
    obtain ⟨length, dup, sha, size, verify, check⟩ := template
    have middle : ((script.drop 3).take 32).length = 32 := by
      rw [List.length_take, List.length_drop, length]
      rfl
    have front : script.take 3 = [opDup, opSha256, 0x20] := by
      simp [List.take_add_one, dup, sha, size]
    have back : script.drop 35 = [opEqualVerify, opCheckSig] := by
      rw [List.drop_eq_getElem?_toList_append, verify, List.drop_eq_getElem?_toList_append, check,
        List.drop_of_length_le length.le]
      rfl
    rw [createPayToPubkeyHash, Bytes32.toBytes_ofBytes middle, ← front, ← back, List.append_assoc]
    calc script = script.take 3 ++ script.drop 3 := (List.take_append_drop 3 script).symm
      _ = script.take 3 ++ ((script.drop 3).take 32 ++ script.drop 35) := by
          have later : (script.drop 3).drop 32 = script.drop 35 := by rw [List.drop_drop]
          rw [← later, List.take_append_drop 32 (script.drop 3)]
  · cases pays

theorem solver_eq_pubkeyHash_iff {script : Script} {solutions : List (List UInt8)} :
    solver script = (.pubkeyHash, solutions) ↔
      ∃ h, script = createPayToPubkeyHash h ∧ solutions = [h.toBytes] := by
  constructor
  · intro solved
    unfold solver at solved
    split at solved
    · rename_i h pays
      cases solved
      exact ⟨h, eq_createPayToPubkeyHash pays, rfl⟩
    split at solved
    · split at solved
      · split at solved
        · cases solved
        · cases solved
      · cases solved
    · cases solved
  · rintro ⟨h, rfl, rfl⟩
    unfold solver
    rw [isPayToPubkeyHash_createPayToPubkeyHash]

/-! ### Written one after the other -/

theorem pushes_flatMap_pushData : ∀ {chunks : List (List UInt8)},
    (∀ chunk ∈ chunks, chunk.length < 2 ^ 16) → Pushes (chunks.flatMap pushData) chunks := by
  intro chunks
  induction chunks with
  | nil => exact fun _ => .nil
  | cons chunk chunks ih =>
      intro few
      rw [List.flatMap_cons]
      exact .cons (push_pushData (few chunk List.mem_cons_self))
        (ih fun c mem => few c (List.mem_cons_of_mem _ mem))

theorem pushData_ne_nil (data : List UInt8) : pushData data ≠ [] := by
  unfold pushData
  split_ifs <;> simp

/-- The four bytes of a length past `MAX_SCRIPT_SIZE` are not taken. -/
theorem getOp_pushData_of_long {data : List UInt8} (long : 2 ^ 16 ≤ data.length)
    (fits : data.length < 2 ^ 32) (rest : Script) : Script.getOp (pushData data ++ rest) = none := by
  obtain ⟨b0, b1, b2, b3, bytes⟩ := leBytes_four data.length
  have value : ofLE [b0, b1, b2, b3] = data.length := by
    rw [← bytes, ofLE_leBytes_of_lt fits]
  have past : maxScriptSize < data.length := lt_of_lt_of_le (by decide) long
  rw [pushData, if_neg (by omega), if_neg (by omega), if_neg (by omega), if_neg (by omega), bytes]
  simp only [List.cons_append, List.nil_append]
  rw [getOp_pushData4, value, if_pos past]

/-- The pushes of a script that starts with one. -/
theorem Pushes.tail {bytes data : List UInt8} {rest : Script} {chunks : List (List UInt8)}
    (push : Push bytes data) (pushes : Pushes (bytes ++ rest) chunks) :
    ∃ chunks', Pushes rest chunks' ∧ chunks = data :: chunks' := by
  obtain ⟨opcode, -, read⟩ := push.getOp
  rcases pushes.eq_or with ⟨empty, -⟩ | ⟨bytes', data', rest', chunks', push', later, whole, rfl⟩
  · exact absurd (List.append_eq_nil_iff.mp empty).1 push.ne_nil
  · obtain ⟨opcode', -, read'⟩ := push'.getOp
    have same := (read rest).symm.trans ((congrArg Script.getOp whole).trans (read' rest'))
    cases same
    exact ⟨chunks', later, rfl⟩

theorem not_pushes_of_long {before after : List (List UInt8)} {long : List UInt8}
    (few : ∀ chunk ∈ before, chunk.length < 2 ^ 16) (past : 2 ^ 16 ≤ long.length)
    (fits : long.length < 2 ^ 32) {chunks : List (List UInt8)} :
    ¬ Pushes ((before ++ long :: after).flatMap pushData) chunks := by
  induction before generalizing chunks with
  | nil =>
      intro pushes
      have stuck := getOp_pushData_of_long past fits (after.flatMap pushData)
      rw [List.nil_append, List.flatMap_cons] at pushes
      rcases pushes.eq_or with ⟨empty, -⟩ | ⟨bytes, data, rest, chunks', push, -, whole, -⟩
      · exact absurd (List.append_eq_nil_iff.mp empty).1 (pushData_ne_nil long)
      · obtain ⟨opcode, -, read⟩ := push.getOp
        rw [whole, read rest] at stuck
        cases stuck
  | cons chunk before ih =>
      intro pushes
      rw [List.cons_append, List.flatMap_cons] at pushes
      obtain ⟨chunks', later, -⟩ := pushes.tail (push_pushData (few chunk List.mem_cons_self))
      exact ih (fun c mem => few c (List.mem_cons_of_mem _ mem)) later

/-- A chunk whose length takes four bytes makes a script that is no data carrier. -/
theorem solver_of_long {chunks : List (List UInt8)}
    (fits : ∀ chunk ∈ chunks, chunk.length < 2 ^ 32) (long : ∃ chunk ∈ chunks, 2 ^ 16 ≤ chunk.length) :
    solver (opReturn :: chunks.flatMap pushData) = (.nonstandard, []) := by
  have found : (chunks.find? fun chunk => decide (2 ^ 16 ≤ chunk.length)).isSome := by
    simpa using long
  obtain ⟨chunk, first⟩ := Option.isSome_iff_exists.mp found
  obtain ⟨past, before, after, rfl, few⟩ := List.find?_eq_some_iff_append.mp first
  refine solver_of_not_pushes fun chunks' => not_pushes_of_long (fun c mem => ?_) ?_ ?_
  · simpa using few c mem
  · simpa using past
  · exact fits chunk (List.mem_append_right _ List.mem_cons_self)

/-! ### `GetOp` and `Solver` over one script -/

namespace Script

/-- `(*this)[pc]`. -/
def byteAt (script : Script) (pc : Nat) : Except Halt UInt8 :=
  match script[pc]? with
  | none => .error .outside
  | some byte => .ok byte

/-- `len` bytes at a position, `none` where the script ends before. -/
def pushAt (script : Script) (opcode : UInt8) (pc len : Nat) :
    Except Halt (Option (UInt8 × List UInt8 × Nat)) :=
  if script.length < pc + len then return none
  else do
    let chunk ← slice script pc len
    return some (opcode, chunk, pc + len)

/-- `GetOp`: the opcode, what it pushes and the position behind it. -/
def getOpAt (script : Script) (pc : Nat) : Except Halt (Option (UInt8 × List UInt8 × Nat)) :=
  if script.length ≤ pc then return none
  else do
    let opcode ← script.byteAt pc
    let pc := pc + 1
    if 0x01 ≤ opcode ∧ opcode ≤ 0x4b then script.pushAt opcode pc opcode.toNat
    else if opcode = opPushData1 then
      if script.length < pc + 1 then return none
      else do
        let len ← script.byteAt pc
        script.pushAt opPushData1 (pc + 1) len.toNat
    else if opcode = opPushData2 then
      if script.length < pc + 2 then return none
      else do
        let b0 ← script.byteAt pc
        let b1 ← script.byteAt (pc + 1)
        script.pushAt opPushData2 (pc + 2) (b0.toNat ||| b1.toNat <<< 8)
    else if opcode = opPushData4 then
      if script.length < pc + 4 then return none
      else do
        let b0 ← script.byteAt pc
        let b1 ← script.byteAt (pc + 1)
        let b2 ← script.byteAt (pc + 2)
        let b3 ← script.byteAt (pc + 3)
        let len := b0.toNat ||| b1.toNat <<< 8 ||| b2.toNat <<< 16 ||| b3.toNat <<< 24
        if maxScriptSize < len then return none else script.pushAt opPushData4 (pc + 4) len
    else return some (opcode, [], pc)

end Script

/-- The loop over the operations of a data carrier, with as many turns as it may take. -/
def solverLoop (script : Script) : Nat → Nat → List UInt8 → Except Halt (Option (List UInt8))
  | 0, pc, payload => if pc < script.length then .error .endless else return some payload
  | turns + 1, pc, payload =>
      if pc < script.length then do
        match ← script.getOpAt pc with
        | none => return none
        | some (opcode, chunk, pc) =>
            if isPush opcode then solverLoop script turns pc (payload ++ chunk) else return none
      else return some payload

/-- `Solver`. -/
def solverAt (script : Script) : Except Halt (TxoutType × List (List UInt8)) :=
  match script.isPayToPubkeyHash with
  | some hash => return (.pubkeyHash, [hash.toBytes])
  | none =>
      if script.head? = some opReturn then do
        match ← solverLoop script (script.length - 1) 1 [] with
        | some payload => return (.nullData, [payload])
        | none => return (.nonstandard, [])
      else return (.nonstandard, [])

/-! ### They agree -/

namespace Script

variable {script : Script} {pc : Nat}

theorem byteAt_eq (inside : pc < script.length) :
    ∃ byte, script.byteAt pc = .ok byte ∧ script.drop pc = byte :: script.drop (pc + 1) := by
  refine ⟨script[pc], ?_, List.drop_eq_getElem_cons inside⟩
  rw [byteAt, List.getElem?_eq_getElem inside]

/-- An operation as the position behind it tells it. -/
def placed (script : Script) (read : Option (UInt8 × List UInt8 × Script)) :
    Option (UInt8 × List UInt8 × Nat) :=
  read.map fun (opcode, chunk, rest) => (opcode, chunk, script.length - rest.length)

theorem pushAt_eq (opcode : UInt8) (len : Nat) (inside : pc ≤ script.length) :
    script.pushAt opcode pc len = .ok (script.placed
      ((takePush len (script.drop pc)).map fun p => (opcode, p.1, p.2))) := by
  have left : (script.drop pc).length = script.length - pc := List.length_drop
  unfold pushAt takePush
  split
  · rw [if_pos (by omega)]
    rfl
  · rw [if_neg (by omega), slice_eq (by omega), ok_bind]
    simp only [placed, Option.map_some, List.length_drop]
    congr 4
    omega

theorem getOpAt_eq (script : Script) (pc : Nat) :
    script.getOpAt pc = .ok (script.placed (getOp (script.drop pc))) := by
  unfold getOpAt
  split
  · rename_i ended
    rw [List.drop_of_length_le ended]
    rfl
  rename_i inside
  obtain ⟨opcode, read, behind⟩ := byteAt_eq (Nat.not_le.mp inside)
  rw [read, ok_bind, behind]
  dsimp only
  have left : (script.drop (pc + 1)).length = script.length - (pc + 1) := List.length_drop
  split
  · rename_i direct
    rw [getOp_direct direct.1 direct.2]
    exact pushAt_eq opcode _ (Nat.not_le.mp inside)
  rename_i indirect
  split
  · rename_i one
    subst one
    split
    · rename_i short
      rw [List.drop_of_length_le (by omega)]
      rfl
    · rename_i long
      obtain ⟨len, read', behind'⟩ := @byteAt_eq script (pc + 1) (by omega)
      rw [read', ok_bind, behind', getOp_pushData1]
      exact pushAt_eq opPushData1 _ (by omega)
  rename_i one
  split
  · rename_i two
    subst two
    split
    · rename_i short
      rw [getOp_pushData2_short (by omega)]
      rfl
    · rename_i long
      obtain ⟨b0, read0, behind0⟩ := @byteAt_eq script (pc + 1) (by omega)
      obtain ⟨b1, read1, behind1⟩ := @byteAt_eq script (pc + 1 + 1) (by omega)
      rw [read0, ok_bind, read1, ok_bind, behind0, behind1, getOp_pushData2, ofLE_two]
      exact pushAt_eq opPushData2 _ (by omega)
  rename_i two
  split
  · rename_i four
    subst four
    split
    · rename_i short
      rw [getOp_pushData4_short (by omega)]
      rfl
    · rename_i long
      obtain ⟨b0, read0, behind0⟩ := @byteAt_eq script (pc + 1) (by omega)
      obtain ⟨b1, read1, behind1⟩ := @byteAt_eq script (pc + 1 + 1) (by omega)
      obtain ⟨b2, read2, behind2⟩ := @byteAt_eq script (pc + 1 + 2) (by omega)
      obtain ⟨b3, read3, behind3⟩ := @byteAt_eq script (pc + 1 + 3) (by omega)
      rw [read0, ok_bind, read1, ok_bind, read2, ok_bind, read3, ok_bind, behind0, behind1, behind2,
        behind3, getOp_pushData4]
      simp only [ofLE_four]
      split
      · rfl
      · exact pushAt_eq opPushData4 _ (by omega)
  rename_i four
  rw [getOp_bare indirect one two four]
  have moved : script.length - (script.length - (pc + 1)) = pc + 1 := by omega
  simp only [placed, Option.map_some, left, moved]
  rfl

end Script

theorem solverLoop_eq {script : Script} : ∀ {turns pc : Nat} {payload : List UInt8},
    script.length ≤ turns + pc →
    solverLoop script turns pc payload = .ok (nullDataPayload turns (script.drop pc) payload) := by
  intro turns
  induction turns with
  | zero =>
      intro pc payload enough
      rw [solverLoop, if_neg (by omega), List.drop_of_length_le (by omega), nullDataPayload]
      rfl
  | succ turns ih =>
      intro pc payload enough
      rw [solverLoop]
      split
      · rename_i inside
        rw [Script.getOpAt_eq, ok_bind, List.drop_eq_getElem_cons inside]
        unfold nullDataPayload
        cases read : Script.getOp (script[pc] :: script.drop (pc + 1)) with
        | none => rfl
        | some operation =>
            obtain ⟨opcode, chunk, rest⟩ := operation
            simp only [Script.placed, Option.map_some]
            split
            · rename_i pushes
              obtain ⟨bytes, push, whole⟩ := push_of_getOp read pushes
              rw [← List.drop_eq_getElem_cons inside] at whole
              have length := congrArg List.length whole
              have some := List.length_pos_iff.mpr push.ne_nil
              rw [List.length_drop, List.length_append] at length
              have position : script.length - rest.length = pc + bytes.length := by omega
              have behind : script.drop (pc + bytes.length) = rest := by
                rw [← List.drop_drop, whole, List.drop_left]
              rw [ih (by omega), position, behind]
            · rfl
      · rw [List.drop_of_length_le (by omega), nullDataPayload]
        rfl

/-- `Solver` ends, reads nothing outside the script and answers as `solver`. -/
theorem solverAt_eq (script : Script) : solverAt script = .ok (solver script) := by
  unfold solverAt solver
  cases script.isPayToPubkeyHash with
  | some hash => rfl
  | none =>
      cases script with
      | nil => rfl
      | cons opcode rest =>
          simp only [List.head?_cons, Option.some.injEq]
          split
          · rw [solverLoop_eq (by simp), ok_bind, List.drop_succ_cons, List.drop_zero,
              List.length_cons, Nat.add_sub_cancel]
            cases nullDataPayload rest.length rest [] with
            | none => rfl
            | some payload => rfl
          · rfl

/-! ### Script pushes -/

/-- **Pushes decode as written.** A push is read back wherever it stands, the two
templates are told apart by what they were made of, and reading stays inside the
script. A chunk that does not fit two bytes of length is not read back. -/
theorem pushes_decode :
    (∀ (s data suffix : List UInt8), data.length ≤ maxScriptSize → ∃ opcode,
      Script.getOpAt (s ++ pushData data ++ suffix) s.length =
        .ok (some (opcode, data, (s ++ pushData data).length))) ∧
    (∀ h, solver (createPayToPubkeyHash h) = (.pubkeyHash, [h.toBytes]) ∧
      ∀ script, solver script = (.pubkeyHash, [h.toBytes]) → script = createPayToPubkeyHash h) ∧
    (∀ chunks : List (List UInt8), (∀ chunk ∈ chunks, chunk.length < 2 ^ 16) →
      solver (opReturn :: chunks.flatMap pushData) = (.nullData, [chunks.flatten])) ∧
    (∀ chunks : List (List UInt8), (∀ chunk ∈ chunks, chunk.length < 2 ^ 32) →
      (∃ chunk ∈ chunks, 2 ^ 16 ≤ chunk.length) →
      solver (opReturn :: chunks.flatMap pushData) = (.nonstandard, [])) ∧
    ∀ script, solverAt script = .ok (solver script) := by
  refine ⟨?_, ?_, ?_, ?_, solverAt_eq⟩
  · intro s data suffix small
    obtain ⟨opcode, -, read⟩ := (push_pushData (small.trans_lt (by decide))).getOp
    refine ⟨opcode, ?_⟩
    rw [Script.getOpAt_eq, List.append_assoc, List.drop_left, read]
    simp only [Script.placed, Option.map_some, ← List.append_assoc]
    rw [@List.length_append _ _ suffix, Nat.add_sub_cancel]
  · refine fun h => ⟨solver_eq_pubkeyHash_iff.mpr ⟨h, rfl, rfl⟩, fun script solved => ?_⟩
    obtain ⟨h', made, same⟩ := solver_eq_pubkeyHash_iff.mp solved
    rw [made, Bytes32.toBytes_inj (List.singleton_inj.mp same)]
  · intro chunks few
    exact solver_eq_nullData_iff.mpr ⟨_, chunks, rfl, pushes_flatMap_pushData few, rfl⟩
  · exact fun chunks fits long => solver_of_long fits long

/-- A chunk as long as two bytes of length can tell. -/
theorem pushes_decode_longest : solver (opReturn :: pushData (List.replicate 65535 7)) =
    (.nullData, [List.replicate 65535 7]) := by
  have decoded := pushes_decode.2.2.1 [List.replicate 65535 7] (by
    intro chunk mem
    rw [List.mem_singleton.mp mem, List.length_replicate]
    decide)
  rwa [List.flatMap_cons, List.flatMap_nil, List.append_nil, List.flatten_singleton] at decoded

/-- One byte more, and the script is no data carrier. -/
theorem long_chunk_nonstandard : solver (opReturn :: [List.replicate 65536 7].flatMap pushData) ≠
    (.nullData, [[List.replicate 65536 7].flatten]) := by
  have long : ∀ chunk ∈ [List.replicate 65536 (7 : UInt8)], chunk.length = 65536 := by
    intro chunk mem
    rw [List.mem_singleton.mp mem, List.length_replicate]
  rw [solver_of_long (fun chunk mem => by rw [long chunk mem]; decide)
    ⟨_, List.mem_singleton.mpr rfl, by rw [List.length_replicate]; decide⟩]
  intro same
  cases same

end QmaskCore
