import QmaskCore.Lib.Buffer
import QmaskCore.Wallet.NoisePool

/-!
The noise proofs of an input as a stream of bytes.

`deserializeAt` and `readProofs` are `NoiseProof::Deserialize` and the loop
around it as the source runs them, over one buffer with an offset that moves.
`readProofs_eq` compares them with the parser the rest of the development uses,
and `proof_stream_exact` says that a stream and the proofs in it determine each
other.
-/

namespace QmaskCore

open LittleEndian Buffer

namespace NoiseProof

/-! ### Over one buffer -/

/-- `ReadLE32`, with the offset behind the word. -/
def readLE32At (data : List UInt8) (offset : Nat) : Except Halt (UInt32 × Nat) := do
  let bytes ← slice data offset 4
  return (readLE32 bytes, offset + 4)

/-- `memcpy` of 32 bytes. -/
def readHashAt (data : List UInt8) (offset : Nat) : Except Halt (Bytes32 × Nat) := do
  let bytes ← slice data offset 32
  return (Bytes32.ofBytes bytes, offset + 32)

/-- The loop that fills `merklePath`. -/
def readPathAt (data : List UInt8) : Nat → Nat → Except Halt (List Bytes32 × Nat)
  | 0, offset => return ([], offset)
  | n + 1, offset => do
      let (hash, offset) ← readHashAt data offset
      let (path, offset) ← readPathAt data n offset
      return (hash :: path, offset)

/-- The loop that fills `pathDirs`. -/
def readDirsAt (data : List UInt8) : Nat → Nat → Except Halt (List UInt8 × Nat)
  | 0, offset => return ([], offset)
  | n + 1, offset => do
      let byte ← slice data offset 1
      let (dirs, offset) ← readDirsAt data n (offset + 1)
      return (byte ++ dirs, offset)

/-- `NoiseProof::Deserialize`. -/
def deserializeAt (data : List UInt8) (offset : Nat) : Except Halt (NoiseProof × Nat) :=
  if data.length < offset + 4 + 32 + 32 + 4 then .error .thrown
  else do
    let (leafIndex, offset) ← readLE32At data offset
    let (leaf, offset) ← readHashAt data offset
    let (boundProof, offset) ← readHashAt data offset
    let (pathLen, offset) ← readLE32At data offset
    if 64 < pathLen then .error .thrown
    else if data.length < offset + pathLen.toNat * 32 + pathLen.toNat then .error .thrown
    else do
      let (merklePath, offset) ← readPathAt data pathLen.toNat offset
      let (pathDirs, offset) ← readDirsAt data pathLen.toNat offset
      return (⟨leafIndex, leaf, boundProof, merklePath, pathDirs⟩, offset)

/-- `while (offset < size)`, with as many turns as it may take. -/
def readProofsFrom (data : List UInt8) : Nat → Nat → Except Halt (List NoiseProof)
  | 0, offset => if offset < data.length then .error .endless else return []
  | turns + 1, offset =>
      if offset < data.length then do
        let (p, offset) ← deserializeAt data offset
        let proofs ← readProofsFrom data turns offset
        return p :: proofs
      else return []

/-- The proofs in a buffer, one turn for each byte. -/
def readProofs (data : List UInt8) : Except Halt (List NoiseProof) :=
  readProofsFrom data data.length 0

variable {data : List UInt8} {offset : Nat}

theorem readLE32At_eq (inside : offset + 4 ≤ data.length) :
    readLE32At data offset = .ok (readLE32 (data.drop offset), offset + 4) := by
  rw [readLE32At, slice_eq inside]
  show Except.ok (readLE32 ((data.drop offset).take 4), offset + 4) = _
  rw [readLE32_take]

theorem readHashAt_eq (inside : offset + 32 ≤ data.length) :
    readHashAt data offset = .ok (Bytes32.ofBytes ((data.drop offset).take 32), offset + 32) := by
  rw [readHashAt, slice_eq inside]
  rfl

theorem readPathAt_eq : ∀ {n offset : Nat}, offset + n * 32 ≤ data.length →
    readPathAt data n offset = .ok (readHashes n (data.drop offset), offset + n * 32) := by
  intro n
  induction n with
  | zero =>
      intro offset _
      rw [readPathAt, readHashes, Nat.zero_mul]
      rfl
  | succ n ih =>
      intro offset inside
      have here : offset + 32 ≤ data.length := by omega
      have later : offset + 32 + n * 32 ≤ data.length := by omega
      have behind : offset + (n + 1) * 32 = offset + 32 + n * 32 := by omega
      rw [readPathAt, readHashAt_eq here, readHashes, behind, List.drop_drop]
      show (readPathAt data n (offset + 32) >>= _) = _
      rw [ih later]
      rfl

theorem readDirsAt_eq : ∀ {n offset : Nat}, offset + n ≤ data.length →
    readDirsAt data n offset = .ok ((data.drop offset).take n, offset + n) := by
  intro n
  induction n with
  | zero =>
      intro offset _
      rw [readDirsAt, List.take_zero]
      rfl
  | succ n ih =>
      intro offset inside
      have here : offset + 1 ≤ data.length := by omega
      have later : offset + 1 + n ≤ data.length := by omega
      have split : (data.drop offset).take (n + 1) =
          (data.drop offset).take 1 ++ (data.drop (offset + 1)).take n := by
        rw [Nat.add_comm n 1, List.take_add, List.drop_drop]
      rw [readDirsAt, slice_eq here, split, show offset + (n + 1) = offset + 1 + n by omega]
      show (readDirsAt data n (offset + 1) >>= _) = _
      rw [ih later]
      rfl

/-- The checks keep every read inside the buffer. -/
theorem deserializeAt_eq (data : List UInt8) (offset : Nat) :
    deserializeAt data offset = match deserialize (data.drop offset) with
      | none => .error .thrown
      | some (p, rest) => .ok (p, data.length - rest.length) := by
  unfold deserializeAt deserialize
  by_cases short : data.length < offset + 4 + 32 + 32 + 4
  · rw [if_pos short, if_pos (by rw [List.length_drop]; omega)]
  · rw [if_neg short, if_neg (by rw [List.length_drop]; omega)]
    simp only [readLE32At_eq (show offset + 4 ≤ data.length by omega),
      readHashAt_eq (show offset + 4 + 32 ≤ data.length by omega),
      readHashAt_eq (show offset + 4 + 32 + 32 ≤ data.length by omega),
      readLE32At_eq (show offset + 4 + 32 + 32 + 4 ≤ data.length by omega), ok_bind,
      List.drop_drop, Nat.add_assoc, Nat.reduceAdd]
    have same : 64 < readLE32 (data.drop (offset + 68)) ↔
        64 < (readLE32 (data.drop (offset + 68))).toNat := UInt32.lt_iff_toNat_lt
    by_cases long : 64 < readLE32 (data.drop (offset + 68))
    · rw [if_pos long, if_pos (same.mp long)]
    · rw [if_neg long, if_neg (mt same.mpr long)]
      generalize (readLE32 (data.drop (offset + 68))).toNat = n
      by_cases cut : data.length < offset + (72 + (n * 32 + n))
      · rw [if_pos cut, if_pos (by rw [List.length_drop]; omega)]
      · rw [if_neg cut, if_neg (by rw [List.length_drop]; omega)]
        rw [readPathAt_eq (by omega), ok_bind, readDirsAt_eq (by omega), ok_bind]
        have behind : data.length - (data.length - (offset + (72 + (n * 32 + n)))) =
            offset + (72 + (n * 32 + n)) := by omega
        simp only [List.length_drop, Nat.add_assoc, behind]
        rfl

/-! ### Written again -/

theorem length_readHashes (n : Nat) (bytes : List UInt8) : (readHashes n bytes).length = n := by
  induction n generalizing bytes with
  | zero => rfl
  | succ n ih => rw [readHashes, List.length_cons, ih]

theorem flatMap_readHashes : ∀ {n : Nat} {bytes : List UInt8}, n * 32 ≤ bytes.length →
    (readHashes n bytes).flatMap (·.toBytes) = bytes.take (n * 32) := by
  intro n
  induction n with
  | zero =>
      intro bytes _
      rw [readHashes, Nat.zero_mul, List.take_zero]
      rfl
  | succ n ih =>
      intro bytes long
      have first : (bytes.take 32).length = 32 := by
        rw [List.length_take]
        omega
      have later : n * 32 ≤ (bytes.drop 32).length := by
        rw [List.length_drop]
        omega
      rw [readHashes, List.flatMap_cons, Bytes32.toBytes_ofBytes first, ih later,
        show (n + 1) * 32 = 32 + n * 32 by omega, List.take_add]

/-- What is read is what was written. -/
theorem serialize_of_deserialize {bytes rest : List UInt8} {p : NoiseProof}
    (read : deserialize bytes = some (p, rest)) : p.Fits ∧ bytes = p.serialize ++ rest := by
  unfold deserialize at read
  split at read
  · cases read
  · rename_i long
    dsimp only at read
    split at read
    · cases read
    · rename_i short
      split at read
      · cases read
      · rename_i whole
        rw [List.length_drop] at whole
        obtain ⟨n, count⟩ : ∃ n, (readLE32 (bytes.drop 68)).toNat = n := ⟨_, rfl⟩
        rw [count] at read short whole
        cases read
        have word : UInt32.ofNat n = readLE32 (bytes.drop 68) := by
          rw [← count, UInt32.ofNat_toNat]
        have split (i k : Nat) : (bytes.drop i).take k ++ bytes.drop (i + k) = bytes.drop i := by
          rw [← List.drop_drop, List.take_append_drop]
        have hash {i : Nat} (inside : i + 32 ≤ bytes.length) :
            (Bytes32.ofBytes ((bytes.drop i).take 32)).toBytes = (bytes.drop i).take 32 := by
          refine Bytes32.toBytes_ofBytes ?_
          rw [List.length_take, List.length_drop]
          omega
        refine ⟨⟨?_, ?_⟩, ?_⟩
        · rw [length_readHashes, List.length_take, List.length_drop, List.length_drop]
          omega
        · rw [length_readHashes]
          omega
        · simp only [serialize, length_readHashes, word, List.append_assoc]
          rw [writeLE32_readLE32 (by omega), hash (by omega), hash (by omega),
            writeLE32_readLE32 (by rw [List.length_drop]; omega),
            flatMap_readHashes (by rw [List.length_drop]; omega), List.drop_drop, List.drop_drop,
            ← Nat.add_assoc, split, split, split 68 4, split 36 32, split 4 32,
            List.take_append_drop]

/-! ### The loop -/

/-- Whatever the bytes, the loop ends within them: with the proofs, or where one
is cut short. -/
theorem readProofsFrom_eq : ∀ {turns offset : Nat}, data.length ≤ turns + offset →
    readProofsFrom data turns offset = match scan (data.drop offset) with
      | (proofs, true) => .ok proofs
      | (_, false) => .error .thrown := by
  intro turns
  induction turns with
  | zero =>
      intro offset enough
      have done : data.drop offset = [] := List.drop_of_length_le (by omega)
      rw [readProofsFrom, if_neg (by omega), done, scan_nil]
      rfl
  | succ turns ih =>
      intro offset enough
      rw [readProofsFrom]
      split
      · rename_i more
        rw [deserializeAt_eq]
        cases read : deserialize (data.drop offset) with
        | none =>
            have some_left : data.drop offset ≠ [] := by
              rw [Ne, List.drop_eq_nil_iff]
              omega
            rw [scan_of_throw some_left read]
            rfl
        | some out =>
            obtain ⟨p, rest⟩ := out
            have suffix : rest <:+ data :=
              ((serialize_of_deserialize read).2 ▸ List.suffix_append _ _).trans
                (List.drop_suffix offset data)
            have shorter := length_deserialize read
            rw [List.length_drop] at shorter
            have onward := ih (show data.length ≤ turns + (data.length - rest.length) by omega)
            rw [← List.suffix_iff_eq_drop.mp suffix] at onward
            rw [scan_of_read read]
            dsimp only [ok_bind]
            rw [onward]
            rcases scan rest with ⟨proofs, _ | _⟩
            · rfl
            · rfl
      · have done : data.drop offset = [] := List.drop_of_length_le (by omega)
        rw [done, scan_nil]
        rfl

theorem readProofs_eq (data : List UInt8) : readProofs data = match scan data with
    | (proofs, true) => .ok proofs
    | (_, false) => .error .thrown :=
  readProofsFrom_eq (Nat.le_refl _)

/-- A loop that reached the end had nothing to read, or read a proof first. -/
theorem cases_of_scan {bytes : List UInt8} {proofs : List NoiseProof}
    (read : scan bytes = (proofs, true)) : bytes = [] ∧ proofs = [] ∨ ∃ p rest later,
      deserialize bytes = some (p, rest) ∧ scan rest = (later, true) ∧ proofs = p :: later := by
  by_cases more : bytes = []
  · rw [more, scan_nil] at read
    cases read
    exact .inl ⟨more, rfl⟩
  · cases first : deserialize bytes with
    | none =>
        rw [scan_of_throw more first] at read
        cases read
    | some out =>
        rw [scan_of_read first] at read
        have ended : (scan out.2).2 = true := congrArg Prod.snd read
        exact .inr ⟨out.1, out.2, (scan out.2).1, rfl, by rw [← ended], (congrArg Prod.fst read).symm⟩

/-- What the loop reads to the end is what was written. -/
theorem serialize_of_scan : ∀ {proofs : List NoiseProof} {bytes : List UInt8},
    scan bytes = (proofs, true) → proofs.flatMap (·.serialize) = bytes := by
  intro proofs
  induction proofs with
  | nil =>
      intro bytes read
      rcases cases_of_scan read with ⟨rfl, -⟩ | ⟨_, _, _, -, -, none⟩
      · rfl
      · cases none
  | cons p proofs ih =>
      intro bytes read
      rcases cases_of_scan read with ⟨-, none⟩ | ⟨q, rest, later, first, onward, same⟩
      · cases none
      · cases same
        rw [List.flatMap_cons, ih onward]
        exact (serialize_of_deserialize first).2.symm

/-- **Proof streams.** The loop reads proofs back as they were written, what it
reads to the end is what was written, and on any bytes it ends inside them. -/
theorem proof_stream_exact :
    (∀ proofs : List NoiseProof,
      (∀ p ∈ proofs, p.pathDirs.length = p.merklePath.length ∧ p.merklePath.length ≤ 64) →
      readProofs (proofs.flatMap (·.serialize)) = .ok proofs) ∧
    (∀ bytes proofs, readProofs bytes = .ok proofs → proofs.flatMap (·.serialize) = bytes) ∧
    ∀ bytes, readProofs bytes = .error .thrown ∨ ∃ proofs, readProofs bytes = .ok proofs := by
  refine ⟨fun proofs fits => ?_, fun bytes proofs read => ?_, fun bytes => ?_⟩
  · rw [readProofs_eq, scan_serialize fun p mem => ⟨(fits p mem).1, (fits p mem).2⟩]
  · rw [readProofs_eq] at read
    split at read
    · rename_i scanned
      cases read
      exact serialize_of_scan scanned
    · cases read
  · rw [readProofs_eq]
    split
    · exact .inr ⟨_, rfl⟩
    · exact .inl rfl

end NoiseProof

end QmaskCore
