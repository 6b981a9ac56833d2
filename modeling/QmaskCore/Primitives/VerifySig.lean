import Mathlib.Data.List.AList
import Mathlib.Data.Set.Function
import QmaskCore.Primitives.Bytes

/-!
`SecretKey::Verify`, with the scalar check before it and the cache around it.

`isCanonicalSignatureScalar_iff` says what the loop without branches computes: a
comparison of 256-bit numbers. A cache is `Sound` for a relation between keys and
values that each entry satisfies, which insertion, eviction and clearing keep, so
`verify_transparent` finds the cache nowhere in the answers.
-/

namespace QmaskCore

open LittleEndian

/-! ### The scalar of a signature -/

/-- The order of the group, least significant byte first. -/
def groupOrder : List UInt8 := [
  0xed, 0xd3, 0xf5, 0x5c, 0x1a, 0x63, 0x12, 0x58, 0xd6, 0x9c, 0xf7, 0xa2, 0xde, 0xf9, 0xde, 0x14,
  0x00, 0x00, 0x00, 0x00, 0x00, 0x00, 0x00, 0x00, 0x00, 0x00, 0x00, 0x00, 0x00, 0x00, 0x00, 0x10]

/-- The loop from the byte below `i` down to the first. -/
def scalarLoop (S L : List UInt8) : Nat → UInt8 → UInt8 → UInt8
  | 0, borrowed, _ => borrowed
  | i + 1, borrowed, stillEqual =>
      let diff : Int := (S.getD i 0).toNat - (L.getD i 0).toNat
      let borrowed := borrowed ||| (UInt8.ofInt (diff >>> (8 : Nat)) &&& stillEqual)
      let x : Int := (S.getD i 0 ^^^ L.getD i 0).toNat - 1
      let stillEqual := stillEqual &&& UInt8.ofInt (x >>> (8 : Nat))
      scalarLoop S L i borrowed stillEqual

def isCanonicalSignatureScalar (sig : List UInt8) : Bool :=
  scalarLoop (sig.drop 32) groupOrder 32 0 1 ≠ 0

/-- The high byte of a difference of bytes is a mask for its sign. -/
theorem ofInt_shiftRight {d : Int} (low : -256 ≤ d) (high : d < 256) :
    UInt8.ofInt (d >>> (8 : Nat)) = if d < 0 then 255 else 0 := by
  rw [Int.shiftRight_eq_div_pow]
  split
  · have quotient : d / ((2 ^ 8 : Nat) : Int) = -1 := by omega
    rw [quotient]
    rfl
  · have quotient : d / ((2 ^ 8 : Nat) : Int) = 0 := by omega
    rw [quotient]
    rfl

theorem scalarLoop_ne_zero_iff {S L : List UInt8} :
    ∀ {i : Nat} {borrowed stillEqual : UInt8}, i ≤ S.length → i ≤ L.length →
      stillEqual = 0 ∨ stillEqual = 1 →
      (scalarLoop S L i borrowed stillEqual ≠ 0 ↔
        borrowed ≠ 0 ∨ stillEqual = 1 ∧ ofLE (S.take i) < ofLE (L.take i)) := by
  intro i
  induction i with
  | zero => simp [scalarLoop]
  | succ i ih =>
      intro borrowed stillEqual inS inL flag
      have inS' : i < S.length := inS
      have inL' : i < L.length := inL
      have same : (S.take i).length = (L.take i).length := by
        rw [List.length_take, List.length_take]
        omega
      have readS : S.getD i 0 = S[i] := by rw [List.getD_eq_getElem?_getD, List.getElem?_eq_getElem inS']; rfl
      have readL : L.getD i 0 = L[i] := by rw [List.getD_eq_getElem?_getD, List.getElem?_eq_getElem inL']; rfl
      rw [scalarLoop, readS, readL, List.take_succ_eq_append_getElem inS',
        List.take_succ_eq_append_getElem inL', ofLE_concat_lt_iff same]
      generalize S[i] = s, L[i] = l
      have belowS := s.toNat_lt
      have belowL := l.toNat_lt
      have belowX := (s ^^^ l).toNat_lt
      rw [ofInt_shiftRight (by omega) (by omega), ofInt_shiftRight (by omega) (by omega)]
      have less : (s.toNat : Int) - l.toNat < 0 ↔ s < l := by
        rw [UInt8.lt_iff_toNat_lt]; omega
      have equal : ((s ^^^ l).toNat - 1 : Int) < 0 ↔ s = l := by
        rw [← UInt8.xor_eq_zero_iff, ← UInt8.toNat_inj, UInt8.toNat_zero]; omega
      simp only [less, equal]
      rcases flag with rfl | rfl
      · rw [UInt8.and_zero, UInt8.or_zero, UInt8.zero_and, ih inS'.le inL'.le (.inl rfl)]
        simp
      by_cases below : s < l
      · have apart : s ≠ l := UInt8.ne_of_lt below
        have set : borrowed ||| 255 &&& 1 ≠ 0 := fun zero => by
          have := (UInt8.or_eq_zero_iff.mp zero).2
          contradiction
        rw [if_pos below, if_neg apart, UInt8.and_zero, ih inS'.le inL'.le (.inl rfl)]
        simp [set, below]
      · have kept : borrowed ||| 0 &&& 1 = borrowed := by simp
        rw [if_neg below, kept]
        by_cases same : s = l
        · have flag : (1 : UInt8) &&& 255 = 1 := rfl
          rw [if_pos same, flag, ih inS'.le inL'.le (.inr rfl)]
          simp [same]
        · rw [if_neg same, UInt8.and_zero, ih inS'.le inL'.le (.inl rfl)]
          simp [same, below]

theorem isCanonicalSignatureScalar_iff {sig : List UInt8} (length : sig.length = 64) :
    isCanonicalSignatureScalar sig = true ↔ ofLE (sig.drop 32) < ofLE groupOrder := by
  have half : (sig.drop 32).length = 32 := by
    rw [List.length_drop, length]
  have compared := @scalarLoop_ne_zero_iff (sig.drop 32) groupOrder 32 0 1 half.ge
    (Nat.le_refl 32) (.inr rfl)
  rw [List.take_of_length_le half.le, List.take_of_length_le (Nat.le_refl 32)] at compared
  rw [isCanonicalSignatureScalar, decide_eq_true_iff, compared]
  simp

/-! ### The cache -/

/-- A map that makes room for a key by dropping its first. -/
structure SimpleCache (κ ν : Type) [DecidableEq κ] where
  mData : AList fun _ : κ => ν
  mMaxSize : Nat
  mMaxSize_pos : 0 < mMaxSize

namespace SimpleCache

variable {κ ν : Type} [DecidableEq κ] {c : SimpleCache κ ν} {key : κ} {value : ν}

/-- `Exists` and `Get`. -/
def get (c : SimpleCache κ ν) (key : κ) : Option ν := c.mData.lookup key

theorem keys_ne_nil (full : c.mMaxSize ≤ c.mData.keys.length) : c.mData.keys ≠ [] :=
  List.ne_nil_of_length_pos (c.mMaxSize_pos.trans_le full)

def put [Min κ] (key : κ) (value : ν) (c : SimpleCache κ ν) : SimpleCache κ ν :=
  if full : c.mMaxSize ≤ c.mData.keys.length ∧ key ∉ c.mData then
    let first := c.mData.keys.min (keys_ne_nil full.1)
    { c with mData := (c.mData.erase first).insert key value }
  else { c with mData := c.mData.insert key value }

def clear (c : SimpleCache κ ν) : SimpleCache κ ν := { c with mData := ∅ }

/-- Each entry satisfies a relation. -/
def Sound (R : κ → ν → Prop) (c : SimpleCache κ ν) : Prop :=
  ∀ key value, c.get key = some value → R key value

variable {R : κ → ν → Prop}

theorem Sound.clear : c.clear.Sound R := by
  intro key value found
  cases found

theorem Sound.erase (sound : c.Sound R) (first : κ) :
    Sound R { c with mData := c.mData.erase first } := by
  intro k v found
  by_cases dropped : k = first
  · rw [get, dropped, AList.lookup_erase] at found
    cases found
  · rw [get, AList.lookup_erase_ne dropped] at found
    exact sound k v found

theorem Sound.insert (sound : c.Sound R) (holds : R key value) :
    Sound R { c with mData := c.mData.insert key value } := by
  intro k v found
  by_cases new : k = key
  · rw [get, new, AList.lookup_insert] at found
    rw [new, ← Option.some.inj found]
    exact holds
  · rw [get, AList.lookup_insert_ne new] at found
    exact sound k v found

/-- Whatever is dropped, what remains was there or is the new entry. -/
theorem Sound.put [Min κ] (sound : c.Sound R) (holds : R key value) :
    (c.put key value).Sound R := by
  rw [SimpleCache.put]
  split
  · exact (sound.erase _).insert holds
  · exact sound.insert holds

end SimpleCache

/-- Arrays are compared from their first byte on. -/
instance : Min Bytes32 := minOfLe

/-! ### Verification -/

/-- `VERIFY_SIG_CACHE_SIZE`. -/
def verifySigCacheSize : Nat := 250000

inductive VerifySigCacheResult where
  | miss
  | hit
  | noLookup
deriving DecidableEq

structure VerifySigResult where
  valid : Bool
  cacheResult : VerifySigCacheResult
deriving DecidableEq

/-- What `Verify` is asked. -/
structure SigCheck where
  pubkey : Bytes32
  signature : Bytes64
  data : List UInt8

namespace SigCheck

/-- The bytes `VerifySigCacheKey` hashes. -/
def cacheInput (c : SigCheck) : List UInt8 := c.pubkey.toBytes ++ c.signature.toBytes ++ c.data

/-- The bytes tell the checks apart: only the last part has no fixed length. -/
theorem cacheInput_injective : Function.Injective cacheInput := by
  rintro ⟨pubkey, signature, data⟩ ⟨pubkey', signature', data'⟩ same
  rw [cacheInput, cacheInput, List.append_assoc, List.append_assoc] at same
  obtain ⟨first, same⟩ := List.append_inj same (by simp)
  obtain ⟨second, third⟩ := List.append_inj same (by simp)
  rw [SigCheck.mk.injEq]
  exact ⟨Bytes32.toBytes_inj first, Bytes64.toBytes_inj second, third⟩

end SigCheck

/-- The cache with its counts. -/
structure VerifySigState where
  gVerifySigCache : SimpleCache Bytes32 Bool
  gVerifyCacheHit : UInt64
  gVerifyCacheMiss : UInt64

/-- As the program starts. -/
def VerifySigState.start : VerifySigState := ⟨⟨∅, verifySigCacheSize, by decide⟩, 0, 0⟩

/-- A call that reads or writes the cache. -/
inductive VerifySigCall where
  | verify (check : SigCheck)
  | clearVerifySigCache
  | flushVerifySigCacheCounts

section

variable (sha256 : List UInt8 → Bytes32) (ed25519SignOpen : List UInt8 → Bytes32 → Bytes64 → Int32)

def verifySigCacheKey (c : SigCheck) : Bytes32 := sha256 c.cacheInput

/-- The lookup, with the cache locked. -/
def verifyLookup (cacheKey : Bytes32) (s : VerifySigState) : Option Bool × VerifySigState :=
  match s.gVerifySigCache.get cacheKey with
  | some valid => (some valid, { s with gVerifyCacheHit := s.gVerifyCacheHit + 1 })
  | none => (none, s)

/-- The result is stored, with the cache locked again. -/
def verifyStore (cacheKey : Bytes32) (ok : Bool) (s : VerifySigState) : VerifySigState :=
  let s := { s with gVerifyCacheMiss := s.gVerifyCacheMiss + 1 }
  if ok then { s with gVerifySigCache := s.gVerifySigCache.put cacheKey ok } else s

/-- `SecretKey::Verify`. -/
def verify (c : SigCheck) (s : VerifySigState) : VerifySigResult × VerifySigState :=
  if c.signature.toBytes.length ≠ 64 then (⟨false, .noLookup⟩, s)
  else if !isCanonicalSignatureScalar c.signature.toBytes then (⟨false, .noLookup⟩, s)
  else
    let cacheKey := verifySigCacheKey sha256 c
    match verifyLookup cacheKey s with
    | (some valid, s) => (⟨valid, .hit⟩, s)
    | (none, s) =>
        let ok := ed25519SignOpen c.data c.pubkey c.signature = 0
        (⟨ok, .miss⟩, verifyStore cacheKey ok s)

def clearVerifySigCache (s : VerifySigState) : VerifySigState :=
  { s with gVerifySigCache := s.gVerifySigCache.clear }

def flushVerifySigCacheCounts (s : VerifySigState) : (UInt64 × UInt64) × VerifySigState :=
  ((s.gVerifyCacheHit, s.gVerifyCacheMiss), { s with gVerifyCacheHit := 0, gVerifyCacheMiss := 0 })

/-- The results of the checks among the calls, in their order. -/
def verifyRun : List VerifySigCall → VerifySigState → List VerifySigResult
  | [], _ => []
  | .verify c :: calls, s =>
      let (result, s) := verify sha256 ed25519SignOpen c s
      result :: verifyRun calls s
  | .clearVerifySigCache :: calls, s => verifyRun calls (clearVerifySigCache s)
  | .flushVerifySigCacheCounts :: calls, s => verifyRun calls (flushVerifySigCacheCounts s).2

/-! ### Without a cache -/

/-- The scalar is below the order of the group, and the signature opens. -/
def SigCheck.Valid (c : SigCheck) : Prop :=
  ofLE (c.signature.toBytes.drop 32) < ofLE groupOrder ∧
    ed25519SignOpen c.data c.pubkey c.signature = 0

instance (c : SigCheck) : Decidable (c.Valid ed25519SignOpen) := inferInstanceAs (Decidable (_ ∧ _))

/-- The checks among the calls. -/
def checksOf : List VerifySigCall → List SigCheck
  | [] => []
  | .verify c :: calls => c :: checksOf calls
  | .clearVerifySigCache :: calls => checksOf calls
  | .flushVerifySigCacheCounts :: calls => checksOf calls

/-- What is hashed for a list of checks: those with a canonical scalar get so far. -/
def hashedFor (checks : List SigCheck) : Set (List UInt8) :=
  { bytes | ∃ c ∈ checks, isCanonicalSignatureScalar c.signature.toBytes = true ∧
    c.cacheInput = bytes }

variable {sha256 ed25519SignOpen}

/-- A check was made, it got to the cache, and its key is this one. -/
structure SigCheck.KeyedBy (sha256 : List UInt8 → Bytes32) (cacheKey : Bytes32) (c : SigCheck) :
    Prop where
  canonical : isCanonicalSignatureScalar c.signature.toBytes = true
  key : verifySigCacheKey sha256 c = cacheKey

variable (sha256 ed25519SignOpen) in
/-- An entry was stored for a check whose signature opens. -/
def Vouches (checks : List SigCheck) (cacheKey : Bytes32) (value : Bool) : Prop :=
  value = true ∧ ∃ c ∈ checks, c.KeyedBy sha256 cacheKey ∧
    ed25519SignOpen c.data c.pubkey c.signature = 0

variable (sha256 ed25519SignOpen) in
/-- The state's cache holds nothing else. -/
def VerifySigState.Vouched (checks : List SigCheck) (s : VerifySigState) : Prop :=
  s.gVerifySigCache.Sound (Vouches sha256 ed25519SignOpen checks)

section

variable {checks : List SigCheck} {c : SigCheck} {s : VerifySigState}

theorem SigCheck.valid_iff : c.Valid ed25519SignOpen ↔
    isCanonicalSignatureScalar c.signature.toBytes = true ∧
      ed25519SignOpen c.data c.pubkey c.signature = 0 := by
  rw [Valid, isCanonicalSignatureScalar_iff (Bytes64.length_toBytes _)]

/-- What is found for a check was stored for the same one. -/
theorem opens_of_get (vouched : s.Vouched sha256 ed25519SignOpen checks)
    (injective : (hashedFor checks).InjOn sha256) (mem : c ∈ checks)
    (canonical : isCanonicalSignatureScalar c.signature.toBytes = true) {value : Bool}
    (found : s.gVerifySigCache.get (verifySigCacheKey sha256 c) = some value) :
    value = true ∧ ed25519SignOpen c.data c.pubkey c.signature = 0 := by
  obtain ⟨positive, c', mem', keyed, opens⟩ := vouched _ _ found
  have same : c' = c := SigCheck.cacheInput_injective
    (injective ⟨c', mem', keyed.canonical, rfl⟩ ⟨c, mem, canonical, rfl⟩ keyed.key)
  exact ⟨positive, same ▸ opens⟩

theorem VerifySigState.Vouched.verifyStore (vouched : s.Vouched sha256 ed25519SignOpen checks) (mem : c ∈ checks)
    (canonical : isCanonicalSignatureScalar c.signature.toBytes = true) :
    (QmaskCore.verifyStore (verifySigCacheKey sha256 c)
      (ed25519SignOpen c.data c.pubkey c.signature = 0) s).Vouched sha256 ed25519SignOpen checks := by
  rw [QmaskCore.verifyStore]
  split
  · rename_i opens
    exact SimpleCache.Sound.put vouched ⟨opens, c, mem, ⟨canonical, rfl⟩, of_decide_eq_true opens⟩
  · exact vouched

theorem VerifySigState.Vouched.verify (vouched : s.Vouched sha256 ed25519SignOpen checks)
    (injective : (hashedFor checks).InjOn sha256) (mem : c ∈ checks) :
    (QmaskCore.verify sha256 ed25519SignOpen c s).1.valid = decide (c.Valid ed25519SignOpen) ∧
      (QmaskCore.verify sha256 ed25519SignOpen c s).2.Vouched sha256 ed25519SignOpen checks := by
  rw [QmaskCore.verify, if_neg (not_not.mpr (Bytes64.length_toBytes _))]
  cases canonical : isCanonicalSignatureScalar c.signature.toBytes with
  | false =>
      have invalid : ¬ c.Valid ed25519SignOpen := by simp [SigCheck.valid_iff, canonical]
      exact ⟨(decide_eq_false invalid).symm, vouched⟩
  | true =>
      simp only [Bool.not_true, Bool.false_eq_true, if_false]
      rw [verifyLookup]
      cases found : s.gVerifySigCache.get (verifySigCacheKey sha256 c) with
      | some value =>
          obtain ⟨positive, opens⟩ := opens_of_get vouched injective mem canonical found
          have valid : c.Valid ed25519SignOpen := SigCheck.valid_iff.mpr ⟨canonical, opens⟩
          exact ⟨positive.trans (decide_eq_true valid).symm, vouched⟩
      | none =>
          refine ⟨decide_eq_decide.mpr ?_, vouched.verifyStore mem canonical⟩
          simp [SigCheck.valid_iff, canonical]

theorem verifyRun_eq (injective : (hashedFor checks).InjOn sha256) :
    ∀ {calls : List VerifySigCall} {s : VerifySigState},
      s.Vouched sha256 ed25519SignOpen checks → (∀ c ∈ checksOf calls, c ∈ checks) →
      (verifyRun sha256 ed25519SignOpen calls s).map (·.valid) =
        (checksOf calls).map fun c => decide (c.Valid ed25519SignOpen) := by
  intro calls
  induction calls with
  | nil => exact fun _ _ => rfl
  | cons call calls ih =>
      intro s vouched all
      cases call with
      | verify c =>
          rw [checksOf, List.forall_mem_cons] at all
          obtain ⟨answer, kept⟩ := vouched.verify injective all.1
          rw [verifyRun, checksOf, List.map_cons, List.map_cons, answer, ih kept all.2]
      | clearVerifySigCache => exact ih SimpleCache.Sound.clear all
      | flushVerifySigCacheCounts => exact ih vouched all

end

end

/-- **The cache is not seen.** -/
theorem verify_transparent (sha256 : List UInt8 → Bytes32)
    (ed25519SignOpen : List UInt8 → Bytes32 → Bytes64 → Int32) (calls : List VerifySigCall)
    (injective : (hashedFor (checksOf calls)).InjOn sha256) :
    (verifyRun sha256 ed25519SignOpen calls .start).map (·.valid) =
        ((checksOf calls).map fun c => decide (ofLE (c.signature.toBytes.drop 32) < ofLE groupOrder ∧
          ed25519SignOpen c.data c.pubkey c.signature = 0)) ∧
      ofLE groupOrder = 2 ^ 252 + 27742317777372353535851937790883648493 ∧
      ∀ sig : List UInt8, sig.length = 64 →
        (isCanonicalSignatureScalar sig = true ↔ ofLE (sig.drop 32) < ofLE groupOrder) := by
  refine ⟨verifyRun_eq injective ?_ fun _ mem => mem, ?_,
    fun _ length => isCanonicalSignatureScalar_iff length⟩
  · intro key value found
    cases found
  · decide +kernel

/-- A signature of the empty message. -/
def emptySigned : SigCheck where
  pubkey := 0xd75a980182b10ab7d54bfed3c964073a0ee172f3daa62325af021a68f707511a
  signature := 0xe5564300c360ac729086e2cc806e828a84877f1eb8e5d974d873e065224901555fb8821590a33bacc61e39701cf9b46bd25bf5f0595bbe24655141438e7a100b
  data := []

/-- It is the only one that opens. -/
def opensEmptySigned (data : List UInt8) (pubkey : Bytes32) (signature : Bytes64) : Int32 :=
  if data = [] ∧ pubkey = emptySigned.pubkey ∧ signature = emptySigned.signature then 0 else -1

/-- Checked, found again, and checked anew behind a cleared cache. -/
theorem verify_transparent_emptySigned :
    (verifyRun Bytes32.ofBytes opensEmptySigned
      [.verify emptySigned, .verify emptySigned, .clearVerifySigCache, .verify emptySigned]
      .start).map (·.valid) = [true, true, true] := by
  have valid : ofLE (emptySigned.signature.toBytes.drop 32) < ofLE groupOrder ∧
      opensEmptySigned emptySigned.data emptySigned.pubkey emptySigned.signature = 0 := by
    decide +kernel
  have transparent := (verify_transparent Bytes32.ofBytes opensEmptySigned
    [.verify emptySigned, .verify emptySigned, .clearVerifySigCache, .verify emptySigned] (by
      rintro _ ⟨c, mem, -, rfl⟩ _ ⟨c', mem', -, rfl⟩ -
      simp only [checksOf, List.mem_cons, List.not_mem_nil, or_false, or_self] at mem mem'
      rw [mem, mem'])).1
  rw [transparent]
  simp only [checksOf, List.map_cons, List.map_nil, decide_eq_true valid]

end QmaskCore
