import QmaskCore.Crypto.ArithUint256
import QmaskCore.Crypto.Sha256
import QmaskCore.Primitives.Block

/-!
`Miner::RunNonceLoop`.

The loop hashes a header in three compressions: the first block once, the
second with the nonce put in, the third a constant. `hashWords_prepare` says
this is the header's hash, for any compression function. A run keeps the
prepared blocks those of its header (`Ready`), so each turn tests the hash of
the header it would give, and `nonce_loop_exact` says where the loop stops.

What the loop reads outside itself is a `Reading` for each turn. The rates it
reports are left out.
-/

namespace QmaskCore

open BigEndian

/-- The bytes of a word, least significant first. -/
def put32 (v : UInt32) : List UInt8 :=
  [v.toUInt8, (v >>> 8).toUInt8, (v >>> 16).toUInt8, (v >>> 24).toUInt8]

def put64 (v : UInt64) : List UInt8 :=
  (List.range 8).map fun i => (v >>> UInt64.ofNat (i * 8)).toUInt8

/-- `BlockHeader::SerializeTo`, `none` where it returns false. -/
def BlockHeader.serializeTo (hdr : BlockHeader) (outLen : Nat) : Option (List UInt8) :=
  if outLen < BlockHeader.serializedSize then none
  else some (put32 hdr.version ++ hdr.prevBlockHash.toBytes ++ hdr.merkleRoot.toBytes ++
    hdr.leafRoot.toBytes ++ put64 hdr.timestamp ++ put32 hdr.height ++ put32 hdr.bits ++
    put32 hdr.nonce)

def BlockHeader.setNonce (nonce : UInt32) (hdr : BlockHeader) : BlockHeader :=
  { hdr with nonce := nonce }

def BlockHeader.setTimestamp (timestamp : UInt64) (hdr : BlockHeader) : BlockHeader :=
  { hdr with timestamp := timestamp }

namespace Miner

/-- The blocks a header's hash is computed from. -/
structure Prepared where
  midstate : Fin 8 → UInt32
  block2 : Fin 16 → UInt32
  block3 : Fin 16 → UInt32

variable (transform : Sha256Transform)

/-- `prepare`: what stands before it stays where the header does not serialize. -/
def prepare (hdr : BlockHeader) (before : Prepared) : Prepared :=
  match hdr.serializeTo BlockHeader.serializedSize with
  | none => before
  | some buf =>
      { midstate := transform sha256InitialHashValue fun i => word buf (i * 4)
        block2 := fun i =>
          if i.val < 14 then word buf (64 + i * 4) else if i.val = 14 then 0x80000000 else 0
        block3 := fun i => if i.val < 15 then 0 else UInt32.ofNat (BlockHeader.serializedSize * 8) }

/-- The nonce as the word its bytes spell. -/
def nonceWord (nonce : UInt32) : UInt32 :=
  (nonce &&& 0x000000FF) <<< 24 ||| (nonce &&& 0x0000FF00) <<< 8 |||
    (nonce &&& 0x00FF0000) >>> 8 ||| (nonce &&& 0xFF000000) >>> 24

def Prepared.withNonce (nonce : UInt32) (p : Prepared) : Prepared :=
  { p with block2 := Function.update p.block2 13 (nonceWord nonce) }

/-- The two compressions of a turn. -/
def Prepared.hashWords (p : Prepared) : Fin 8 → UInt32 :=
  transform (transform p.midstate p.block2) p.block3

/-- `TEMPLATE_REFRESH_MS`. -/
def templateRefreshMs : UInt64 := 15000

/-- What a turn reads: the flags, the tip of the chain where there is one, and
the clock at the refresh and at the last nonce. -/
structure Reading where
  mMining : Bool
  mStop : Bool
  bestBlockHash : Option Bytes32
  nowMillis : UInt64
  nowSeconds : UInt64
  secondsAtWrap : UInt64

structure LoopState where
  hdr : BlockHeader
  nonce : UInt32
  prepared : Prepared
  localHashes : UInt64

/-- The condition of the loop, the count, and what is looked at every 65536
turns: `none` where the loop is left. -/
def poll (builtOn : Bytes32) (startMs : UInt64) (r : Reading) (s : LoopState) : Option LoopState :=
  if r.mMining && !r.mStop then
    let s := { s with localHashes := s.localHashes + 1 }
    if s.localHashes &&& 0xFFFF = 0 then
      if r.bestBlockHash.any (· ≠ builtOn) then none
      else if templateRefreshMs < r.nowMillis - startMs then none
      else if s.hdr.timestamp + 60 < r.nowSeconds then
        let hdr := s.hdr.setTimestamp r.nowSeconds
        some { s with hdr := hdr, prepared := prepare transform hdr s.prepared }
      else some s
    else some s
  else none

def LoopState.patched (s : LoopState) : LoopState :=
  { s with prepared := s.prepared.withNonce s.nonce }

/-- The top word of the target, as its array has it. -/
def targetTop (target : ArithUint256) : UInt32 := word target.arithToBytes32.toBytes 0

/-- The test of a turn: the top word first, then the whole hash. -/
def solves (target : ArithUint256) (s : LoopState) : Bool :=
  let hw := s.prepared.hashWords transform
  hw 0 ≤ targetTop target &&
    (ArithUint256.arithFromBytes32 (Sha256Ctx.digest hw)).compareTo target ≤ 0

/-- On to the next nonce, after the last one with a new time. -/
def advance (r : Reading) (s : LoopState) : LoopState :=
  if s.nonce = 0xFFFFFFFF then
    let hdr := s.hdr.setTimestamp r.secondsAtWrap
    { s with hdr := hdr, prepared := prepare transform hdr s.prepared, nonce := 0 }
  else { s with nonce := s.nonce + 1 }

/-- The loop over the readings there are: `none` while it still goes, else what
it returns and the header it leaves. -/
def turns (target : ArithUint256) (builtOn : Bytes32) (startMs : UInt64) :
    List Reading → LoopState → Option (Bool × BlockHeader)
  | [], _ => none
  | r :: rest, s =>
      match poll transform builtOn startMs r s with
      | none => some (false, s.hdr)
      | some s =>
          if solves transform target s.patched then some (true, s.hdr.setNonce s.nonce)
          else turns target builtOn startMs rest (advance transform r s.patched)

/-- Where the loop begins; the blocks are not set before `prepare`. -/
def begin (hdr : BlockHeader) (unset : Prepared) : LoopState where
  hdr := hdr
  nonce := hdr.nonce
  prepared := prepare transform hdr unset
  localHashes := 0

def runNonceLoop (hdr : BlockHeader) (unset : Prepared) (startMs : UInt64)
    (readings : List Reading) : Option (Bool × BlockHeader) :=
  let (target, neg, tooLarge) := ArithUint256.setCompact hdr.bits
  if neg || tooLarge || target.equalTo 0 then some (false, hdr)
  else turns transform target hdr.prevBlockHash startMs readings (begin transform hdr unset)

/-! ### The hash of a header -/

end Miner

theorem put32_eq (v : UInt32) : put32 v = writeLE32 v := by
  simp only [put32, writeLE32, LittleEndian.leBytes, List.cons.injEq, ← UInt8.toNat_inj,
    UInt32.toNat_toUInt8, UInt32.toNat_shiftRight, UInt8.toNat_ofNat', Nat.shiftRight_eq_div_pow,
    UInt32.reduceToNat, Nat.reduceMod, Nat.reducePow, Nat.div_div_eq_div_mul, Nat.reduceMul]
  simp

theorem put64_eq (v : UInt64) : put64 v = writeLE64 v := by
  rw [put64, writeLE64, LittleEndian.leBytes_eq_map]
  refine List.map_congr_left fun i mem => ?_
  have small := List.mem_range.mp mem
  rw [← UInt8.toNat_inj, UInt64.toNat_toUInt8, UInt64.toNat_shiftRight, UInt64.toNat_ofNat',
    Nat.mod_eq_of_lt (by omega : i * 8 < 2 ^ 64), Nat.mod_eq_of_lt (by omega : i * 8 < 64),
    Nat.shiftRight_eq_div_pow, UInt8.toNat_ofNat', Nat.mul_comm i, Nat.pow_mul]

theorem BlockHeader.serializeTo_eq_ite (hdr : BlockHeader) (outLen : Nat) :
    hdr.serializeTo outLen =
      if outLen < BlockHeader.serializedSize then none else some hdr.serialize := by
  rw [serializeTo]
  split
  · rfl
  · simp only [put32_eq, put64_eq]
    rfl

namespace Miner

/-- A byte of a word, in its place. -/
theorem toNat_and_byte (n k : Nat) : n &&& (2 ^ 8 - 1) * 2 ^ k = n / 2 ^ k % 2 ^ 8 * 2 ^ k := by
  refine Nat.eq_of_testBit_eq fun i => ?_
  rw [Nat.testBit_and, Nat.mul_comm, Nat.testBit_two_pow_mul, Nat.mul_comm,
    Nat.testBit_two_pow_mul, Nat.testBit_two_pow_sub_one, Nat.testBit_mod_two_pow,
    Nat.testBit_div_two_pow]
  by_cases high : k ≤ i
  · rw [decide_eq_true high, Bool.true_and, Bool.true_and, Nat.sub_add_cancel high, Bool.and_comm]
  · rw [decide_eq_false high, Bool.false_and, Bool.false_and, Bool.and_false]

/-- The nonce is stored least significant byte first and read the other way. -/
theorem word_put32 (nonce : UInt32) (rest : List UInt8) :
    word (put32 nonce ++ rest) 0 = nonceWord nonce := by
  have low : nonce.toUInt8.toUInt32 <<< 24 = (nonce &&& 0x000000FF) <<< 24 := by
    have mask := toNat_and_byte nonce.toNat 0
    simp only [← UInt32.toNat_inj, UInt32.toNat_shiftLeft, UInt8.toNat_toUInt32,
      UInt32.toNat_toUInt8, UInt32.toNat_and, UInt32.reduceToNat, Nat.shiftLeft_eq]
    norm_num at mask ⊢
    omega
  have second : (nonce >>> 8).toUInt8.toUInt32 <<< 16 = (nonce &&& 0x0000FF00) <<< 8 := by
    have mask := toNat_and_byte nonce.toNat 8
    simp only [← UInt32.toNat_inj, UInt32.toNat_shiftLeft, UInt8.toNat_toUInt32,
      UInt32.toNat_toUInt8, UInt32.toNat_and, UInt32.toNat_shiftRight, UInt32.reduceToNat,
      Nat.shiftLeft_eq, Nat.shiftRight_eq_div_pow]
    norm_num at mask ⊢
    rw [mask]
    omega
  have third : (nonce >>> 16).toUInt8.toUInt32 <<< 8 = (nonce &&& 0x00FF0000) >>> 8 := by
    have mask := toNat_and_byte nonce.toNat 16
    simp only [← UInt32.toNat_inj, UInt32.toNat_shiftLeft, UInt8.toNat_toUInt32,
      UInt32.toNat_toUInt8, UInt32.toNat_and, UInt32.toNat_shiftRight, UInt32.reduceToNat,
      Nat.shiftLeft_eq, Nat.shiftRight_eq_div_pow]
    norm_num at mask ⊢
    rw [mask]
    omega
  have high : (nonce >>> 24).toUInt8.toUInt32 = (nonce &&& 0xFF000000) >>> 24 := by
    have mask := toNat_and_byte nonce.toNat 24
    simp only [← UInt32.toNat_inj, UInt8.toNat_toUInt32, UInt32.toNat_toUInt8, UInt32.toNat_and,
      UInt32.toNat_shiftRight, UInt32.reduceToNat, Nat.shiftRight_eq_div_pow]
    norm_num at mask ⊢
    rw [mask]
    omega
  rw [nonceWord, ← low, ← second, ← third, ← high]
  rfl

/-- What the padding adds to the 120 bytes of a header. -/
def headerPadding : List UInt8 := 0x80 :: List.replicate 63 0 ++ Sha256Ctx.lengthField 960

theorem pad_header {data : List UInt8} (length : data.length = BlockHeader.serializedSize) :
    Sha256Ctx.pad data = data ++ headerPadding := by
  rw [Sha256Ctx.pad, length, List.append_assoc]
  rfl

theorem word_headerPadding : word headerPadding 0 = 0x80000000 ∧ word headerPadding 4 = 0 ∧
    ∀ i : Fin 16, word headerPadding (8 + 4 * i) = if i.val < 15 then 0 else 960 := by
  decide

/-- The bytes of a header before its nonce. -/
def noncePrefix (hdr : BlockHeader) : List UInt8 :=
  writeLE32 hdr.version ++ hdr.prevBlockHash.toBytes ++ hdr.merkleRoot.toBytes ++
    hdr.leafRoot.toBytes ++ writeLE64 hdr.timestamp ++ writeLE32 hdr.height ++ writeLE32 hdr.bits

theorem length_noncePrefix (hdr : BlockHeader) : (noncePrefix hdr).length = 116 := by
  simp [noncePrefix]

theorem serialize_eq (hdr : BlockHeader) : hdr.serialize = noncePrefix hdr ++ put32 hdr.nonce := by
  rw [put32_eq]
  rfl

/-- The words of a block of a string. -/
theorem words_block (data : List UInt8) (n : Nat) :
    Sha256Ctx.words ((data.drop n).take 64) = fun i : Fin 16 => word data (n + 4 * i) := by
  funext i
  have byte {k : Nat} (lt : k < 4) :
      ((data.drop n).take 64).getD (4 * i + k) 0 = data.getD (n + 4 * i + k) 0 := by
    rw [List.getD_eq_getElem?_getD, List.getElem?_take_of_lt (by omega), List.getElem?_drop,
      ← Nat.add_assoc, ← List.getD_eq_getElem?_getD]
  have first := byte (show 0 < 4 by decide)
  rw [Nat.add_zero, Nat.add_zero] at first
  rw [Sha256Ctx.words, word, word, first, byte (by decide), byte (by decide), byte (by decide)]

/-- Blocks are always prepared: a header serializes. -/
theorem prepare_eq (hdr : BlockHeader) (before : Prepared) : prepare transform hdr before =
    { midstate := transform sha256InitialHashValue fun i => word hdr.serialize (i * 4)
      block2 := fun i =>
        if i.val < 14 then word hdr.serialize (64 + i * 4) else if i.val = 14 then 0x80000000 else 0
      block3 := fun i => if i.val < 15 then 0 else 960 } := by
  rw [prepare, BlockHeader.serializeTo_eq_ite, if_neg (Nat.lt_irrefl _)]
  rfl

section Words

variable (hdr : BlockHeader) (nonce : UInt32)

theorem word_noncePrefix {o : Nat} (inside : o + 4 ≤ 116) (rest : List UInt8) :
    word (noncePrefix hdr ++ rest) o = word hdr.serialize o := by
  have long : o + 4 ≤ (noncePrefix hdr).length := by
    rw [length_noncePrefix]
    exact inside
  rw [word_append_left long, serialize_eq, word_append_left long]

/-- The words behind the nonce are those of the padding. -/
theorem word_behind (o : Nat) :
    word (noncePrefix hdr ++ (put32 nonce ++ headerPadding)) (120 + o) = word headerPadding o := by
  have skip := word_append (noncePrefix hdr) (put32 nonce ++ headerPadding) (4 + o)
  rw [length_noncePrefix, ← Nat.add_assoc] at skip
  exact skip.trans (word_append (put32 nonce) headerPadding o)

theorem word_nonce :
    word (noncePrefix hdr ++ (put32 nonce ++ headerPadding)) 116 = nonceWord nonce := by
  have skip := word_append (noncePrefix hdr) (put32 nonce ++ headerPadding) 0
  rw [length_noncePrefix, word_put32] at skip
  exact skip

end Words

/-- **Three compressions.** They give the hash of the header with the nonce. -/
theorem hashWords_prepare (hdr : BlockHeader) (before : Prepared) (nonce : UInt32) :
    Sha256Ctx.digest (((prepare transform hdr before).withNonce nonce).hashWords transform) =
      (hdr.setNonce nonce).getHash (sha256Raw transform) := by
  obtain ⟨oneBit, zeros, last⟩ := word_headerPadding
  have bytes : (hdr.setNonce nonce).serialize ++ headerPadding =
      noncePrefix hdr ++ (put32 nonce ++ headerPadding) := by
    rw [serialize_eq, List.append_assoc]
    rfl
  have first : Sha256Ctx.words (((hdr.setNonce nonce).serialize ++ headerPadding).take 64) =
      fun i : Fin 16 => word hdr.serialize (i * 4) := by
    have block := words_block ((hdr.setNonce nonce).serialize ++ headerPadding) 0
    rw [List.drop_zero] at block
    rw [block]
    funext i
    rw [bytes, Nat.zero_add, Nat.mul_comm, word_noncePrefix hdr (by omega)]
  have second : Sha256Ctx.words ((((hdr.setNonce nonce).serialize ++ headerPadding).drop 64).take 64)
      = ((prepare transform hdr before).withNonce nonce).block2 := by
    rw [words_block, bytes, prepare_eq]
    funext i
    dsimp only [Prepared.withNonce]
    by_cases patched : i = 13
    · rw [patched, Function.update_self]
      exact word_nonce hdr nonce
    · rw [Function.update_of_ne patched]
      have apart : i.val ≠ 13 := fun same => patched (Fin.ext same)
      by_cases low : i.val < 14
      · rw [if_pos low, Nat.mul_comm, word_noncePrefix hdr (by omega)]
      · rw [if_neg low]
        by_cases bit : i.val = 14
        · rw [if_pos bit, bit]
          exact (word_behind hdr nonce 0).trans oneBit
        · rw [if_neg bit, show i.val = 15 by omega]
          exact (word_behind hdr nonce 4).trans zeros
  have third : Sha256Ctx.words
      ((((hdr.setNonce nonce).serialize ++ headerPadding).drop (64 + 64)).take 64) =
        (prepare transform hdr before).block3 := by
    rw [words_block, bytes, prepare_eq]
    funext i
    have behind := word_behind hdr nonce (8 + 4 * i.val)
    rw [← Nat.add_assoc] at behind
    exact behind.trans (last i)
  have length : ((hdr.setNonce nonce).serialize ++ headerPadding).length / 64 = 3 := by
    rw [List.length_append, BlockHeader.length_serialize]
    rfl
  rw [BlockHeader.getHash, Sha256Ctx.sha256Raw_eq, Sha256Ctx.standard,
    pad_header (BlockHeader.length_serialize _), BlockHash.hash, length]
  simp only [BlockHash.blocks, List.drop_drop, Sha256Ctx.compress, first, second, third]
  rw [Prepared.hashWords, Prepared.withNonce, prepare_eq]

/-! ### Runs -/

variable {transform}

/-- The header whose hash a turn tests. -/
def LoopState.candidate (s : LoopState) : BlockHeader := s.hdr.setNonce s.nonce

/-- The headers a run looks at, in order. -/
def triedFrom (transform : Sha256Transform) (target : ArithUint256) (builtOn : Bytes32)
    (startMs : UInt64) : List Reading → LoopState → List BlockHeader
  | [], _ => []
  | r :: rest, s =>
      match poll transform builtOn startMs r s with
      | none => []
      | some s =>
          s.candidate :: if solves transform target s.patched then []
            else triedFrom transform target builtOn startMs rest (advance transform r s.patched)

def tried (transform : Sha256Transform) (hdr : BlockHeader) (unset : Prepared) (startMs : UInt64)
    (readings : List Reading) : List BlockHeader :=
  let (target, neg, tooLarge) := ArithUint256.setCompact hdr.bits
  if neg || tooLarge || target.equalTo 0 then []
  else triedFrom transform target hdr.prevBlockHash startMs readings (begin transform hdr unset)

/-- The hash is at most the target of the header's own bits. -/
def MeetsTarget (transform : Sha256Transform) (hdr : BlockHeader) : Prop :=
  (hdr.getHash (sha256Raw transform)).toNat ≤ (ArithUint256.setCompact hdr.bits).1.value

instance (hdr : BlockHeader) : Decidable (MeetsTarget transform hdr) :=
  inferInstanceAs (Decidable (_ ≤ _))

/-- The prepared blocks are those of the header, whatever nonce was put in. -/
structure Ready (transform : Sha256Transform) (bits : UInt32) (s : LoopState) : Prop where
  bits : s.hdr.bits = bits
  prepared : ∀ nonce, s.prepared.withNonce nonce =
    (prepare transform s.hdr s.prepared).withNonce nonce

variable {bits : UInt32} {s t : LoopState} {r : Reading} {builtOn : Bytes32} {startMs : UInt64}
  {target : ArithUint256}

theorem withNonce_withNonce (p : Prepared) (n m : UInt32) :
    (p.withNonce n).withNonce m = p.withNonce m := by
  simp only [Prepared.withNonce, Function.update_idem]

/-- What was prepared before does not matter. -/
theorem prepare_before (hdr : BlockHeader) (p q : Prepared) :
    prepare transform hdr p = prepare transform hdr q := by
  rw [prepare_eq, prepare_eq]

/-- Blocks just prepared. -/
theorem ready_prepare (p : Prepared) (prepared : s.prepared =
    prepare transform s.hdr p) (same : s.hdr.bits = bits) : Ready transform bits s :=
  ⟨same, fun nonce => by rw [prepare_before s.hdr s.prepared p, ← prepared]⟩

theorem ready_begin (hdr : BlockHeader) (unset : Prepared) :
    Ready transform hdr.bits (begin transform hdr unset) :=
  ready_prepare unset rfl rfl

theorem Ready.poll (ready : Ready transform bits s)
    (polled : Miner.poll transform builtOn startMs r s = some t) : Ready transform bits t := by
  rw [Miner.poll] at polled
  split at polled
  · dsimp only at polled
    split at polled
    · split at polled
      · cases polled
      · split at polled
        · cases polled
        · split at polled
          · cases polled
            exact ready_prepare s.prepared rfl ready.bits
          · cases polled
            exact ⟨ready.bits, ready.prepared⟩
    · cases polled
      exact ⟨ready.bits, ready.prepared⟩
  · cases polled

theorem Ready.advance (ready : Ready transform bits s) :
    Ready transform bits (advance transform r s.patched) := by
  rw [Miner.advance]
  split
  · exact ready_prepare (s.prepared.withNonce s.nonce) rfl ready.bits
  · refine ⟨ready.bits, fun nonce => ?_⟩
    rw [prepare_before _ _ s.prepared]
    exact (withNonce_withNonce _ _ _).trans (ready.prepared nonce)

/-- The top word of a hash that is small enough is small enough. -/
theorem hw_le_targetTop {hw : Fin 8 → UInt32}
    (le : (Sha256Ctx.digest hw).toNat ≤ target.value) : hw 0 ≤ targetTop target := by
  have top (a : ArithUint256) : word a.arithToBytes32.toBytes 0 =
      UInt32.ofBitVec (a (Fin.last 7)) := by
    exact ArithUint256.word_toBytes_ofBytes _ (List.length_ofFn ..) 0
  have first : word (Sha256Ctx.digest hw).toBytes 0 = hw 0 :=
    ArithUint256.word_toBytes_ofBytes _ (List.length_ofFn ..) 0
  rw [← ArithUint256.value_arithFromBytes32] at le
  have tops := Limbs.last_le_of_value_le le
  rw [UInt32.le_iff_toNat_le, ← first, targetTop, top]
  exact tops

/-- The test of a turn is that of the header's hash. -/
theorem Ready.solves_iff (ready : Ready transform bits s)
    (expanded : target = (ArithUint256.setCompact bits).1) :
    solves transform target s.patched = true ↔ MeetsTarget transform s.candidate := by
  have hash : Sha256Ctx.digest (s.patched.prepared.hashWords transform) =
      s.candidate.getHash (sha256Raw transform) := by
    rw [LoopState.patched, ready.prepared]
    exact hashWords_prepare s.hdr s.prepared s.nonce
  have whole := (Limbs.compareTo_spec (ArithUint256.arithFromBytes32
    (Sha256Ctx.digest (s.patched.prepared.hashWords transform))) target).2
  rw [ArithUint256.value_arithFromBytes32] at whole
  rw [MeetsTarget, show s.candidate.bits = bits from ready.bits, ← expanded, ← hash, solves,
    Bool.and_eq_true, decide_eq_true_eq, decide_eq_true_eq, ← Int.not_lt, whole, Nat.not_lt]
  exact ⟨And.right, fun le => ⟨hw_le_targetTop le, le⟩⟩

/-- A run tests one header after the other and ends at the first that solves. -/
theorem Ready.turns (expanded : target = (ArithUint256.setCompact bits).1)
    (readings : List Reading) (ready : Ready transform bits s) :
    (∀ h, turns transform target builtOn startMs readings s = some (true, h) ↔
      (triedFrom transform target builtOn startMs readings s).find?
        (fun h => MeetsTarget transform h) = some h) ∧
    ∀ h ∈ (triedFrom transform target builtOn startMs readings s).dropLast,
      ¬ MeetsTarget transform h := by
  induction readings generalizing s with
  | nil => simp [Miner.turns, triedFrom]
  | cons r rest ih =>
      rw [Miner.turns, triedFrom]
      cases polled : Miner.poll transform builtOn startMs r s with
      | none => simp
      | some t =>
          have solved := (ready.poll polled).solves_iff expanded
          dsimp only
          by_cases hit : solves transform target t.patched = true
          · rw [if_pos hit, if_pos hit]
            have meets := solved.mp hit
            have first : [t.candidate].find? (fun h => MeetsTarget transform h) =
                some t.candidate := List.find?_cons_of_pos (by simpa using meets)
            rw [first]
            simp [LoopState.candidate]
          · rw [if_neg hit, if_neg hit]
            have misses := fun meets => hit (solved.mpr meets)
            obtain ⟨found, before⟩ := ih (ready.poll polled).advance
            refine ⟨fun h => ?_, fun h mem => ?_⟩
            · rw [List.find?_cons_of_neg (by simpa using misses)]
              exact found h
            · generalize triedFrom transform target builtOn startMs rest
                (Miner.advance transform r t.patched) = later at before mem
              cases later with
              | nil => cases mem
              | cons g later =>
                  rw [List.dropLast_cons_cons] at mem
                  cases mem with
                  | head => exact misses
                  | tail _ mem => exact before h mem

/-- **The fast path.** The three compressions hash the header with the nonce;
the top word of the hash never passes over one that is small enough; and the
loop returns a header exactly when it is the first one looked at whose hash is
at most the target, and looks no further. -/
theorem nonce_loop_exact (transform : Sha256Transform) :
    (∀ hdr unset nonce, Sha256Ctx.digest
      (((prepare transform hdr unset).withNonce nonce).hashWords transform) =
        (hdr.setNonce nonce).getHash (sha256Raw transform)) ∧
    (∀ target hw, (Sha256Ctx.digest hw).toNat ≤ target.value → hw 0 ≤ targetTop target) ∧
    ∀ hdr unset startMs readings,
      (∀ h, runNonceLoop transform hdr unset startMs readings = some (true, h) ↔
        (tried transform hdr unset startMs readings).find? (fun h => MeetsTarget transform h) =
          some h) ∧
      ∀ h ∈ (tried transform hdr unset startMs readings).dropLast, ¬ MeetsTarget transform h := by
  refine ⟨hashWords_prepare, fun _ _ => hw_le_targetTop, fun hdr unset startMs readings => ?_⟩
  rw [runNonceLoop, tried]
  generalize expanded : ArithUint256.setCompact hdr.bits = out
  obtain ⟨target, neg, tooLarge⟩ := out
  dsimp only
  split
  · simp
  · exact (ready_begin hdr unset).turns (congrArg Prod.fst expanded).symm readings

end Miner

end QmaskCore
