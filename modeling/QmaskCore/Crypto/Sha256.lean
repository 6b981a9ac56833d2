import Mathlib.Data.Fin.VecNotation
import QmaskCore.Lib.BigEndian
import QmaskCore.Lib.BlockHash
import QmaskCore.Primitives.Bytes

/-!
`sha2.c`: SHA-256 over any compression function.

A context buffers the bytes of a block until it is full. `Absorbed` says what a
context holds of the bytes it was given; `Absorbed.sha256Update` keeps it, and
`Absorbed.sha256Final` reads the digest off: that of the bytes under the
standard padding, however they were cut into calls. The words are those a
buffer spells high byte first, which the swaps on a little-endian machine are
for.
-/

namespace QmaskCore

open BigEndian BlockHash

/-- What `sha256_Transform` computes: a state and a block give a state. -/
abbrev Sha256Transform := (Fin 8 → UInt32) → (Fin 16 → UInt32) → Fin 8 → UInt32

structure Sha256Ctx where
  state : Fin 8 → UInt32
  bitcount : UInt64
  buffer : List UInt8

def sha256InitialHashValue : Fin 8 → UInt32 :=
  ![0x6a09e667, 0xbb67ae85, 0x3c6ef372, 0xa54ff53a, 0x510e527f, 0x9b05688c, 0x1f83d9ab, 0x5be0cd19]

namespace Sha256Ctx

/-- The words of a block. -/
def words (block : List UInt8) : Fin 16 → UInt32 := fun i => word block (4 * i)

/-- Bytes copied into a buffer. -/
def put (buffer : List UInt8) (pos : Nat) (data : List UInt8) : List UInt8 :=
  buffer.take pos ++ data ++ buffer.drop (pos + data.length)

/-- The eight words as bytes. -/
def digest (state : Fin 8 → UInt32) : Bytes32 := .ofBytes ((List.ofFn state).flatMap bytes)

def sha256Init : Sha256Ctx where
  state := sha256InitialHashValue
  bitcount := 0
  buffer := List.replicate 64 0

variable (transform : Sha256Transform)

/-- Bytes stored and counted. -/
def store (ctx : Sha256Ctx) (pos : Nat) (data : List UInt8) : Sha256Ctx :=
  { ctx with
    bitcount := ctx.bitcount + UInt64.ofNat data.length <<< 3
    buffer := put ctx.buffer pos data }

/-- Bytes stored, and the block they fill. -/
def fill (ctx : Sha256Ctx) (pos : Nat) (data : List UInt8) : Sha256Ctx :=
  { ctx.store pos data with state := transform ctx.state (words (put ctx.buffer pos data)) }

/-- The loop over the complete blocks: the context, and what is left over. -/
def wholeBlocks : Nat → Sha256Ctx → List UInt8 → Sha256Ctx × List UInt8
  | 0, ctx, data => (ctx, data)
  | turns + 1, ctx, data =>
      if 64 ≤ data.length then wholeBlocks turns (ctx.fill transform 0 (data.take 64)) (data.drop 64)
      else (ctx, data)

def sha256Update (ctx : Sha256Ctx) (data : List UInt8) : Sha256Ctx :=
  if data = [] then ctx
  else
    let usedspace := (ctx.bitcount >>> 3).toNat % 64
    let freespace := 64 - usedspace
    if 0 < usedspace ∧ data.length < freespace then ctx.store usedspace data
    else
      let (ctx, data) :=
        if 0 < usedspace then
          (ctx.fill transform usedspace (data.take freespace), data.drop freespace)
        else (ctx, data)
      let (ctx, data) := wholeBlocks transform data.length ctx data
      if 0 < data.length then ctx.store 0 data else ctx

def sha256Final (ctx : Sha256Ctx) : Bytes32 :=
  let usedspace := (ctx.bitcount >>> 3).toNat % 64
  let buffer := put ctx.buffer usedspace [0x80]
  let usedspace := usedspace + 1
  let (state, buffer, usedspace) :=
    if 56 < usedspace then
      let buffer := put buffer usedspace (List.replicate (64 - usedspace) 0)
      (transform ctx.state (words buffer), buffer, 0)
    else (ctx.state, buffer, usedspace)
  let buffer := put buffer usedspace (List.replicate (56 - usedspace) 0)
  digest <| transform state fun i =>
    if i = 14 then (ctx.bitcount >>> 32).toUInt32
    else if i = 15 then ctx.bitcount.toUInt32
    else words buffer i

end Sha256Ctx

/-- The three calls on one string. -/
def sha256Raw (transform : Sha256Transform) (data : List UInt8) : Bytes32 :=
  (Sha256Ctx.sha256Init.sha256Update transform data).sha256Final transform

namespace Sha256Ctx

/-! ### The standard padding -/

/-- The bit length of a message, as two words. -/
def lengthField (bitcount : UInt64) : List UInt8 :=
  bytes (bitcount >>> 32).toUInt32 ++ bytes bitcount.toUInt32

/-- A one bit, zeros up to the last eight bytes of a block, and the length. -/
def pad (data : List UInt8) : List UInt8 :=
  data ++ 0x80 :: List.replicate ((119 - data.length % 64) % 64) 0 ++
    lengthField (UInt64.ofNat (8 * data.length))

/-- A block compressed, as its bytes. -/
def compress (transform : Sha256Transform) (state : Fin 8 → UInt32) (block : List UInt8) :
    Fin 8 → UInt32 :=
  transform state (words block)

/-- The hash of a message under the standard padding. -/
def standard (transform : Sha256Transform) (data : List UInt8) : Bytes32 :=
  digest (hash (compress transform) 64 sha256InitialHashValue (pad data))

@[simp] theorem length_lengthField (bitcount : UInt64) : (lengthField bitcount).length = 8 := rfl

/-! ### What a context holds -/

variable {transform : Sha256Transform}

/-- The complete blocks are in the state and the rest is in the buffer. -/
structure Absorbed (transform : Sha256Transform) (ctx : Sha256Ctx) (data : List UInt8) : Prop where
  state : ctx.state =
    blocks (compress transform) 64 (data.length / 64) sha256InitialHashValue data
  bitcount : ctx.bitcount = UInt64.ofNat (8 * data.length)
  length : ctx.buffer.length = 64
  rest : ctx.buffer.take (data.length % 64) = data.drop (64 * (data.length / 64))

theorem absorbed_sha256Init : Absorbed transform sha256Init [] where
  state := rfl
  bitcount := rfl
  length := rfl
  rest := rfl

variable {ctx : Sha256Ctx} {data : List UInt8}

/-- The count tells how full the buffer is, also past its own range. -/
theorem Absorbed.usedspace (held : Absorbed transform ctx data) :
    (ctx.bitcount >>> 3).toNat % 64 = data.length % 64 := by
  rw [held.bitcount, UInt64.toNat_shiftRight, UInt64.toNat_ofNat', Nat.shiftRight_eq_div_pow]
  change 8 * data.length % 2 ^ 64 / 2 ^ 3 % 64 = data.length % 64
  omega

theorem bitcount_add (data new : List UInt8) :
    UInt64.ofNat (8 * data.length) + UInt64.ofNat new.length <<< 3 =
      UInt64.ofNat (8 * (data ++ new).length) := by
  rw [← UInt64.toNat_inj, UInt64.toNat_add, UInt64.toNat_shiftLeft, UInt64.toNat_ofNat',
    UInt64.toNat_ofNat', UInt64.toNat_ofNat', Nat.shiftLeft_eq, List.length_append]
  change (8 * data.length % 2 ^ 64 + new.length % 2 ^ 64 * 2 ^ 3 % 2 ^ 64) % 2 ^ 64 =
    8 * (data.length + new.length) % 2 ^ 64
  omega

theorem length_put {buffer new : List UInt8} {pos : Nat} (inside : pos + new.length ≤ buffer.length) :
    (put buffer pos new).length = buffer.length := by
  rw [put, List.length_append, List.length_append, List.length_take, List.length_drop]
  omega

theorem take_put {buffer new : List UInt8} {pos : Nat} (inside : pos + new.length ≤ buffer.length) :
    (put buffer pos new).take (pos + new.length) = buffer.take pos ++ new := by
  have length : (buffer.take pos ++ new).length = pos + new.length := by
    rw [List.length_append, List.length_take]
    omega
  rw [put, ← length, List.take_left]

/-- Bytes that leave the block incomplete. -/
theorem Absorbed.store (held : Absorbed transform ctx data) {new : List UInt8}
    (small : new.length < 64 - data.length % 64) :
    Absorbed transform (ctx.store (data.length % 64) new) (data ++ new) := by
  have blocksSame : (data ++ new).length / 64 = data.length / 64 := by
    rw [List.length_append]
    omega
  have used : (data ++ new).length % 64 = data.length % 64 + new.length := by
    rw [List.length_append]
    omega
  have inside : data.length % 64 + new.length ≤ ctx.buffer.length := by
    rw [held.length]
    omega
  refine ⟨?_, ?_, ?_, ?_⟩
  · rw [blocksSame, blocks_append _ _ _ _ (by omega)]
    exact held.state
  · rw [← bitcount_add, ← held.bitcount]
    rfl
  · exact (length_put inside).trans held.length
  · rw [used, blocksSame, List.drop_append_of_le_length (by omega), ← held.rest]
    exact take_put inside

/-- The complete blocks are all that is compressed. -/
theorem blocks_take (data : List UInt8) :
    blocks (compress transform) 64 (data.length / 64) sha256InitialHashValue
      (data.take (64 * (data.length / 64))) =
        blocks (compress transform) 64 (data.length / 64) sha256InitialHashValue data := by
  have whole : data.length / 64 * 64 ≤ (data.take (64 * (data.length / 64))).length := by
    rw [List.length_take]
    omega
  have same := blocks_append (compress transform) 64 (data.length / 64) sha256InitialHashValue whole
    (data.drop (64 * (data.length / 64)))
  rw [List.take_append_drop] at same
  exact same.symm

/-- Bytes that complete the block. -/
theorem Absorbed.fill (held : Absorbed transform ctx data) {new : List UInt8}
    (full : new.length = 64 - data.length % 64) :
    Absorbed transform (ctx.fill transform (data.length % 64) new) (data ++ new) := by
  have whole : (data ++ new).length = 64 * (data.length / 64 + 1) := by
    rw [List.length_append]
    omega
  have inside : data.length % 64 + new.length = ctx.buffer.length := by
    rw [held.length]
    omega
  have block : put ctx.buffer (data.length % 64) new =
      data.drop (64 * (data.length / 64)) ++ new := by
    rw [put, inside, List.drop_length, List.append_nil, held.rest]
  have split : data ++ new =
      data.take (64 * (data.length / 64)) ++ (data.drop (64 * (data.length / 64)) ++ new) := by
    rw [← List.append_assoc, List.take_append_drop]
  refine ⟨?_, ?_, ?_, ?_⟩
  · have one : (data ++ new).length / 64 = data.length / 64 + 1 := by omega
    rw [one, split, blocks_snoc _ _ _ (by rw [List.length_take]; omega)
      (by rw [List.length_append, List.length_drop]; omega), ← block]
    rw [blocks_take, ← held.state]
    rfl
  · rw [← bitcount_add, ← held.bitcount]
    rfl
  · exact (length_put inside.le).trans held.length
  · rw [whole, Nat.mul_mod_right, List.take_zero, Nat.mul_div_cancel_left _ (by decide),
      ← whole, List.drop_length]

/-- The loop eats the complete blocks when the buffer is empty. -/
theorem Absorbed.wholeBlocks (held : Absorbed transform ctx data) (turns : Nat) (new : List UInt8)
    (empty : data.length % 64 = 0) (enough : new.length ≤ turns) :
    ∃ eaten, Absorbed transform (wholeBlocks transform turns ctx new).1 (data ++ eaten) ∧
      (data ++ eaten).length % 64 = 0 ∧ new = eaten ++ (wholeBlocks transform turns ctx new).2 ∧
        (wholeBlocks transform turns ctx new).2.length < 64 := by
  induction turns generalizing ctx data new with
  | zero =>
      have none_left : new = [] := List.eq_nil_of_length_eq_zero (by omega)
      refine ⟨[], ?_, ?_, ?_, ?_⟩
      · rw [List.append_nil]
        exact held
      · rw [List.append_nil]
        exact empty
      · rfl
      · rw [none_left]
        exact Nat.zero_lt_succ _
  | succ turns ih =>
      rw [Sha256Ctx.wholeBlocks]
      split
      · rename_i more
        have first : (new.take 64).length = 64 - data.length % 64 := by
          rw [List.length_take, empty]
          omega
        have filled := held.fill first
        rw [empty] at filled
        obtain ⟨eaten, absorbed, whole, split, short⟩ := ih filled (new.drop 64)
          (by rw [List.length_append, first]; omega) (by rw [List.length_drop]; omega)
        refine ⟨new.take 64 ++ eaten, ?_, ?_, ?_, short⟩
        · rw [← List.append_assoc]
          exact absorbed
        · rw [← List.append_assoc]
          exact whole
        · rw [List.append_assoc, ← split, List.take_append_drop]
      · rename_i done
        refine ⟨[], ?_, ?_, ?_, Nat.lt_of_not_le done⟩
        · rw [List.append_nil]
          exact held
        · rw [List.append_nil]
          exact empty
        · rfl

/-- Bytes from a block's start on. -/
theorem Absorbed.fromStart (held : Absorbed transform ctx data) (empty : data.length % 64 = 0)
    (new : List UInt8) :
    let (ctx, left) := Sha256Ctx.wholeBlocks transform new.length ctx new
    Absorbed transform (if 0 < left.length then ctx.store 0 left else ctx) (data ++ new) := by
  obtain ⟨eaten, absorbed, whole, split, short⟩ := held.wholeBlocks new.length new empty le_rfl
  generalize Sha256Ctx.wholeBlocks transform new.length ctx new = out at absorbed split short ⊢
  obtain ⟨ctx, left⟩ := out
  dsimp only at absorbed split short ⊢
  rw [split, ← List.append_assoc]
  split
  · have small : left.length < 64 - (data ++ eaten).length % 64 := by omega
    have stored := absorbed.store small
    rwa [whole] at stored
  · have none_left : left = [] := List.eq_nil_of_length_eq_zero (by omega)
    rw [none_left, List.append_nil]
    exact absorbed

/-- **An update.** The context holds the bytes it held and the new ones. -/
theorem Absorbed.sha256Update (held : Absorbed transform ctx data) (new : List UInt8) :
    Absorbed transform (ctx.sha256Update transform new) (data ++ new) := by
  rw [Sha256Ctx.sha256Update]
  split
  · rename_i nothing
    rw [nothing, List.append_nil]
    exact held
  · simp only [held.usedspace]
    split
    · rename_i small
      exact held.store small.2
    · rename_i enough
      by_cases begun : 0 < data.length % 64
      · have room : 64 - data.length % 64 ≤ new.length := by omega
        have first : (new.take (64 - data.length % 64)).length = 64 - data.length % 64 := by
          rw [List.length_take]
          omega
        have onward := (held.fill first).fromStart (by rw [List.length_append, first]; omega)
          (new.drop (64 - data.length % 64))
        rw [List.append_assoc, List.take_append_drop] at onward
        rw [if_pos begun]
        exact onward
      · rw [if_neg begun]
        exact held.fromStart (by omega) new

/-! ### The end -/

/-- The last block, from what stands before the length. -/
theorem words_lengthField {buffer front : List UInt8} (before : buffer.take 56 = front)
    (length : front.length = 56) (bitcount : UInt64) :
    (fun i : Fin 16 =>
      if i = 14 then (bitcount >>> 32).toUInt32
      else if i = 15 then bitcount.toUInt32
      else words buffer i) = words (front ++ lengthField bitcount) := by
  funext i
  rw [words, words]
  split
  · rename_i high
    rw [high, show 4 * ((14 : Fin 16) : Nat) = front.length + 0 by rw [length]; rfl, word_append,
      lengthField, word_bytes]
  · split
    · rename_i _ low
      have skip := word_append (bytes (bitcount >>> 32).toUInt32) (bytes bitcount.toUInt32 ++ []) 0
      rw [word_bytes, List.append_nil] at skip
      rw [low, show 4 * ((15 : Fin 16) : Nat) = front.length + 4 by rw [length]; rfl, word_append,
        lengthField]
      exact skip.symm
    · rename_i notHigh notLow
      have inside : 4 * i.val + 4 ≤ front.length := by
        rw [length]
        omega
      have kept := word_append_left (before ▸ inside) (buffer.drop 56)
      rw [List.take_append_drop, before] at kept
      rw [kept, word_append_left inside]

/-- The bytes after the complete blocks, and the one bit. -/
def opened (data : List UInt8) : List UInt8 := data.drop (64 * (data.length / 64)) ++ [0x80]

theorem length_opened (data : List UInt8) : (opened data).length = data.length % 64 + 1 := by
  rw [opened, List.length_append, List.length_drop, List.length_singleton]
  omega

theorem pad_eq (data : List UInt8) : pad data = data.take (64 * (data.length / 64)) ++
    (opened data ++ List.replicate ((119 - data.length % 64) % 64) 0 ++
      lengthField (UInt64.ofNat (8 * data.length))) := by
  rw [pad, opened]
  simp only [← List.append_assoc, List.take_append_drop]
  simp

/-- The complete blocks of the message, then the blocks of the padding. -/
theorem hash_pad {n : Nat} {last : List UInt8} (length : last.length = n * 64)
    (padded : pad data = data.take (64 * (data.length / 64)) ++ last) :
    hash (compress transform) 64 sha256InitialHashValue (pad data) =
      blocks (compress transform) 64 n
        (blocks (compress transform) 64 (data.length / 64) sha256InitialHashValue data) last := by
  have whole : (data.take (64 * (data.length / 64))).length = data.length / 64 * 64 := by
    rw [List.length_take]
    omega
  have count : (data.take (64 * (data.length / 64)) ++ last).length / 64 = data.length / 64 + n := by
    rw [List.length_append, whole, length]
    omega
  rw [BlockHash.hash, padded, count, blocks_add, blocks_append _ _ _ _ (Nat.le_of_eq whole.symm),
    blocks_take, ← whole, List.drop_left]

theorem Absorbed.length_marked (held : Absorbed transform ctx data) :
    (put ctx.buffer (data.length % 64) [0x80]).length = 64 := by
  refine (length_put ?_).trans held.length
  rw [held.length]
  exact Nat.mod_lt _ (by decide)

/-- Zeros put behind the one bit, up to any byte of the block. -/
theorem Absorbed.take_marked (held : Absorbed transform ctx data) {n : Nat}
    (fits : data.length % 64 + 1 + n ≤ 64) :
    (put (put ctx.buffer (data.length % 64) [0x80]) (data.length % 64 + 1)
      (List.replicate n 0)).take (data.length % 64 + 1 + n) = opened data ++ List.replicate n 0 := by
  have room : data.length % 64 + ([0x80] : List UInt8).length ≤ ctx.buffer.length := by
    rw [held.length]
    exact Nat.mod_lt _ (by decide)
  have inside : data.length % 64 + 1 + (List.replicate n (0 : UInt8)).length ≤
      (put ctx.buffer (data.length % 64) [0x80]).length := by
    rw [List.length_replicate, held.length_marked]
    exact fits
  have marked := take_put room
  have taken := take_put inside
  rw [List.length_singleton] at marked
  rwa [List.length_replicate, marked, held.rest] at taken

/-- **The digest.** That of the standard padding of the bytes held. -/
theorem Absorbed.sha256Final (held : Absorbed transform ctx data) :
    ctx.sha256Final transform = standard transform data := by
  simp only [Sha256Ctx.sha256Final, held.usedspace, standard]
  refine congrArg digest ?_
  by_cases full : 56 < data.length % 64 + 1
  · -- no room for the length: a block more
    rw [if_pos full]
    dsimp only
    have first := held.take_marked (n := 64 - (data.length % 64 + 1)) (by omega)
    have firstLength : (put (put ctx.buffer (data.length % 64) [0x80]) (data.length % 64 + 1)
        (List.replicate (64 - (data.length % 64 + 1)) 0)).length = 64 := by
      refine (length_put ?_).trans held.length_marked
      rw [List.length_replicate, held.length_marked]
      omega
    rw [show data.length % 64 + 1 + (64 - (data.length % 64 + 1)) = 64 by omega,
      List.take_of_length_le (Nat.le_of_eq firstLength)] at first
    rw [first] at firstLength ⊢
    have second : (put (opened data ++ List.replicate (64 - (data.length % 64 + 1)) 0) 0
        (List.replicate (56 - 0) 0)).take 56 = List.replicate 56 0 := by
      have inside : 0 + (List.replicate 56 (0 : UInt8)).length ≤
          (opened data ++ List.replicate (64 - (data.length % 64 + 1)) 0).length := by
        rw [firstLength, List.length_replicate]
        decide
      have taken := take_put inside
      rwa [List.length_replicate] at taken
    have padded : pad data = data.take (64 * (data.length / 64)) ++
        (opened data ++ List.replicate (64 - (data.length % 64 + 1)) 0 ++
          (List.replicate 56 0 ++ lengthField (UInt64.ofNat (8 * data.length)))) := by
      rw [pad_eq, show (119 - data.length % 64) % 64 = 64 - (data.length % 64 + 1) + 56 by omega,
        List.replicate_add]
      simp only [List.append_assoc]
    have lastLength : (List.replicate 56 0 ++
        lengthField (UInt64.ofNat (8 * data.length))).length = 64 := by
      rw [List.length_append, List.length_replicate, length_lengthField]
    rw [words_lengthField second (List.length_replicate ..),
      hash_pad (n := 1 + 1) (by rw [List.length_append, firstLength, lastLength]) padded,
      blocks_snoc _ _ _ firstLength lastLength, blocks_one _ _ _ firstLength, ← held.state,
      ← held.bitcount]
    rfl
  · rw [if_neg full]
    dsimp only
    have front := held.take_marked (n := 56 - (data.length % 64 + 1)) (by omega)
    rw [show data.length % 64 + 1 + (56 - (data.length % 64 + 1)) = 56 by omega] at front
    have frontLength : (opened data ++
        List.replicate (56 - (data.length % 64 + 1)) 0).length = 56 := by
      rw [List.length_append, length_opened, List.length_replicate]
      omega
    have padded := pad_eq data
    rw [show (119 - data.length % 64) % 64 = 56 - (data.length % 64 + 1) by omega] at padded
    have lastLength : (opened data ++ List.replicate (56 - (data.length % 64 + 1)) 0 ++
        lengthField (UInt64.ofNat (8 * data.length))).length = 64 := by
      rw [List.length_append, frontLength, length_lengthField]
    rw [words_lengthField front frontLength, hash_pad (n := 1) lastLength padded,
      blocks_one _ _ _ lastLength, ← held.state, ← held.bitcount]
    rfl

/-- The three calls hash under the standard padding. -/
theorem sha256Raw_eq (data : List UInt8) : sha256Raw transform data = standard transform data :=
  (absorbed_sha256Init.sha256Update data).sha256Final

end Sha256Ctx

end QmaskCore
