import Mathlib.Data.List.Basic

/-!
Iterated hashing, over any compression function of blocks of one size.

`blocks` compresses the first blocks of a string one after the other; what it
gives depends on these alone (`blocks_append`), and the blocks can be taken in
two parts (`blocks_add`). A string is hashed with a suffix that brings its
length to a whole number of blocks.
-/

namespace BlockHash

variable {σ β : Type} (compress : σ → List β → σ) (size : Nat)

/-- The first `n` blocks, compressed from `s` on. -/
def blocks : Nat → σ → List β → σ
  | 0, s, _ => s
  | n + 1, s, data => blocks n (compress s (data.take size)) (data.drop size)

/-- The whole blocks of a string that holds no others. -/
def hash (s : σ) (padded : List β) : σ := blocks compress size (padded.length / size) s padded

theorem blocks_add (m n : Nat) (s : σ) (data : List β) : blocks compress size (m + n) s data =
    blocks compress size n (blocks compress size m s data) (data.drop (m * size)) := by
  induction m generalizing s data with
  | zero => rw [Nat.zero_add, Nat.zero_mul, List.drop_zero, blocks]
  | succ m ih =>
      rw [Nat.succ_add, blocks, ih, blocks, List.drop_drop, Nat.succ_mul, Nat.add_comm size]

theorem blocks_append (n : Nat) (s : σ) {data : List β} (enough : n * size ≤ data.length)
    (rest : List β) :
    blocks compress size n s (data ++ rest) = blocks compress size n s data := by
  induction n generalizing s data with
  | zero => rfl
  | succ n ih =>
      rw [Nat.succ_mul] at enough
      rw [blocks, blocks, List.take_append_of_le_length (by omega),
        List.drop_append_of_le_length (by omega)]
      exact ih _ (by rw [List.length_drop]; omega)

theorem blocks_one (s : σ) {block : List β} (full : block.length = size) :
    blocks compress size 1 s block = compress s block := by
  rw [blocks, blocks, ← full, List.take_length]

/-- One block more. -/
theorem blocks_snoc (s : σ) {data block : List β} {n : Nat} (whole : data.length = n * size)
    (full : block.length = size) : blocks compress size (n + 1) s (data ++ block) =
      compress (blocks compress size n s data) block := by
  rw [blocks_add, blocks_append compress size n s (Nat.le_of_eq whole.symm), ← whole,
    List.drop_left, blocks_one _ _ _ full]

end BlockHash
