import Mathlib.Data.List.Basic

/-!
Reading a buffer at an offset.

A reader that copies from a position it computed may copy from beyond the end.
`slice` is such a copy, with `Halt.outside` as the outcome that must not occur,
and a reader is a chain of copies in `Except Halt`. `slice_eq` is what the
checks of a reader are there to establish.
-/

namespace Buffer

/-- How a reader ends without a result. -/
inductive Halt where
  /-- It gave up. -/
  | thrown
  /-- It asked for a byte that is not in the buffer. -/
  | outside
  /-- Its loop took all the turns it was given. -/
  | endless
deriving DecidableEq

/-- `n` bytes from an offset on. -/
def slice (data : List UInt8) (offset n : Nat) : Except Halt (List UInt8) :=
  if offset + n ≤ data.length then .ok ((data.drop offset).take n) else .error .outside

theorem slice_eq {data : List UInt8} {offset n : Nat} (inside : offset + n ≤ data.length) :
    slice data offset n = .ok ((data.drop offset).take n) :=
  if_pos inside

/-- A read that succeeded hands its result on. -/
@[simp] theorem ok_bind {α β : Type} (a : α) (next : α → Except Halt β) :
    ((.ok a : Except Halt α) >>= next) = next a := rfl

@[simp] theorem error_bind {α β : Type} (stop : Halt) (next : α → Except Halt β) :
    ((.error stop : Except Halt α) >>= next) = .error stop := rfl

end Buffer
