import Mathlib.Data.List.Basic

/-!
`std::ifstream` over the bytes of a file.

A read past the end takes what is there, leaves the rest of the buffer as it
was and ends the stream: nothing is read from then on.
-/

namespace QmaskCore

structure Ifstream where
  rest : List UInt8
  good : Bool
deriving DecidableEq

namespace Ifstream

/-- A file just opened. -/
def ofFile (contents : List UInt8) : Ifstream := ⟨contents, true⟩

/-- `read` into a buffer: what the buffer holds then, and the stream. -/
def read (buffer : List UInt8) (file : Ifstream) : List UInt8 × Ifstream :=
  if !file.good then (buffer, file)
  else if buffer.length ≤ file.rest.length then
    (file.rest.take buffer.length, { file with rest := file.rest.drop buffer.length })
  else (file.rest ++ buffer.drop file.rest.length, ⟨[], false⟩)

/-- `seekg` forward from the current position of a good stream. -/
def skip (count : Nat) (file : Ifstream) : Ifstream := { file with rest := file.rest.drop count }

@[simp] theorem length_read (buffer : List UInt8) (file : Ifstream) :
    (file.read buffer).1.length = buffer.length := by
  unfold read
  split
  · rfl
  · split
    · rename_i enough
      exact List.length_take_of_le enough
    · rename_i short
      rw [List.length_append, List.length_drop]
      omega

/-- Bytes that are there are read, whatever the buffer held. -/
theorem read_append {bytes buffer : List UInt8} (rest : List UInt8)
    (size : buffer.length = bytes.length) :
    read buffer (ofFile (bytes ++ rest)) = (bytes, ofFile rest) := by
  have enough : bytes.length ≤ (bytes ++ rest).length := by simp
  simp only [read, ofFile, size, enough, if_true, List.take_left, List.drop_left, Bool.not_true,
    Bool.false_eq_true, if_false]

end Ifstream

end QmaskCore
