import Mathlib.Data.List.DropRight
import Mathlib.Data.Nat.Bitwise

/-!
Maps of bits held in bytes, the low bit of a byte first.

A position beyond the bytes reads as clear, so dropping the zero bytes at the
end (`trim`) and adding some (`resize`) change no answer.
-/

namespace QmaskCore

/-- `std::vector::resize`, filling up with zeros. -/
def resize (bytes : List UInt8) (size : Nat) : List UInt8 :=
  bytes.take size ++ List.replicate (size - bytes.length) 0

@[simp] theorem length_resize (bytes : List UInt8) (size : Nat) :
    (resize bytes size).length = size := by
  simp only [resize, List.length_append, List.length_take, List.length_replicate]
  omega

theorem resize_of_length {bytes : List UInt8} {size : Nat} (long : bytes.length = size) :
    resize bytes size = bytes := by
  rw [resize, long, Nat.sub_self, List.replicate_zero, List.append_nil, ← long, List.take_length]

namespace Bitmap

def testBit (map : List UInt8) (index : Nat) : Bool :=
  map[index / 8]?.any fun byte => byte.toNat.testBit (index % 8)

def setBit (map : List UInt8) (index : Nat) : List UInt8 :=
  map.modify (index / 8) (· ||| UInt8.ofNat (1 <<< (index % 8)))

/-- Without the zero bytes at the end. -/
def trim (map : List UInt8) : List UInt8 := map.rdropWhile (· = 0)

@[simp] theorem length_setBit (map : List UInt8) (index : Nat) :
    (setBit map index).length = map.length := List.length_modify _ _ _

theorem testBit_setBit (map : List UInt8) (index j : Nat) :
    testBit (setBit map index) j =
      (testBit map j || (decide (index = j) && decide (index / 8 < map.length))) := by
  have bit : (UInt8.ofNat (1 <<< (index % 8))).toNat = 2 ^ (index % 8) := by
    have small : 2 ^ (index % 8) < 2 ^ 8 :=
      Nat.pow_lt_pow_right (by decide) (Nat.mod_lt _ (by decide))
    rw [Nat.one_shiftLeft, UInt8.toNat_ofNat', Nat.mod_eq_of_lt small]
  rw [testBit, setBit, List.getElem?_modify, testBit]
  cases found : map[j / 8]? with
  | none =>
      have far : map.length ≤ j / 8 := List.getElem?_eq_none_iff.mp found
      have other : ¬ (index = j ∧ index / 8 < map.length) := by omega
      rw [← Bool.decide_and, decide_eq_false other]
      rfl
  | some byte =>
      have near : j / 8 < map.length := (List.getElem?_eq_some_iff.mp found).1
      by_cases same : index / 8 = j / 8
      · have position : index % 8 = j % 8 ↔ index = j := by omega
        simp only [if_pos same, Option.map_eq_map, Option.map_some, Option.any_some]
        rw [UInt8.toNat_or, bit, Nat.testBit_or, Nat.testBit_two_pow, same]
        simp only [near, decide_true, Bool.and_true, position]
      · have other : index ≠ j := fun eq => same (by rw [eq])
        simp only [if_neg same, other, decide_false, Bool.false_and, Bool.or_false]
        rfl

/-- Zero bytes behind a map change no answer. -/
theorem testBit_append_zeros (map : List UInt8) (zeros j : Nat) :
    testBit (map ++ List.replicate zeros 0) j = testBit map j := by
  rw [testBit, testBit, List.getElem?_append]
  split
  · rfl
  · rename_i far
    rw [List.getElem?_eq_none (not_lt.mp far), List.getElem?_replicate]
    split
    · exact Nat.zero_testBit _
    · rfl

theorem testBit_resize {map : List UInt8} {size : Nat} (small : map.length ≤ size) (j : Nat) :
    testBit (resize map size) j = testBit map j := by
  rw [resize, List.take_of_length_le small, testBit_append_zeros]

theorem length_trim_le (map : List UInt8) : (trim map).length ≤ map.length :=
  (List.rdropWhile_prefix _ _).length_le

/-- What `trim` drops. -/
theorem trim_append (map : List UInt8) :
    map = trim map ++ List.replicate (map.length - (trim map).length) 0 := by
  induction map using List.reverseRecOn with
  | nil => rfl
  | append_singleton map byte ih =>
      rw [trim, List.rdropWhile_concat]
      split
      · rename_i zero
        have shorter := length_trim_le map
        have one : (map ++ [byte]).length - (trim map).length =
            map.length - (trim map).length + 1 := by
          rw [List.length_append, List.length_singleton]
          omega
        rw [← trim, one, List.replicate_succ', ← List.append_assoc, ← ih, of_decide_eq_true zero]
      · rw [Nat.sub_self, List.replicate_zero, List.append_nil]

theorem testBit_trim (map : List UInt8) (j : Nat) : testBit (trim map) j = testBit map j := by
  conv_rhs => rw [trim_append map]
  rw [testBit_append_zeros]

end Bitmap

end QmaskCore
