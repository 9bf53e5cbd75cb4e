import Mathlib.Data.List.Basic

/-!
# Slice expressions and copies on byte buffers

A slice expression on a buffer made with `make([]byte, n)` is in range exactly when
`0 ≤ low ≤ high ≤ n`.  Slicing is partial here: `none` stands for the runtime's bounds
panic.  `copyAt` is `copy(buffer[offset:], bytes)`, which never grows the buffer.
-/

namespace PioplatRelay

open List

/-- `buffer[low:high]`, or `none` where the runtime panics. -/
def slice (buffer : List UInt8) (low high : Int) : Option (List UInt8) :=
  if 0 ≤ low ∧ low ≤ high ∧ high ≤ buffer.length then some ((buffer.take high.toNat).drop low.toNat)
  else none

variable (buffer : List UInt8) (offset : Nat) (bytes : List UInt8)

def copyAt : List UInt8 :=
  buffer.take offset ++ bytes.take (buffer.length - offset) ++ buffer.drop (offset + bytes.length)

theorem slice_eq_none_iff {buffer : List UInt8} {low high : Int} : slice buffer low high = none ↔
      ¬ (0 ≤ low ∧ low ≤ high ∧ high ≤ buffer.length) := by
  unfold slice
  split <;> simp_all

theorem slice_of_le {buffer : List UInt8} {low high : Nat}
    (ordered : low ≤ high) (bounded : high ≤ buffer.length) :
    slice buffer low high = some ((buffer.take high).drop low) := by
  unfold slice
  rw [if_pos (by omega)]
  simp

theorem slice_append_left {front : List UInt8} {low high : Nat} (after : List UInt8)
    (ordered : low ≤ high) (bounded : high ≤ front.length) :
    slice (front ++ after) low high = some ((front.take high).drop low) := by
  rw [slice_of_le ordered (by simp only [length_append]; omega),take_append_of_le_length bounded]

@[simp]
theorem copyAt_length :
    (copyAt buffer offset bytes).length = buffer.length := by
  simp only [copyAt,length_append,length_take,length_drop]
  omega

theorem copyAt_append (before middle after bytes : List UInt8) {offset : Nat}
    (offsetEq : offset = before.length) (lengthEq : bytes.length = middle.length) :
    copyAt (before ++ (middle ++ after)) offset bytes = before ++ (bytes ++ after) := by
  subst offsetEq
  have tail : (before ++ (middle ++ after)).drop (before.length + bytes.length) = after := by
    rw [lengthEq,← append_assoc,drop_left' (by simp)]
  have whole : bytes.take ((before ++ (middle ++ after)).length - before.length) = bytes :=
    take_of_length_le (by simp only [length_append]; omega)
  rw [copyAt,tail,whole,take_left,append_assoc]

theorem exists_append_of_le_length {buffer : List UInt8} {mark : Nat}
    (reached : mark ≤ buffer.length) :
    ∃ before after, buffer = before ++ after ∧ before.length = mark := by
  refine ⟨buffer.take mark,buffer.drop mark,(take_append_drop mark buffer).symm,?_⟩
  rw [length_take,Nat.min_eq_left reached]

theorem copyAt_zero_of_le {buffer bytes : List UInt8} (bounded : bytes.length ≤ buffer.length) :
    copyAt buffer 0 bytes = bytes ++ buffer.drop bytes.length := by
  simp [copyAt,take_of_length_le bounded]

end PioplatRelay
