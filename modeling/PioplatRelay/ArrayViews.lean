import PioplatRelay.SharedSlices
import PioplatRelay.SliceExpressions

/-!
# Views of byte arrays

A view is a slice with an offset: it shows a range of one of the backing arrays,
also after the buffer that it was taken from has moved to another array.  Writing
through a view changes the array, and so every view of the same range.
-/

namespace PioplatRelay

open List

/-- An array with its whole capacity; a nil slice has none. -/
def arrayAt (arrays : Arrays UInt8) : Option Nat → List UInt8
  | none => []
  | some array => arrays.getD array []

def overwrite (arrays : Arrays UInt8) (array : Option Nat) (offset : Nat) (bytes : List UInt8) :
    Arrays UInt8 :=
  match array with
  | none => arrays
  | some array => arrays.modify array fun elements => copyAt elements offset bytes

structure ArrayView where
  array : Option Nat
  offset : Nat
  length : Nat
  deriving DecidableEq, Repr

namespace ArrayView

def contents (arrays : Arrays UInt8) (view : ArrayView) : List UInt8 :=
  ((arrayAt arrays view.array).drop view.offset).take view.length

def front (view : ArrayView) (count : Nat) : ArrayView := { view with length := count }

def write (arrays : Arrays UInt8) (view : ArrayView) (bytes : List UInt8) : Arrays UInt8 :=
  overwrite arrays view.array view.offset bytes

end ArrayView

variable {arrays : Arrays UInt8} {array other : Option Nat} {offset : Nat} {bytes : List UInt8}

@[simp]
theorem length_overwrite (arrays : Arrays UInt8) (array : Option Nat) (offset : Nat)
    (bytes : List UInt8) : (overwrite arrays array offset bytes).length = arrays.length := by
  unfold overwrite
  split <;> simp

theorem arrayAt_overwrite_self (arrays : Arrays UInt8) (array : Option Nat) (offset : Nat)
    (bytes : List UInt8) : arrayAt (overwrite arrays array offset bytes) array =
      copyAt (arrayAt arrays array) offset bytes := by
  cases array with
  | none => simp [arrayAt,copyAt]
  | some array =>
    simp only [overwrite,arrayAt,getD_eq_getElem?_getD,getElem?_modify_eq]
    cases arrays[array]? with
    | none => simp [copyAt]
    | some elements => rfl

theorem arrayAt_overwrite_other (different : other ≠ array) :
    arrayAt (overwrite arrays array offset bytes) other = arrayAt arrays other := by
  cases array with
  | none => rfl
  | some array =>
    cases other with
    | none => rfl
    | some other =>
      have apart : array ≠ other := fun same => different (congrArg some same.symm)
      simp [overwrite,arrayAt,getD_eq_getElem?_getD,apart]

theorem length_arrayAt_overwrite (arrays : Arrays UInt8) (array other : Option Nat) (offset : Nat)
    (bytes : List UInt8) : (arrayAt (overwrite arrays array offset bytes) other).length =
      (arrayAt arrays other).length := by
  by_cases same : other = array
  · rw [same,arrayAt_overwrite_self,copyAt_length]
  · rw [arrayAt_overwrite_other same]

theorem arrayAt_append (known : ∀ index, array = some index → index < arrays.length)
    (made : List UInt8) : arrayAt (arrays ++ [made]) array = arrayAt arrays array := by
  cases array with
  | none => rfl
  | some index => simp [arrayAt,getD_eq_getElem?_getD,getElem?_append_left (known index rfl)]

theorem arrayAt_made (arrays : Arrays UInt8) (made : List UInt8) :
    arrayAt (arrays ++ [made]) (some arrays.length) = made := by
  simp [arrayAt]

namespace ArrayView

variable {view : ArrayView}

theorem contents_overwrite_of_le (inside : view.offset + view.length ≤
      (arrayAt arrays view.array).length) (before : view.offset + view.length ≤ offset) :
    view.contents (overwrite arrays view.array offset bytes) = view.contents arrays := by
  obtain ⟨front,back,arrayEq,frontLength⟩ := exists_append_of_le_length inside
  have untouched : (copyAt (arrayAt arrays view.array) offset bytes).take
      (view.offset + view.length) = front := by
    rw [copyAt,arrayEq,append_assoc,take_append_of_le_length]
    · rw [take_take,Nat.min_eq_left before,← frontLength,take_left]
    · rw [length_take,length_append]
      omega
  have whole : (arrayAt arrays view.array).take (view.offset + view.length) = front := by
    rw [arrayEq,← frontLength,take_left]
  rw [contents,contents,arrayAt_overwrite_self,take_drop,take_drop,untouched,whole]

theorem contents_front {count : Nat} (short : count ≤ view.length) :
    (view.front count).contents arrays = (view.contents arrays).take count := by
  rw [contents,contents,take_take,Nat.min_eq_left short]
  rfl

theorem contents_write (inside : view.offset + view.length ≤ (arrayAt arrays view.array).length)
    (lengthEq : bytes.length = view.length) : view.contents (view.write arrays bytes) = bytes := by
  obtain ⟨front,back,arrayEq,frontLength⟩ :=
    exists_append_of_le_length (Nat.le_of_add_right_le inside)
  have backLong : view.length ≤ back.length := by
    rw [arrayEq,length_append] at inside
    omega
  obtain ⟨middle,after,rfl,middleLength⟩ := exists_append_of_le_length backLong
  rw [contents,write,arrayAt_overwrite_self,arrayEq,
    copyAt_append front middle after bytes frontLength.symm (lengthEq.trans middleLength.symm),
    ← frontLength,drop_left,← lengthEq,take_left]

end ArrayView

end PioplatRelay
