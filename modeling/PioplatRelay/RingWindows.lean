import Mathlib.Data.List.GetD
import Mathlib.Data.List.Rotate

/-!
# Windows of a ring

A ring of slots is written at a head that moves round.  The last `count` slots
before the head, oldest first, are its window; the full window is a rotation of the
slots.
-/

namespace PioplatRelay.Ring

open List

variable {α : Type*}

def position (size head count index : Nat) : Nat :=
  if count ≤ head + index then head + index - count else head + size + index - count

/-- The last `count` entries before the head, oldest first. -/
def window [Inhabited α] (slots : List α) (head count : Nat) : List α :=
  (range count).map fun index => slots.getD (position slots.length head count index) default

def advance (size head : Nat) : Nat := (head + 1) % size

variable {size head count index : Nat} {slots : List α}

theorem advance_eq (headLt : head < size) :
    advance size head = if head + 1 = size then 0 else head + 1 := by
  unfold advance
  split
  · rename_i last
    rw [last,Nat.mod_self]
  · exact Nat.mod_eq_of_lt (by omega)

theorem position_lt (headLt : head < size) (countLe : count ≤ size) (indexLt : index < count) :
    position size head count index < size := by
  unfold position
  split <;> omega

/-- A window entry that is not the newest keeps its slot when the head moves. -/
theorem position_advance (headLt : head < size) (countLt : count < size) (indexLt : index < count) :
    position size (advance size head) (count + 1) index = position size head count index := by
  rw [advance_eq headLt]
  unfold position
  split <;> split <;> split <;> omega

theorem position_advance_last (headLt : head < size) (countLt : count < size) :
    position size (advance size head) (count + 1) count = head := by
  rw [advance_eq headLt]
  unfold position
  split <;> split <;> omega

theorem position_ne_head (countLt : count < size) (indexLt : index < count) :
    position size head count index ≠ head := by
  unfold position
  split <;> omega

variable [Inhabited α]

theorem window_length (slots : List α) (head count : Nat) :
    (window slots head count).length = count := by
  simp [window]

theorem window_write (headLt : head < slots.length) (countLt : count < slots.length) (entry : α) :
    window (slots.set head entry) (advance slots.length head) (count + 1) =
      window slots head count ++ [entry] := by
  simp only [window,range_succ,map_append,map_cons,map_nil,
    length_set,position_advance_last headLt countLt]
  congr 1
  · apply map_congr_left
    intro index member
    have indexLt := mem_range.mp member
    rw [position_advance headLt countLt indexLt,getD_eq_getElem?_getD,
      getElem?_set_ne (position_ne_head countLt indexLt).symm,getD_eq_getElem?_getD]
  · simp [getD_eq_getElem?_getD,headLt]

theorem mem_of_mem_window (headLt : head < slots.length) (countLe : count ≤ slots.length)
    {entry : α} (member : entry ∈ window slots head count) : entry ∈ slots := by
  obtain ⟨index,indexMember,rfl⟩ := mem_map.mp member
  have bounded := position_lt headLt countLe (mem_range.mp indexMember)
  rw [getD_eq_getElem _ _ bounded]
  exact getElem_mem bounded

theorem window_full (headLt : head < slots.length) :
    window slots head slots.length = slots.rotate head := by
  apply ext_getElem
  · simp [window]
  · intro index _ indexLt
    rw [length_rotate] at indexLt
    have bounded := position_lt headLt (Nat.le_refl _) indexLt
    have same : position slots.length head slots.length index = (index + head) % slots.length := by
      unfold position
      split
      · rw [Nat.mod_eq_sub_mod (by omega),Nat.mod_eq_of_lt (by omega)]
        omega
      · rw [Nat.mod_eq_of_lt (by omega)]
        omega
    simp only [window,getElem_map,getElem_range]
    rw [getD_eq_getElem _ _ bounded,getElem_rotate]
    simp [same]

end PioplatRelay.Ring
