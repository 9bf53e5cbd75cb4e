import Mathlib.Data.List.Basic

/-!
# Slices that share their arrays

A slice of the language points into a backing array and may be shorter than
it.  Appending writes into the array while there is room, which other slices of
the array can see, and moves to a new array when there is none.  How much
larger the new array is than needed is a function `spare` here.
-/

namespace PioplatRelay

open List

/-- The backing arrays made so far, each with its whole capacity. -/
abbrev Arrays (Value : Type*) := List (List Value)

/-- A slice: its array, or none for the nil slice, and its length. -/
structure SharedSlice where
  array : Option Nat
  length : Nat
  deriving DecidableEq, Repr

namespace SharedSlice

variable {Value : Type*}

def nil : SharedSlice := ⟨none,0⟩

variable (arrays : Arrays Value) (slice : SharedSlice)

def backing : List Value :=
  match slice.array with
  | none => []
  | some array => arrays.getD array []

def contents : List Value := (slice.backing arrays).take slice.length

def emptied (slice : SharedSlice) : SharedSlice := { slice with length := 0 }

def write (arrays : Arrays Value) (array : Option Nat) (index : Nat) (value : Value) :
    Arrays Value :=
  match array with
  | none => arrays
  | some array => arrays.modify array fun elements => elements.set index value

def append [Inhabited Value] (spare : Nat → Nat) (arrays : Arrays Value) (slice : SharedSlice)
    (value : Value) : Arrays Value × SharedSlice :=
  if slice.length < (slice.backing arrays).length then
    (write arrays slice.array slice.length value, { slice with length := slice.length + 1 })
  else
    (arrays ++ [slice.contents arrays ++
        value :: List.replicate (spare (slice.length + 1)) default],
      ⟨some arrays.length,slice.length + 1⟩)

def appendAll [Inhabited Value] (spare : Nat → Nat) (arrays : Arrays Value)
    (slice : SharedSlice) (values : List Value) : Arrays Value × SharedSlice :=
  values.foldl (fun state value => state.2.append spare state.1 value) (arrays, slice)

structure Within : Prop where
  length_le : slice.length ≤ (slice.backing arrays).length
  array_lt : ∀ array, slice.array = some array → array < arrays.length

theorem within_nil (arrays : Arrays Value) : Within arrays nil :=
  ⟨Nat.zero_le _,fun _ equality => by cases equality⟩

variable {arrays : Arrays Value} {slice : SharedSlice}

theorem Within.emptied (within : Within arrays slice) : Within arrays slice.emptied :=
  ⟨Nat.zero_le _,within.array_lt⟩

theorem contents_emptied (arrays : Arrays Value) (slice : SharedSlice) :
    slice.emptied.contents arrays = [] :=
  take_zero

section

variable (within : Within arrays slice)

include within

theorem Within.contents_length : (slice.contents arrays).length = slice.length := by
  rw [contents,length_take]
  exact Nat.min_eq_left within.length_le

theorem Within.backing_append (array : List Value) :
    slice.backing (arrays ++ [array]) = slice.backing arrays := by
  unfold backing
  split
  · rfl
  · rename_i known equality
    have bound := within.array_lt known equality
    simp [getD_eq_getElem?_getD,getElem?_append_left bound]

theorem Within.contents_append_array (array : List Value) :
    slice.contents (arrays ++ [array]) = slice.contents arrays := by
  rw [contents,contents,within.backing_append]

theorem Within.append_array (array : List Value) : Within (arrays ++ [array]) slice := by
  refine ⟨?_,?_⟩
  · rw [within.backing_append]
    exact within.length_le
  · intro known equality
    have bound := within.array_lt known equality
    simp only [length_append,length_singleton]
    omega

end

/-! ## Writes -/

@[simp]
theorem length_write (arrays : Arrays Value) (array : Option Nat) (index : Nat) (value : Value) :
    (write arrays array index value).length = arrays.length := by
  unfold write
  split <;> simp

theorem backing_write_self (arrays : Arrays Value) (slice : SharedSlice) (index : Nat)
    (value : Value) : slice.backing (write arrays slice.array index value) =
      (slice.backing arrays).set index value := by
  obtain ⟨array,length⟩ := slice
  cases array with
  | none => rfl
  | some array =>
    simp only [backing,write,getD_eq_getElem?_getD,getElem?_modify_eq]
    cases arrays[array]? with
    | none => rfl
    | some elements => rfl

theorem write_present {index : Nat} {value : Value}
    (present : (slice.backing arrays)[index]? = some value) :
    write arrays slice.array index value = arrays := by
  obtain ⟨array,length⟩ := slice
  cases array with
  | none => rfl
  | some array =>
    refine ext_getElem? fun position => ?_
    simp only [write,getElem?_modify]
    split
    · rename_i same
      subst same
      simp only [backing,getD_eq_getElem?_getD] at present
      cases found : arrays[array]? with
      | none => rfl
      | some elements =>
        rw [found] at present
        obtain ⟨inside,equals⟩ := List.getElem?_eq_some_iff.mp present
        change some (elements.set index value) = some elements
        rw [← equals]
        exact congrArg some (set_getElem_self inside)
    · simp

variable [Inhabited Value] (spare : Nat → Nat)

/-- Appending the value that stands behind the slice changes no array. -/
theorem append_present {value : Value}
    (present : (slice.backing arrays)[slice.length]? = some value) :
    slice.append spare arrays value = (arrays, { slice with length := slice.length + 1 }) := by
  have room : slice.length < (slice.backing arrays).length :=
    (List.getElem?_eq_some_iff.mp present).1
  rw [append,if_pos room,write_present present]

theorem appendAll_present {values : List Value}
    (present : values <+: (slice.backing arrays).drop slice.length) :
    slice.appendAll spare arrays values =
      (arrays, { slice with length := slice.length + values.length }) := by
  induction values generalizing slice with
  | nil => rfl
  | cons value values ih =>
    obtain ⟨rest,restEq⟩ := present
    have first : (slice.backing arrays)[slice.length]? = some value := by
      rw [← head?_drop,← restEq]
      rfl
    have others : values <+: (slice.backing arrays).drop (slice.length + 1) := by
      refine ⟨rest,?_⟩
      rw [← tail_drop,← restEq]
      rfl
    have step : appendAll spare arrays { slice with length := slice.length + 1 } values =
        (arrays, { slice with length := slice.length + 1 + values.length }) := ih others
    rw [appendAll] at step
    rw [appendAll,foldl_cons,append_present spare first,step,length_cons,
      Nat.add_assoc,Nat.add_comm 1]

/-! ## Appends -/

section

variable (within : Within arrays slice)

include within

theorem Within.append (value : Value) :
    Within (slice.append spare arrays value).1 (slice.append spare arrays value).2 := by
  unfold SharedSlice.append
  split
  · rename_i room
    refine ⟨?_,?_⟩
    · change slice.length + 1 ≤ (slice.backing (write arrays slice.array slice.length value)).length
      rw [backing_write_self,length_set]
      exact room
    · intro array equality
      rw [length_write]
      exact within.array_lt array equality
  · refine ⟨?_,?_⟩
    · simp [backing,within.contents_length]
    · rintro array ⟨⟩
      simp

theorem Within.contents_append (value : Value) :
    (slice.append spare arrays value).2.contents (slice.append spare arrays value).1 =
      slice.contents arrays ++ [value] := by
  unfold SharedSlice.append
  split
  · rename_i room
    change (slice.backing (write arrays slice.array slice.length value)).take (slice.length + 1) =
      slice.contents arrays ++ [value]
    rw [backing_write_self,take_add_one,getElem?_set_self room,take_set_of_le (Nat.le_refl _)]
    rfl
  · have lengthEq := within.contents_length
    change ((arrays ++ [_]).getD arrays.length []).take (slice.length + 1) = _
    simp [take_append,lengthEq,take_of_length_le]

/-- A slice appended to keeps its own contents, and what was appended stands
behind it if its array has room. -/
theorem Within.append_placed (value : Value) : Within (slice.append spare arrays value).1 slice ∧
      slice.contents (slice.append spare arrays value).1 = slice.contents arrays ∧
      (slice.length < (slice.backing (slice.append spare arrays value).1).length →
        (slice.backing (slice.append spare arrays value).1)[slice.length]? = some value) := by
  unfold SharedSlice.append
  split
  · rename_i room
    dsimp only
    refine ⟨⟨?_,?_⟩,?_,?_⟩
    · rw [backing_write_self,length_set]
      exact within.length_le
    · intro array equality
      rw [length_write]
      exact within.array_lt array equality
    · rw [contents,backing_write_self,take_set_of_le (Nat.le_refl _)]
      rfl
    · intro _
      rw [backing_write_self,getElem?_set_self room]
  · rename_i full
    refine ⟨within.append_array _,within.contents_append_array _,?_⟩
    intro room
    rw [within.backing_append] at room
    exact absurd room full

theorem Within.appendAll (values : List Value) :
    Within (slice.appendAll spare arrays values).1 (slice.appendAll spare arrays values).2 ∧
      (slice.appendAll spare arrays values).2.contents
          (slice.appendAll spare arrays values).1 = slice.contents arrays ++ values := by
  induction values generalizing arrays slice with
  | nil => exact ⟨within,(append_nil _).symm⟩
  | cons value values ih =>
    obtain ⟨ends,contentsEq⟩ := ih (within.append spare value)
    refine ⟨ends,?_⟩
    rw [within.contents_append,append_assoc] at contentsEq
    exact contentsEq

end

end SharedSlice

end PioplatRelay
