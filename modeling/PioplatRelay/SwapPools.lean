import Mathlib.Data.List.Nodup

/-!
# Pools with removal by swapping

A pool is a slice of items, each of which knows its place.  An item is removed by
moving the last item to its place.  An item outside the pool has the place -1.  Adding
an item that has a place fails, and so does removing from a place beyond the end.
-/

namespace PioplatRelay

open Function List Option

/-- The slice and the place each item believes to have. -/
structure SwapPool (Item : Type*) where
  slots : List Item
  index : Item → Int

namespace SwapPool

variable {Item : Type*} [DecidableEq Item]

variable (pool : SwapPool Item)

def add (item : Item) : Option (SwapPool Item) :=
  if 0 ≤ pool.index item then none
  else some
    { slots := pool.slots ++ [item]
      index := Function.update pool.index item pool.slots.length }

/-- The last item goes to the place of an item that leaves. -/
def swapOut (place : Nat) (item last : Item) : SwapPool Item where
  slots := (pool.slots.set place last).dropLast
  index := Function.update (Function.update pool.index last place) item (-1)

def remove (place : Nat) : Option (SwapPool Item) :=
  match pool.slots[place]?, pool.slots.getLast? with
  | some item, some last => some (pool.swapOut place item last)
  | _, _ => none

def discard (item : Item) : Option (SwapPool Item) :=
  if 0 ≤ pool.index item then pool.remove (pool.index item).toNat else some pool

def register (item : Item) : SwapPool Item :=
  { pool with index := Function.update pool.index item (-1) }

structure Indexed : Prop where
  index_eq_iff : ∀ item (place : Nat), pool.index item = place ↔ pool.slots[place]? = some item
  neg_one_le : ∀ item, -1 ≤ pool.index item

def empty : SwapPool Item := ⟨[], fun _ => -1⟩

omit [DecidableEq Item] in
theorem indexed_empty : (empty : SwapPool Item).Indexed where
  index_eq_iff item place := by simp [empty]
  neg_one_le item := Int.le_refl (-1)

namespace Indexed

variable {pool : SwapPool Item} {item : Item}

omit [DecidableEq Item] in
theorem mem_iff (indexed : pool.Indexed) : item ∈ pool.slots ↔ 0 ≤ pool.index item := by
  rw [mem_iff_getElem?]
  constructor
  · rintro ⟨place,found⟩
    rw [(indexed.index_eq_iff item place).mpr found]
    exact Int.natCast_nonneg place
  · intro nonneg
    exact ⟨(pool.index item).toNat,(indexed.index_eq_iff _ _).mp (Int.toNat_of_nonneg nonneg).symm⟩

omit [DecidableEq Item] in
theorem nodup (indexed : pool.Indexed) : pool.slots.Nodup := by
  rw [nodup_iff_getElem?_ne_getElem?]
  intro first second before within same
  have found : pool.slots[second]? = some pool.slots[second] := getElem?_eq_getElem within
  have secondEq := (indexed.index_eq_iff _ _).mpr found
  have firstEq := (indexed.index_eq_iff _ _).mpr (same.trans found)
  omega

theorem add (indexed : pool.Indexed) (outside : item ∉ pool.slots) :
    ∃ after, pool.add item = some after ∧ after.Indexed ∧
      ∀ other, other ∈ after.slots ↔ other ∈ pool.slots ∨ other = item := by
  have noPlace : ¬ 0 ≤ pool.index item := mt indexed.mem_iff.mpr outside
  refine ⟨_,if_neg noPlace,⟨fun other place => ?_,fun other => ?_⟩,fun other => by simp⟩
  · simp only [update_apply,getElem?_append]
    by_cases same : other = item
    · subst same
      rw [if_pos rfl,Int.natCast_inj]
      split
      · case isTrue within =>
          refine iff_of_false (by omega) fun found => outside (mem_of_getElem? found)
      · case isFalse behind =>
          rw [getElem?_singleton]
          split
          · exact iff_of_true (by omega) rfl
          · exact iff_of_false (by omega) (by simp)
    · rw [if_neg same,indexed.index_eq_iff]
      split
      · rfl
      · case isFalse behind =>
          rw [getElem?_eq_none (by omega),getElem?_singleton]
          refine iff_of_false (by simp) ?_
          split
          · exact fun found => same (some.inj found).symm
          · simp
  · simp only [update_apply]
    split
    · omega
    · exact indexed.neg_one_le other

omit [DecidableEq Item] in
theorem getElem?_eq_some_iff (indexed : pool.Indexed) {place : Nat}
    (found : pool.slots[place]? = some item) (other : Nat) :
    pool.slots[other]? = some item ↔ other = place := by
  rw [← indexed.index_eq_iff,(indexed.index_eq_iff _ _).mpr found]
  omega

theorem getElem?_swapOut (pool : SwapPool Item) {place : Nat} (item last : Item)
    (within : place < pool.slots.length) (other : Nat) :
    (pool.swapOut place item last).slots[other]? =
      if other < pool.slots.length - 1 then
        if place = other then some last else pool.slots[other]?
      else none := by
  rw [swapOut,getElem?_dropLast,length_set,getElem?_set,if_pos within]

theorem index_swapOut (pool : SwapPool Item) (place : Nat) (item last other : Item) :
    (pool.swapOut place item last).index other =
      if other = item then -1 else if other = last then (place : Int) else pool.index other := by
  simp [swapOut,update_apply]

theorem swapOut (indexed : pool.Indexed) {place : Nat} {last : Item}
    (found : pool.slots[place]? = some item)
    (lastFound : pool.slots[pool.slots.length - 1]? = some last) :
    (pool.swapOut place item last).Indexed where
  index_eq_iff other j := by
    have within : place < pool.slots.length := (List.getElem?_eq_some_iff.mp found).1
    rw [index_swapOut,getElem?_swapOut pool item last within]
    have itemPlace := indexed.getElem?_eq_some_iff found
    have lastPlace := indexed.getElem?_eq_some_iff lastFound
    by_cases isItem : other = item
    · -- the item is gone: its old place is cut off or holds another item
      subst isItem
      rw [if_pos rfl]
      refine iff_of_false (by omega) fun stays => ?_
      split at stays
      · split at stays
        · have := (itemPlace _).mp (some.inj stays ▸ lastFound)
          omega
        · case isFalse differ => exact differ ((itemPlace j).mp stays).symm
      · cases stays
    rw [if_neg isItem]
    by_cases isLast : other = last
    · subst isLast
      have notEnd : place ≠ pool.slots.length - 1 := fun same =>
        isItem (some.inj (lastFound.symm.trans (same ▸ found)))
      rw [if_pos rfl]
      split
      · split
        · exact iff_of_true (by omega) rfl
        · rw [lastPlace]
          exact iff_of_false (by omega) (by omega)
      · exact iff_of_false (by omega) (by simp)
    · -- every other item stays where it is
      rw [if_neg isLast,indexed.index_eq_iff]
      split
      · split
        · case isTrue same =>
            refine iff_of_false (fun there => ?_) fun isLast' => ?_
            · exact isItem (some.inj (there.symm.trans (same ▸ found)))
            · exact isLast (some.inj isLast').symm
        · rfl
      · case isFalse behind =>
          refine iff_of_false (fun there => ?_) (by simp)
          have bound := (List.getElem?_eq_some_iff.mp there).1
          have atEnd : j = pool.slots.length - 1 := by omega
          exact isLast (some.inj (there.symm.trans (atEnd ▸ lastFound)))
  neg_one_le other := by
    rw [index_swapOut]
    have := indexed.neg_one_le other
    split
    · omega
    · split <;> omega

theorem remove (indexed : pool.Indexed) {place : Nat} (found : pool.slots[place]? = some item) :
    ∃ after, pool.remove place = some after ∧ after.Indexed ∧
      ∀ other, other ∈ after.slots ↔ other ∈ pool.slots ∧ other ≠ item := by
  have within : place < pool.slots.length := (List.getElem?_eq_some_iff.mp found).1
  obtain ⟨last,lastFound⟩ : ∃ last, pool.slots[pool.slots.length - 1]? = some last :=
    ⟨_,getElem?_eq_getElem (by omega)⟩
  have swapped := indexed.swapOut found lastFound
  refine ⟨_,by rw [SwapPool.remove,found,getLast?_eq_getElem?,lastFound],swapped,
    fun other => ?_⟩
  rw [swapped.mem_iff,indexed.mem_iff,index_swapOut]
  by_cases isItem : other = item
  · simp [isItem]
  · rw [if_neg isItem]
    by_cases isLast : other = last
    · rw [if_pos isLast,isLast,(indexed.index_eq_iff _ _).mpr lastFound]
      exact iff_of_true (by omega) ⟨by omega,isLast ▸ isItem⟩
    · simp [isLast,isItem]

theorem discard (indexed : pool.Indexed) (item : Item) :
    ∃ after, pool.discard item = some after ∧ after.Indexed ∧
      ∀ other, other ∈ after.slots ↔ other ∈ pool.slots ∧ other ≠ item := by
  by_cases inside : 0 ≤ pool.index item
  · rw [SwapPool.discard,if_pos inside]
    exact indexed.remove ((indexed.index_eq_iff _ _).mp (Int.toNat_of_nonneg inside).symm)
  · refine ⟨pool,if_neg inside,indexed,fun other => ⟨fun member => ⟨member,?_⟩,And.left⟩⟩
    rintro rfl
    exact inside (indexed.mem_iff.mp member)

theorem register (indexed : pool.Indexed) (outside : item ∉ pool.slots) :
    (pool.register item).Indexed where
  index_eq_iff other place := by
    simp only [SwapPool.register,update_apply]
    split
    · case isTrue same =>
        subst same
        refine iff_of_false (by omega) fun found => outside (mem_of_getElem? found)
    · exact indexed.index_eq_iff other place
  neg_one_le other := by
    simp only [SwapPool.register,update_apply]
    split
    · omega
    · exact indexed.neg_one_le other

end Indexed

end SwapPool
end PioplatRelay
