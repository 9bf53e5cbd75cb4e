import Mathlib.Data.Finmap

/-!
# Maps of sets

A map whose values are sets indexes a relation by its first component.  A
missing key reads as the empty set, but a key may also be present with an empty
set: `lookup` is for keys, and `slots` for the relation.
-/

namespace PioplatRelay

open List Finmap

section Lookups

variable {K W : Type*} [DecidableEq K]

theorem lookup_insert_ite (map : Finmap fun _ : K => W) (key other : K) (value : W) :
    (map.insert key value).lookup other = if other = key then some value else map.lookup other := by
  split
  · rename_i same
    rw [same,lookup_insert]
  · rename_i different
    exact lookup_insert_of_ne map different

theorem forall_lookup_insert {map : Finmap fun _ : K => W} {key : K} {value : W}
    {Good : K → W → Prop} (here : Good key value)
    (elsewhere : ∀ other found, map.lookup other = some found → Good other found) :
    ∀ other found, (map.insert key value).lookup other = some found → Good other found := by
  intro other found isFound
  rw [lookup_insert_ite] at isFound
  split at isFound
  · rename_i same
    cases isFound
    rwa [same]
  · exact elsewhere other found isFound

theorem forall_mem_lookup_getD {map : Finmap fun _ : K => List W} {Good : K → W → Prop}
    (each : ∀ key values, map.lookup key = some values → ∀ value ∈ values, Good key value)
    (key : K) : ∀ value ∈ (map.lookup key).getD [], Good key value := by
  cases found : map.lookup key with
  | none => exact forall_mem_nil _
  | some values => exact each key values found

theorem lookup_erase_ite (map : Finmap fun _ : K => W) (key other : K) :
    (map.erase key).lookup other = if other = key then none else map.lookup other := by
  split
  · rename_i same
    rw [same,lookup_erase]
  · rename_i different
    exact lookup_erase_ne different

theorem lookup_foldl_insert_ite (keys : List K) (value : K → W) (map : Finmap fun _ : K => W)
    (key : K) : (keys.foldl (fun map key => map.insert key (value key)) map).lookup key =
      if key ∈ keys then some (value key) else map.lookup key := by
  induction keys generalizing map with
  | nil => rfl
  | cons first keys ih =>
    rw [foldl_cons,ih,lookup_insert_ite]
    by_cases later : key ∈ keys
    · rw [if_pos later,if_pos (mem_cons_of_mem first later)]
    · rw [if_neg later]
      by_cases now : key = first
      · rw [if_pos now,if_pos (now ▸ mem_cons_self),now]
      · rw [if_neg now,if_neg]
        intro member
        rcases mem_cons.mp member with same | inside
        · exact now same
        · exact later inside

theorem lookup_foldl_erase_ite {Item : Type*} (items : List Item) (keyOf : Item → K)
    (map : Finmap fun _ : K => W) (key : K) :
    (items.foldl (fun map item => map.erase (keyOf item)) map).lookup key =
      if ∃ item ∈ items, keyOf item = key then none else map.lookup key := by
  induction items generalizing map with
  | nil => simp
  | cons first items ih =>
    rw [foldl_cons,ih,lookup_erase_ite]
    by_cases later : ∃ item ∈ items, keyOf item = key
    · rw [if_pos later,if_pos]
      obtain ⟨item,member,same⟩ := later
      exact ⟨item,mem_cons_of_mem first member,same⟩
    · rw [if_neg later]
      by_cases now : key = keyOf first
      · rw [if_pos now,if_pos ⟨first,mem_cons_self,now.symm⟩]
      · rw [if_neg now,if_neg]
        rintro ⟨item,member,same⟩
        rcases mem_cons.mp member with rfl | inside
        · exact now same.symm
        · exact later ⟨item,inside,same⟩

theorem erase_of_lookup_eq_none {map : Finmap fun _ : K => W} {key : K}
    (absent : map.lookup key = none) : map.erase key = map := by
  apply ext_lookup
  intro other
  rw [lookup_erase_ite]
  split
  · rename_i same
    rw [same,absent]
  · rfl

end Lookups

abbrev SetIndex (K V : Type) := Finmap fun _ : K => Finset V

namespace SetIndex

variable {K V : Type} [DecidableEq K] (index : SetIndex K V)

def slots (key : K) : Finset V := (index.lookup key).getD ∅

@[simp]
theorem slots_empty (key : K) : slots (∅ : SetIndex K V) key = ∅ := by
  simp [slots]

theorem slots_of_lookup {index : SetIndex K V} {key : K} {values : Finset V}
    (found : index.lookup key = some values) : index.slots key = values := by
  simp [slots,found]

theorem slots_of_notMem {index : SetIndex K V} {key : K} (absent : key ∉ index) :
    index.slots key = ∅ := by
  simp [slots,lookup_eq_none.mpr absent]

@[simp]
theorem slots_insert (key other : K) (values : Finset V) :
    slots (index.insert key values) other = if other = key then values else index.slots other := by
  unfold slots
  rw [lookup_insert_ite]
  split <;> rfl

@[simp]
theorem slots_erase (key other : K) :
    slots (index.erase key) other = if other = key then ∅ else index.slots other := by
  unfold slots
  rw [lookup_erase_ite]
  split <;> rfl

variable [DecidableEq V]

/-- Add a value under a key, with a new set if there is none. -/
def add (key : K) (value : V) : SetIndex K V := index.insert key (insert value (index.slots key))

/-- Delete a value under a key; the key stays. -/
def discard (key : K) (value : V) : SetIndex K V :=
  match index.lookup key with
  | none => index
  | some values => index.insert key (values.erase value)

def prune (key : K) : SetIndex K V :=
  if index.slots key = ∅ then index.erase key else index

variable (keys : List K) (value : V)

def addAll : SetIndex K V := keys.foldl (fun index key => index.add key value) index

/-- Delete a value under each of some keys, and the keys that become empty. -/
def sweep : SetIndex K V := keys.foldl (fun index key => (index.discard key value).prune key) index

@[simp]
theorem lookup_add (key other : K) (value : V) : (index.add key value).lookup other =
      if other = key then some (insert value (index.slots key)) else index.lookup other :=
  lookup_insert_ite index key other _

@[simp]
theorem lookup_discard (key other : K) (value : V) : (index.discard key value).lookup other =
      if other = key then (index.lookup key).map (·.erase value) else index.lookup other := by
  unfold discard
  cases found : index.lookup key with
  | none =>
    dsimp only
    split
    · rename_i same
      rw [same,found]
      rfl
    · rfl
  | some values =>
    dsimp only
    rw [lookup_insert_ite]
    rfl

@[simp]
theorem lookup_prune (key other : K) : (index.prune key).lookup other =
      if other = key ∧ index.slots key = ∅ then none else index.lookup other := by
  unfold prune
  by_cases empty : index.slots key = ∅
  · rw [if_pos empty,lookup_erase_ite]
    simp [empty]
  · rw [if_neg empty]
    simp [empty]

@[simp]
theorem slots_discard_self (key : K) (value : V) :
    (index.discard key value).slots key = (index.slots key).erase value := by
  unfold slots
  rw [lookup_discard,if_pos rfl]
  cases index.lookup key with
  | none => rfl
  | some values => rfl

theorem slots_discard_of_ne {key other : K} (different : other ≠ key) (value : V) :
    (index.discard key value).slots other = index.slots other := by
  unfold slots
  rw [lookup_discard,if_neg different]

@[simp]
theorem slots_prune (key other : K) : (index.prune key).slots other = index.slots other := by
  unfold prune
  split
  · rename_i empty
    rw [slots_erase]
    split
    · rename_i same
      rw [same,empty]
    · rfl
  · rfl

/-! ## The relation -/

omit [DecidableEq V] in
@[simp]
theorem mem_slots_erase (key other : K) (value : V) :
    value ∈ slots (index.erase key) other ↔ other ≠ key ∧ value ∈ index.slots other := by
  rw [slots_erase]
  split <;> simp_all

@[simp]
theorem mem_slots_add (key other : K) (value entry : V) :
    entry ∈ (index.add key value).slots other ↔
      (other = key ∧ entry = value) ∨ entry ∈ index.slots other := by
  rw [add,slots_insert]
  split <;> simp_all

@[simp]
theorem mem_slots_addAll (other : K) (entry : V) :
    entry ∈ (index.addAll keys value).slots other ↔
      (other ∈ keys ∧ entry = value) ∨ entry ∈ index.slots other := by
  induction keys generalizing index with
  | nil => simp [addAll]
  | cons key keys ih =>
    change entry ∈ ((index.add key value).addAll keys value).slots other ↔ _
    rw [ih,mem_slots_add,mem_cons,or_and_right,← or_assoc]
    apply or_congr_left
    exact or_comm

@[simp]
theorem mem_slots_discard (key other : K) (value entry : V) :
    entry ∈ (index.discard key value).slots other ↔
      ¬ (other = key ∧ entry = value) ∧ entry ∈ index.slots other := by
  by_cases same : other = key
  · rw [same,slots_discard_self,Finset.mem_erase]
    simp
  · rw [slots_discard_of_ne index same]
    simp [same]

@[simp]
theorem mem_slots_sweep (other : K) (entry : V) :
    entry ∈ (index.sweep keys value).slots other ↔
      ¬ (other ∈ keys ∧ entry = value) ∧ entry ∈ index.slots other := by
  induction keys generalizing index with
  | nil => simp [sweep]
  | cons key keys ih =>
    change entry ∈ (((index.discard key value).prune key).sweep keys value).slots other ↔ _
    rw [ih,slots_prune,mem_slots_discard,mem_cons,or_and_right,not_or,← and_assoc]
    apply and_congr_left'
    exact and_comm

theorem mem_slots_sweep_all (keys : List K) (all : ∀ key ∈ index, key ∈ keys) (value : V)
    (other : K) (entry : V) :
    entry ∈ (index.sweep keys value).slots other ↔ entry ≠ value ∧ entry ∈ index.slots other := by
  rw [mem_slots_sweep]
  apply and_congr_left
  intro member
  have present : other ∈ index := by
    rw [← lookup_isSome]
    by_contra missing
    rw [slots,Option.not_isSome_iff_eq_none.mp missing] at member
    exact Finset.notMem_empty _ member
  simp [all other present]

end SetIndex

end PioplatRelay
