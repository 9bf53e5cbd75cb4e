import PioplatRelay.SetIndexes
import Mathlib.Algebra.BigOperators.Group.Finset.Piecewise

/-!
# Maps of counters

A map of counters holds no counter that is zero: a missing key reads as zero, and
a counter that falls to zero is deleted.  The other parts add up a weight over the
entries of a map and count those with a property.
-/

namespace PioplatRelay

open Finmap Finset Function Option

variable {K : Type} [DecidableEq K]

def Counts (counters : Finmap fun _ : K => Int) (count : K → Nat) : Prop :=
  ∀ key, counters.lookup key = if count key = 0 then none else some (count key : Int)

namespace Counts

variable {counters : Finmap fun _ : K => Int} {count : K → Nat}

theorem empty : Counts (∅ : Finmap fun _ : K => Int) fun _ => 0 := by
  intro key
  exact lookup_empty key

section

variable (counts : Counts counters count)

include counts

theorem getD_eq (key : K) : (counters.lookup key).getD 0 = count key := by
  rw [counts key]
  split
  · rename_i zero
    rw [zero]
    rfl
  · rfl

theorem ne_zero (key : K) : counters.lookup key ≠ some 0 := by
  rw [counts key]
  split
  · exact fun same => by cases same
  · rename_i positive
    rw [ne_eq,some_inj]
    exact_mod_cast positive

theorem increment (key : K) : Counts (counters.insert key ((counters.lookup key).getD 0 + 1))
      (Function.update count key (count key + 1)) := by
  intro other
  rw [lookup_insert_ite,counts.getD_eq]
  by_cases same : other = key
  · subst same
    rw [if_pos rfl,update_self,if_neg (Nat.succ_ne_zero _)]
    rfl
  · rw [if_neg same,update_of_ne same]
    exact counts other

theorem eq {others : Finmap fun _ : K => Int}
    (otherCounts : Counts others count) : counters = others :=
  ext_lookup fun key => (counts key).trans (otherCounts key).symm

theorem decrement (key : K) :
    Counts (if (counters.lookup key).getD 0 - 1 ≤ 0 then counters.erase key
        else counters.insert key ((counters.lookup key).getD 0 - 1))
      (Function.update count key (count key - 1)) := by
  intro other
  rw [counts.getD_eq]
  by_cases same : other = key
  · subst same
    rw [update_self]
    by_cases last : (count other : Int) - 1 ≤ 0
    · rw [if_pos last,if_pos (by omega),lookup_erase]
    · rw [if_neg last,if_neg (by omega),lookup_insert]
      congr 1
      omega
  · rw [update_of_ne same,← counts other]
    split
    · exact lookup_erase_ne same
    · exact lookup_insert_of_ne _ same

end

end Counts

/-! ## Totals -/

variable {V : Type} (weight : V → Nat)

def total (map : Finmap fun _ : K => V) : Nat := ∑ key ∈ map.keys, (map.lookup key).elim 0 weight

theorem total_eq_sum {map : Finmap fun _ : K => V} {keys : Finset K} (all : map.keys ⊆ keys) :
    total weight map = ∑ key ∈ keys, (map.lookup key).elim 0 weight := by
  apply sum_subset all
  intro key _ absent
  rw [mem_keys,← lookup_eq_none] at absent
  rw [absent]
  rfl

theorem total_erase (map : Finmap fun _ : K => V) (key : K) :
    total weight map = total weight (map.erase key) + (map.lookup key).elim 0 weight := by
  have erasedKeys : (map.erase key).keys ⊆ insert key map.keys := by
    intro other member
    rw [mem_keys,Finmap.mem_erase] at member
    exact mem_insert_of_mem (mem_keys.mpr member.2)
  rw [total_eq_sum weight (subset_insert key map.keys),total_eq_sum weight erasedKeys,
    ← sum_erase_add _ _ (mem_insert_self key map.keys),
    ← sum_erase_add _ _ (mem_insert_self key map.keys),lookup_erase,elim_none,Nat.add_zero]
  congr 1
  apply sum_congr rfl
  intro other member
  rw [lookup_erase_ne (ne_of_mem_erase member)]

theorem total_insert (map : Finmap fun _ : K => V) (key : K) (value : V) :
    total weight (map.insert key value) = total weight (map.erase key) + weight value := by
  have sameRest : (map.insert key value).erase key = map.erase key := by
    apply ext_lookup
    intro other
    rw [lookup_erase_ite,lookup_erase_ite,lookup_insert_ite]
    split <;> rfl
  rw [total_erase weight _ key,sameRest,lookup_insert,elim_some]

theorem weight_le_total {map : Finmap fun _ : K => V} {key : K} {value : V}
    (found : map.lookup key = some value) : weight value ≤ total weight map := by
  rw [total_erase weight map key,found]
  exact Nat.le_add_left _ _

/-! ## Entries with a property -/

def entryCount (map : Finmap fun _ : K => V) (holds : V → Bool) : Nat :=
  (map.keys.filter fun key => (map.lookup key).any holds).card

section EntryCount

variable {map : Finmap fun _ : K => V} {holds other : V → Bool} {key : K} {value : V}

theorem entryCount_eq_total :
    entryCount map holds = total (fun value => if holds value then 1 else 0) map := by
  rw [entryCount,card_filter,total]
  refine sum_congr rfl fun key _ => ?_
  cases map.lookup key <;> rfl

theorem entryCount_congr
    (same : ∀ key value, map.lookup key = some value → holds value = other value) :
    entryCount map holds = entryCount map other := by
  rw [entryCount,entryCount]
  congr 1
  refine filter_congr fun key _ => ?_
  cases lookupEq : map.lookup key with
  | none => rfl
  | some value => simp [same key value lookupEq]

theorem card_keys_eq_entryCount_add (map : Finmap fun _ : K => V) (holds : V → Bool) :
    map.keys.card = entryCount map holds + entryCount map fun value => !holds value := by
  rw [entryCount,entryCount,← card_filter_add_card_filter_not (s := map.keys)
    fun key => (map.lookup key).any holds]
  congr 2
  refine filter_congr fun key member => ?_
  obtain ⟨value,lookupEq⟩ := isSome_iff_exists.mp
    (lookup_isSome.mpr (mem_keys.mp member))
  simp [lookupEq]

theorem card_keys_eq_entryCount (map : Finmap fun _ : K => V) :
    map.keys.card = entryCount map fun _ => true := by
  rw [card_keys_eq_entryCount_add map fun _ => true]
  simp [entryCount]

theorem entryCount_insert (absent : map.lookup key = none) :
    entryCount (map.insert key value) holds =
      entryCount map holds + if holds value then 1 else 0 := by
  rw [entryCount_eq_total,entryCount_eq_total,total_insert,total_erase _ map key,absent]
  rfl

theorem entryCount_erase (present : map.lookup key = some value) : entryCount map holds =
      entryCount (map.erase key) holds + if holds value then 1 else 0 := by
  rw [entryCount_eq_total,entryCount_eq_total,total_erase _ map key,present]
  rfl

theorem card_keys_insert (absent : map.lookup key = none) :
    (map.insert key value).keys.card = map.keys.card + 1 := by
  rw [card_keys_eq_entryCount,card_keys_eq_entryCount,entryCount_insert absent,if_pos rfl]

theorem card_keys_erase (present : map.lookup key = some value) :
    map.keys.card = (map.erase key).keys.card + 1 := by
  rw [card_keys_eq_entryCount,card_keys_eq_entryCount,entryCount_erase present,if_pos rfl]

end EntryCount

end PioplatRelay
