import Mathlib.Data.Finset.Sort
import Mathlib.Order.Lattice.Nat

/-!
# Loops over the keys of a map

A loop over a map visits every key once, in an order that is up to the runtime.
Where every round reads and writes only what the state holds on one key, the
loop does to each visited key what its round does to that key alone.
-/

namespace PioplatRelay

open List

structure IterationOrder (K : Type) where
  order : Finset K → List K
  nodup (keys : Finset K) : (order keys).Nodup
  mem_iff (keys : Finset K) (key : K) : key ∈ order keys ↔ key ∈ keys

namespace IterationOrder

def increasing : IterationOrder Nat where
  order keys := (range (keys.sup id + 1)).filter (· ∈ keys)
  nodup _ := nodup_range.filter _
  mem_iff keys key := by
    have bounded (member : key ∈ keys) : key < keys.sup id + 1 :=
      Nat.lt_succ_of_le (Finset.le_sup member : id key ≤ keys.sup id)
    simpa using bounded

def sorted {K : Type} [LinearOrder K] : IterationOrder K where
  order keys := keys.sort (· ≤ ·)
  nodup keys := keys.sort_nodup (· ≤ ·)
  mem_iff keys _ := keys.mem_sort (· ≤ ·)

theorem order_empty {K : Type} (iteration : IterationOrder K) : iteration.order ∅ = [] :=
  eq_nil_iff_forall_not_mem.mpr fun key member => by
    simp [iteration.mem_iff] at member

theorem toFinset_order {K : Type} [DecidableEq K] (iteration : IterationOrder K)
    (keys : Finset K) : (iteration.order keys).toFinset = keys := by
  ext key
  rw [mem_toFinset,iteration.mem_iff]

theorem length_order {K : Type} [DecidableEq K] (iteration : IterationOrder K)
    (keys : Finset K) : (iteration.order keys).length = keys.card := by
  rw [← toFinset_card_of_nodup (iteration.nodup keys),iteration.toFinset_order]

def lastly {K : Type} [DecidableEq K] (iteration : IterationOrder K) (last : K) :
    IterationOrder K where
  order keys := iteration.order (keys.erase last) ++ if last ∈ keys then [last] else []
  nodup keys := by
    rw [nodup_append']
    refine ⟨iteration.nodup _,by split <;> simp,?_⟩
    intro key earlier atEnd
    rw [iteration.mem_iff,Finset.mem_erase] at earlier
    split at atEnd
    · exact earlier.1 (mem_singleton.mp atEnd)
    · cases atEnd
  mem_iff keys key := by
    rw [mem_append,iteration.mem_iff,Finset.mem_erase]
    by_cases same : key = last
    · subst same
      by_cases member : key ∈ keys <;> simp [member]
    · by_cases member : last ∈ keys <;> simp [member,same]

end IterationOrder

namespace Loop

variable {State Item Key Entry Kept Failure : Type} [DecidableEq Key]

omit [DecidableEq Key] in
theorem bind_eq_ok {first : Except Failure State} {next : State → Except Failure Entry}
    {result : Entry} (bindEq : first.bind next = .ok result) :
    ∃ middle, first = .ok middle ∧ next middle = .ok result := by
  cases first with
  | error failure => cases bindEq
  | ok middle => exact ⟨middle,rfl,bindEq⟩

variable {body : State → Item → Except Failure State} {items : List Item} {state : State}

theorem foldlM_progress (Holds : List Item → State → Prop)
    (round : ∀ done state item, item ∈ items → Holds done state →
      ∃ after, body state item = .ok after ∧ Holds (item :: done) after) (done : List Item)
    (holds : Holds done state) :
    ∃ last, items.foldlM body state = .ok last ∧ Holds (items.reverse ++ done) last := by
  induction items generalizing done state with
  | nil => exact ⟨state,rfl,holds⟩
  | cons item items ih =>
    obtain ⟨after,bodyEq,holdsAfter⟩ := round done state item mem_cons_self holds
    obtain ⟨last,loopEq,holdsLast⟩ := ih
      (fun done state item member => round done state item (mem_cons_of_mem _ member))
      (item :: done) holdsAfter
    refine ⟨last,?_,?_⟩
    · rw [foldlM_cons,bodyEq]
      exact loopEq
    · simpa using holdsLast

theorem foldlM_invariant (Holds : State → Prop)
    (round : ∀ state item, Holds state → ∃ after, body state item = .ok after ∧ Holds after)
    (items : List Item) (holds : Holds state) :
    ∃ last, items.foldlM body state = .ok last ∧ Holds last :=
  foldlM_progress (fun _ => Holds) (fun _ state item _ => round state item) [] holds

theorem foldlM_kept {body : State → Item → Option State} (Holds : State → Prop)
    (round : ∀ state item next, Holds state → body state item = some next → Holds next)
    {last : State} (holds : Holds state) (loopEq : items.foldlM body state = some last) :
    Holds last := by
  induction items generalizing state with
  | nil =>
    cases loopEq
    exact holds
  | cons item items ih =>
    rcases Option.bind_eq_some_iff.mp loopEq with ⟨next,first,rest⟩
    exact ih (round state item next holds first) rest

theorem foldlM_related (Related : State → State → Prop) (refl : ∀ state, Related state state)
    (trans : ∀ {first middle last}, Related first middle → Related middle last → Related first last)
    (round : ∀ state item after, body state item = .ok after → Related state after)
    {last : State} (loopEq : items.foldlM body state = .ok last) : Related state last := by
  induction items generalizing state with
  | nil =>
    cases loopEq
    exact refl _
  | cons item items ih =>
    rw [foldlM_cons] at loopEq
    obtain ⟨after,bodyEq,restEq⟩ := bind_eq_ok loopEq
    exact trans (round state item after bodyEq) (ih restEq)

theorem foldlM_frame (view : State → Kept)
    (round : ∀ state item after, body state item = .ok after → view after = view state)
    {last : State} (loopEq : items.foldlM body state = .ok last) : view last = view state :=
  foldlM_related (fun before after => view after = view before) (fun _ => rfl)
    (fun first second => second.trans first) round loopEq

theorem foldlM_pointwise (view : State → Key → Entry) (kept : State → Kept) (key : Item → Key)
    (Ready : Item → Entry → Prop) (Step : Item → Entry → Entry → Prop)
    (round : ∀ state item, Ready item (view state (key item)) →
      ∃ after entry, body state item = .ok after ∧ Step item (view state (key item)) entry ∧
        view after = Function.update (view state) (key item) entry ∧ kept after = kept state)
    (distinct : (items.map key).Nodup)
    (ready : ∀ item ∈ items, Ready item (view state (key item))) :
    ∃ last, items.foldlM body state = .ok last ∧
      (∀ item ∈ items, Step item (view state (key item)) (view last (key item))) ∧
      (∀ other ∉ items.map key, view last other = view state other) ∧ kept last = kept state := by
  induction items generalizing state with
  | nil => exact ⟨state,rfl,by simp,by simp,rfl⟩
  | cons item items ih =>
    obtain ⟨after,entry,bodyEq,step,viewEq,keptEq⟩ :=
      round state item (ready item mem_cons_self)
    rw [map_cons,nodup_cons] at distinct
    have unchanged : ∀ other ∈ items, view after (key other) = view state (key other) := by
      intro other member
      have different : key other ≠ key item := by
        intro same
        exact distinct.1 (same ▸ mem_map_of_mem member)
      rw [viewEq,Function.update_of_ne different]
    obtain ⟨last,loopEq,visited,others,lastKept⟩ := ih distinct.2
      (fun other member => by
        rw [unchanged other member]
        exact ready other (mem_cons_of_mem _ member))
    refine ⟨last,?_,?_,?_,lastKept.trans keptEq⟩
    · rw [foldlM_cons,bodyEq]
      exact loopEq
    · intro other member
      rcases mem_cons.mp member with rfl | later
      · rw [others _ distinct.1,viewEq,Function.update_self]
        exact step
      · rw [← unchanged other later]
        exact visited other later
    · intro other absent
      rw [map_cons,mem_cons,not_or] at absent
      rw [others other absent.2,viewEq,Function.update_of_ne absent.1]

end Loop

end PioplatRelay
