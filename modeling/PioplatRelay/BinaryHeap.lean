import Mathlib.Data.List.Perm.Basic
import Mathlib.Order.Lattice

/-!
# Binary heaps in a list

The operations of `container/heap`, with the elements ordered by a key: an element is
pushed at the end and sifted up, and the root is swapped to the end, the rest sifted
down and the end taken off.  What is popped has the least key.
-/

namespace PioplatRelay.BinaryHeap

variable {α K : Type*} [LinearOrder K]

def swap (items : List α) (i j : Nat) : List α :=
  match items[i]?, items[j]? with
  | some x, some y => (items.set i y).set j x
  | _, _ => items

variable (key : α → K) (items : List α)

def less (i j : Nat) : Bool :=
  match items[i]?, items[j]? with
  | some x, some y => decide (key x < key y)
  | _, _ => false

def parent (child : Nat) : Nat := (child - 1) / 2

/-- `up(h, j)`; the first argument bounds the rounds. -/
def up (key : α → K) : Nat → List α → Nat → List α
  | 0, items, _ => items
  | rounds + 1, items, j =>
    if parent j = j ∨ less key items j (parent j) = false then items
    else up key rounds (swap items (parent j) j) (parent j)

def smallerChild (i n : Nat) : Nat :=
  if 2 * i + 2 < n ∧ less key items (2 * i + 2) (2 * i + 1) = true then 2 * i + 2
  else 2 * i + 1

/-- `down(h, i, n)`; the first argument bounds the rounds. -/
def down (key : α → K) : Nat → List α → Nat → Nat → List α
  | 0, items, _, _ => items
  | rounds + 1, items, i, n =>
    if n ≤ 2 * i + 1 then items
    else if less key items (smallerChild key items i n) i = false then items
    else down key rounds (swap items i (smallerChild key items i n))
      (smallerChild key items i n) n

def push (item : α) : List α := up key items.length (items ++ [item]) items.length

/-- `heap.Pop`, with `none` where it panics. -/
def pop : Option (α × List α) :=
  let n := items.length - 1
  let sifted := down key n (swap items 0 n) 0 n
  sifted.getLast?.map fun item => (item, sifted.dropLast)

/-! ## Swapping -/

variable {i j n hole rounds : Nat}

theorem swap_eq {items : List α} (iLt : i < items.length) (jLt : j < items.length) :
    swap items i j = (items.set i items[j]).set j items[i] := by
  simp [swap,iLt,jLt]

theorem swap_perm (items : List α) (i j : Nat) : (swap items i j).Perm items := by
  unfold swap
  split
  · rename_i x y xEq yEq
    obtain ⟨iLt,rfl⟩ := List.getElem?_eq_some_iff.mp xEq
    obtain ⟨jLt,rfl⟩ := List.getElem?_eq_some_iff.mp yEq
    exact List.set_set_perm iLt jLt
  · rfl

theorem swap_length (items : List α) (i j : Nat) : (swap items i j).length = items.length :=
  (swap_perm items i j).length_eq

theorem getElem?_swap {items : List α} (iLt : i < items.length) (jLt : j < items.length) (k : Nat) :
    (swap items i j)[k]? = items[if k = i then j else if k = j then i else k]? := by
  rw [swap_eq iLt jLt,List.getElem?_set,List.getElem?_set,List.length_set]
  grind

/-! ## The order between positions -/

variable {key : α → K} {items : List α}

/-- The key at the first position, if there is one, is at most the second. -/
def Below (key : α → K) (items : List α) (i j : Nat) : Prop :=
  ∀ x y, items[i]? = some x → items[j]? = some y → key x ≤ key y

theorem Below.trans {k : Nat} (jLt : j < items.length) (first : Below key items i j)
    (second : Below key items j k) : Below key items i k := by
  intro x z xEq zEq
  have yEq := List.getElem?_eq_getElem jLt
  exact (first x _ xEq yEq).trans (second _ z yEq zEq)

theorem below_of_less (isLess : less key items i j = true) : Below key items i j := by
  intro x y xEq yEq
  simp only [less,xEq,yEq,decide_eq_true_eq] at isLess
  exact isLess.le

theorem below_of_not_less (notLess : less key items i j = false) : Below key items j i := by
  intro y x yEq xEq
  simp only [less,xEq,yEq,decide_eq_false_iff_not,not_lt] at notLess
  exact notLess

theorem below_swap_iff (iLt : i < items.length) (jLt : j < items.length) (p c : Nat) :
    Below key (swap items i j) p c ↔
      Below key items (if p = i then j else if p = j then i else p)
        (if c = i then j else if c = j then i else c) := by
  unfold Below
  rw [getElem?_swap iLt jLt,getElem?_swap iLt jLt]

def IsHeap (key : α → K) (items : List α) (n : Nat) : Prop :=
  ∀ c, 0 < c → c < n → Below key items (parent c) c

theorem parent_lt {c : Nat} (positive : 0 < c) : parent c < c := by
  unfold parent
  omega

theorem IsHeap.root_below (heap : IsHeap key items n) (nLe : n ≤ items.length) (c : Nat)
    (cLt : c < n) : Below key items 0 c := by
  induction c using Nat.strongRecOn with
  | ind c ih =>
    rcases Nat.eq_zero_or_pos c with rfl | positive
    · intro x y xEq yEq
      rw [xEq] at yEq
      cases yEq
      exact le_refl _
    · have smaller := parent_lt positive
      exact (ih (parent c) smaller (by omega)).trans (by omega) (heap c positive cLt)

/-! ## Sifting up -/

/-- Heap order except between one position and its parent. -/
structure AlmostUp (key : α → K) (items : List α) (n hole : Nat) : Prop where
  others : ∀ c, 0 < c → c < n → c ≠ hole → Below key items (parent c) c
  across : ∀ c, 0 < c → c < n → parent c = hole → 0 < hole →
    Below key items (parent hole) c

theorem AlmostUp.isHeap (almost : AlmostUp key items n hole)
    (settled : 0 < hole → Below key items (parent hole) hole) : IsHeap key items n := by
  intro c positive cLt
  by_cases atHole : c = hole
  · subst atHole
    exact settled positive
  · exact almost.others c positive cLt atHole

theorem AlmostUp.swap (almost : AlmostUp key items n hole) (nLe : n ≤ items.length)
    (holeLt : hole < n) (positive : 0 < hole) (isLess : less key items hole (parent hole) = true) :
    AlmostUp key (swap items (parent hole) hole) n (parent hole) := by
  have smaller := parent_lt positive
  have lower := below_of_less isLess
  constructor
  · intro c cPos cLt notHole
    rw [below_swap_iff (by omega) (by omega)]
    by_cases atHole : c = hole
    · subst atHole
      simpa [notHole] using lower
    · have fromParent := almost.others c cPos cLt atHole
      rw [if_neg notHole,if_neg atHole]
      by_cases sibling : parent c = parent hole
      · rw [if_pos sibling]
        rw [sibling] at fromParent
        exact lower.trans (by omega) fromParent
      · rw [if_neg sibling]
        by_cases child : parent c = hole
        · rw [if_pos child]
          exact almost.across c cPos cLt child positive
        · rw [if_neg child]
          exact fromParent
  · intro c cPos cLt child parentPos
    have grand := parent_lt parentPos
    have above := almost.others (parent hole) parentPos (by omega) (by omega)
    have cParent := parent_lt cPos
    rw [below_swap_iff (by omega) (by omega),if_neg (by omega),if_neg (by omega),if_neg (by omega)]
    by_cases atHole : c = hole
    · rw [if_pos atHole]
      exact above
    · rw [if_neg atHole]
      have fromParent := almost.others c cPos cLt atHole
      rw [child] at fromParent
      exact above.trans (by omega) fromParent

theorem up_isHeap (almost : AlmostUp key items n hole) (nLe : n ≤ items.length) (holeLt : hole < n)
    (enough : hole ≤ rounds) : IsHeap key (up key rounds items hole) n := by
  induction rounds generalizing items hole with
  | zero =>
    apply almost.isHeap
    omega
  | succ rounds ih =>
    unfold up
    split
    · rename_i stops
      apply almost.isHeap
      intro positive
      have smaller := parent_lt positive
      rcases stops with atRoot | notLess
      · omega
      · exact below_of_not_less notLess
    · rename_i continues
      simp only [not_or,Bool.not_eq_false] at continues
      have positive : 0 < hole := by
        rcases Nat.eq_zero_or_pos hole with rfl | positive
        · exact absurd rfl continues.1
        · exact positive
      have smaller := parent_lt positive
      exact ih (almost.swap nLe holeLt positive continues.2)
        (by rw [swap_length]; exact nLe) (by omega) (by omega)

theorem up_perm (rounds : Nat) (items : List α) (hole : Nat) :
    (up key rounds items hole).Perm items := by
  induction rounds generalizing items hole with
  | zero => rfl
  | succ rounds ih =>
    unfold up
    split
    · rfl
    · exact (ih _ _).trans (swap_perm items _ _)

theorem push_perm (items : List α) (item : α) : (push key items item).Perm (item :: items) :=
  (up_perm _ _ _).trans (List.perm_append_singleton item items)

theorem push_isHeap (heap : IsHeap key items items.length) (item : α) :
    IsHeap key (push key items item) (push key items item).length := by
  have lengthEq : (push key items item).length = items.length + 1 :=
    (push_perm items item).length_eq
  rw [lengthEq]
  apply up_isHeap _ (by simp) (by omega) (Nat.le_refl _)
  constructor
  · intro c positive cLt notLast x y xEq yEq
    have smaller := parent_lt positive
    rw [List.getElem?_append_left (by omega)] at xEq yEq
    exact heap c positive (by omega) x y xEq yEq
  · intro c positive cLt child _
    have smaller := parent_lt positive
    omega

/-! ## Sifting down -/

/-- Heap order except between one position and its children. -/
structure AlmostDown (key : α → K) (items : List α) (n hole : Nat) : Prop where
  others : ∀ c, 0 < c → c < n → parent c ≠ hole → Below key items (parent c) c
  across : ∀ c, 0 < c → c < n → parent c = hole → 0 < hole →
    Below key items (parent hole) c

theorem parent_eq_iff {c : Nat} (positive : 0 < c) :
    parent c = i ↔ c = 2 * i + 1 ∨ c = 2 * i + 2 := by
  unfold parent
  omega

theorem smallerChild_spec (key : α → K) (items : List α) (hasChild : 2 * i + 1 < n) :
    smallerChild key items i n < n ∧ parent (smallerChild key items i n) = i ∧
      ∀ c, 0 < c → c < n → parent c = i → Below key items (smallerChild key items i n) c := by
  have self (k : Nat) : Below key items k k := by
    intro x y xEq yEq
    rw [xEq] at yEq
    cases yEq
    exact le_refl _
  unfold smallerChild
  split
  · rename_i second
    refine ⟨second.1,(parent_eq_iff (by omega)).mpr (Or.inr rfl),?_⟩
    intro c positive cLt child
    rcases (parent_eq_iff positive).mp child with rfl | rfl
    · exact below_of_less second.2
    · exact self _
  · rename_i notSecond
    refine ⟨hasChild,(parent_eq_iff (by omega)).mpr (Or.inl rfl),?_⟩
    intro c positive cLt child
    rcases (parent_eq_iff positive).mp child with rfl | rfl
    · exact self _
    · apply below_of_not_less
      simpa [cLt] using notSecond

section

variable (almost : AlmostDown key items n hole)

include almost

theorem AlmostDown.isHeap
    (settled : ∀ c, 0 < c → c < n → parent c = hole → Below key items hole c) :
    IsHeap key items n := by
  intro c positive cLt
  by_cases child : parent c = hole
  · rw [child]
    exact settled c positive cLt child
  · exact almost.others c positive cLt child

theorem AlmostDown.swap (nLe : n ≤ items.length)
    (positive : 0 < j) (jLt : j < n) (child : parent j = hole)
    (least : ∀ c, 0 < c → c < n → parent c = hole → Below key items j c)
    (isLess : less key items j hole = true) : AlmostDown key (swap items hole j) n j := by
  have smaller := parent_lt positive
  constructor
  · intro c cPos cLt notChild
    have cParent := parent_lt cPos
    rw [below_swap_iff (by omega) (by omega)]
    by_cases atJ : c = j
    · subst atJ
      rw [if_pos child,if_neg (by omega),if_pos rfl]
      exact below_of_less isLess
    · by_cases atHole : c = hole
      · subst atHole
        rw [if_neg (by omega),if_neg notChild,if_pos rfl]
        exact almost.across j positive jLt child cPos
      · rw [if_neg atHole,if_neg atJ,if_neg notChild]
        by_cases sibling : parent c = hole
        · rw [if_pos sibling]
          exact least c cPos cLt sibling
        · rw [if_neg sibling]
          exact almost.others c cPos cLt sibling
  · intro c cPos cLt grandchild _
    have cParent := parent_lt cPos
    rw [below_swap_iff (by omega) (by omega),child,if_pos rfl,if_neg (by omega),if_neg (by omega)]
    have fromParent := almost.others c cPos cLt (by omega)
    rwa [grandchild] at fromParent

theorem down_isHeap (nLe : n ≤ items.length)
    (enough : n ≤ hole + rounds) : IsHeap key (down key rounds items hole n) n := by
  induction rounds generalizing items hole with
  | zero =>
    apply almost.isHeap
    intro c positive cLt child
    have smaller := parent_lt positive
    omega
  | succ rounds ih =>
    unfold down
    split
    · apply almost.isHeap
      intro c positive cLt child
      rcases (parent_eq_iff positive).mp child with rfl | rfl <;> omega
    · rename_i hasChild
      obtain ⟨jLt,child,least⟩ := smallerChild_spec key items (Nat.lt_of_not_le hasChild)
      have positive : 0 < smallerChild key items hole n := by
        unfold smallerChild
        split <;> omega
      have smaller := parent_lt positive
      split
      · rename_i notLess
        apply almost.isHeap
        intro c cPos cLt cChild
        exact (below_of_not_less notLess).trans (by omega) (least c cPos cLt cChild)
      · rename_i isLess
        rw [Bool.not_eq_false] at isLess
        exact ih (almost.swap nLe positive jLt child least isLess)
          (by rw [swap_length]; exact nLe) (by omega)

end

theorem down_perm (rounds : Nat) (items : List α) (hole n : Nat) :
    (down key rounds items hole n).Perm items := by
  induction rounds generalizing items hole with
  | zero => rfl
  | succ rounds ih =>
    unfold down
    split
    · rfl
    · split
      · rfl
      · exact (ih _ _).trans (swap_perm items _ _)

theorem getElem?_down_of_le {k : Nat} (nLe : n ≤ items.length) (beyond : n ≤ k) :
    (down key rounds items hole n)[k]? = items[k]? := by
  induction rounds generalizing items hole with
  | zero => rfl
  | succ rounds ih =>
    unfold down
    split
    · rfl
    · rename_i hasChild
      split
      · rfl
      · have jLt := (smallerChild_spec key items (Nat.lt_of_not_le hasChild)).1
        rw [ih (by rw [swap_length]; exact nLe),getElem?_swap (by omega) (by omega),
          if_neg (by omega),if_neg (by omega)]

theorem pop_perm {item : α} {rest : List α} (popped : pop key items = some (item, rest)) :
    (item :: rest).Perm items := by
  set n := items.length - 1 with nEq
  set sifted := down key n (swap items 0 n) 0 n with siftedEq
  have siftedPerm : sifted.Perm items := (down_perm _ _ _ _).trans (swap_perm items 0 n)
  simp only [pop,← nEq,← siftedEq] at popped
  rcases Option.map_eq_some_iff.mp popped with ⟨last,lastEq,pairEq⟩
  obtain ⟨rfl,rfl⟩ := Prod.mk.inj pairEq
  rw [← List.dropLast_append_getLast? last lastEq] at siftedPerm
  exact (List.perm_append_singleton last _).symm.trans siftedPerm

theorem exists_pop (key : α → K) {items : List α} (nonempty : items ≠ []) :
    ∃ item rest, pop key items = some (item, rest) := by
  set n := items.length - 1 with nEq
  set sifted := down key n (swap items 0 n) 0 n with siftedEq
  have siftedPerm : sifted.Perm items := (down_perm _ _ _ _).trans (swap_perm items 0 n)
  have siftedNonempty : sifted ≠ [] := by
    intro isEmpty
    rw [isEmpty] at siftedPerm
    exact nonempty siftedPerm.nil_eq.symm
  simp only [pop,← nEq,← siftedEq,List.getLast?_eq_some_getLast siftedNonempty]
  exact ⟨_,_,rfl⟩

/-- With the last element in the place of the root only the root is out of order. -/
theorem IsHeap.swap_ends (heap : IsHeap key items items.length) (lengthEq : items.length = n + 1) :
    AlmostDown key (swap items 0 n) n 0 := by
  have swappedAt (k : Nat) :
      (swap items 0 n)[k]? = items[if k = 0 then n else if k = n then 0 else k]? :=
    getElem?_swap (by omega) (by omega) k
  constructor
  · intro c positive cLt notRoot x y xEq yEq
    have smaller := parent_lt positive
    rw [swappedAt,if_neg notRoot,if_neg (by omega)] at xEq
    rw [swappedAt,if_neg (by omega),if_neg (by omega)] at yEq
    exact heap c positive (by omega) x y xEq yEq
  · intro c _ _ _ absurdity
    omega

theorem IsHeap.dropLast (heap : IsHeap key items n) (lengthEq : items.length = n + 1) :
    IsHeap key items.dropLast items.dropLast.length := by
  intro c positive cLt x y xEq yEq
  rw [List.length_dropLast] at cLt
  have smaller := parent_lt positive
  rw [List.getElem?_dropLast,if_pos (by omega)] at xEq yEq
  exact heap c positive (by omega) x y xEq yEq

/-- Popping a heap yields an element of least key, and a heap of the others. -/
theorem pop_spec {root : α} {others : List α}
    (heap : IsHeap key (root :: others) (root :: others).length) :
    ∃ rest, pop key (root :: others) = some (root, rest) ∧ rest.Perm others ∧
      IsHeap key rest rest.length ∧ ∀ item ∈ rest, key root ≤ key item := by
  set items := root :: others with itemsEq
  set n := items.length - 1 with nEq
  have lengthEq : items.length = n + 1 := by simp [nEq,itemsEq]
  set sifted := down key n (swap items 0 n) 0 n with siftedEq
  have siftedLength : sifted.length = n + 1 := by
    rw [siftedEq,(down_perm _ _ _ _).length_eq,swap_length,lengthEq]
  have siftedHeap : IsHeap key sifted n := by
    apply down_isHeap (heap.swap_ends lengthEq)
    · rw [swap_length]
      omega
    · omega
  have last : sifted.getLast? = some root := by
    rw [List.getLast?_eq_getElem?,siftedLength,Nat.add_sub_cancel,siftedEq,
      getElem?_down_of_le (by rw [swap_length]; omega) (Nat.le_refl n),
      getElem?_swap (by omega) (by omega)]
    rcases Nat.eq_zero_or_pos n with zero | positive
    · simp [zero,itemsEq]
    · rw [if_neg (by omega),if_pos rfl]
      simp [itemsEq]
  have popped : pop key items = some (root, sifted.dropLast) := by simp [pop,← nEq,← siftedEq,last]
  have restPerm : sifted.dropLast.Perm others := (pop_perm popped).cons_inv
  refine ⟨sifted.dropLast,popped,restPerm,siftedHeap.dropLast siftedLength,?_⟩
  intro item member
  obtain ⟨k,kLt,itemAt⟩ := List.getElem_of_mem (restPerm.mem_iff.mp member)
  have below := heap.root_below (Nat.le_refl _) (k + 1) (by simpa [itemsEq] using kLt)
  exact below root item (by simp [itemsEq]) (by simp [itemsEq,kLt,itemAt])

end PioplatRelay.BinaryHeap
