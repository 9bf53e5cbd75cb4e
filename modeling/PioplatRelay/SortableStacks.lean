import PioplatRelay.BinaryHeap
import PioplatRelay.StepRuns

/-!
# The block stack of priority queues

`sstack` keeps its elements in blocks of fixed size, which are never given back.
One block is active, and the stack moves to another one at its ends.  It behaves
as a list to whose end elements are pushed and from whose end they are popped.
-/

namespace PioplatRelay.Prque

open Function

def blockSize : Nat := 4096

/-- An element is known by the number of its `Push`. -/
abbrev Element (Item : Type) := Nat × Item

abbrev Blocks (Item : Type) := List (Vector (Option (Element Item)) blockSize)

/-- `sstack`, with what it has popped and the index that the callback was last
called with for each element. -/
structure Sstack (Item : Type) where
  setIndex : Bool
  size : Nat := 0
  capacity : Nat := blockSize
  offset : Nat := 0
  blocks : Blocks Item := [.replicate _ none]
  active : Nat := 0
  pushes : Nat := 0
  popped : List (Option (Element Item)) := []
  index : Nat → Option Int := fun _ => none

variable {Item : Type}

def newSstack (setIndex : Bool) : Sstack Item := { setIndex }

variable (blocks : Blocks Item) (b o : Nat)

/-- There is nothing outside of the blocks: an access panics. -/
def cell : Option (Option (Element Item)) :=
  blocks[b]?.bind fun block => block[o]?

def write (x : Option (Element Item)) : Option (Blocks Item) :=
  (cell blocks b o).map fun _ => blocks.modify b fun block => block.setIfInBounds o x

/-- The callback is given the value of an element, which must not be nil. -/
def call (setIndex : Bool) (x : Option (Element Item)) (i : Int) (index : Nat → Option Int) :
    Option (Nat → Option Int) :=
  if setIndex then x.map fun e => update index e.1 (some i) else some index

namespace Sstack

variable (s : Sstack Item)

def read (i : Nat) : Option (Option (Element Item)) :=
  cell s.blocks (i / blockSize) (i % blockSize)

/-- `s.active = s.blocks[s.size/blockSize]`. -/
def activate (offset : Nat) : Option (Sstack Item) :=
  s.blocks[s.size / blockSize]?.map fun _ => { s with active := s.size / blockSize, offset }

/-- The first lines of `Push` make room in the active block. -/
def expand : Option (Sstack Item) :=
  if s.size = s.capacity then
    some { s with
      active := s.blocks.length
      blocks := s.blocks ++ [.replicate _ none]
      capacity := s.capacity + blockSize
      offset := 0 }
  else if s.offset = blockSize then s.activate 0
  else some s

def push (item : Item) : Option (Sstack Item) := do
  let s ← s.expand
  let index ← call s.setIndex (some (s.pushes, item)) s.size s.index
  let blocks ← write s.blocks s.active s.offset (some (s.pushes, item))
  some { s with index, blocks, offset := s.offset + 1, size := s.size + 1, pushes := s.pushes + 1 }

/-- The first lines of `Pop`, on a stack that is not empty. -/
def retreat : Option (Sstack Item) :=
  if s.offset = 0 then { s with size := s.size - 1 }.activate (blockSize - 1)
  else some { s with size := s.size - 1, offset := s.offset - 1 }

def pop : Option (Sstack Item) := do
  let s ← s.retreat
  let res ← cell s.blocks s.active s.offset
  let blocks ← write s.blocks s.active s.offset none
  let index ← call s.setIndex res (-1) s.index
  some { s with index, blocks, popped := res :: s.popped }

def swap (i j : Nat) : Option (Sstack Item) := do
  let a ← s.read j
  let b ← s.read i
  let index ← call s.setIndex a i s.index
  let index ← call s.setIndex b j index
  let blocks ← write s.blocks (i / blockSize) (i % blockSize) a
  let blocks ← write blocks (j / blockSize) (j % blockSize) b
  some { s with index, blocks }

end Sstack

inductive Op (Item : Type)
  | push (item : Item)
  | pop
  | swap (i j : Nat)

def Sstack.step : Op Item → Sstack Item → Option (Sstack Item)
  | .push item, s => s.push item
  | .pop, s => s.pop
  | .swap i j, s => s.swap i j

/-- The stack as it is meant, with the elements that were popped. -/
structure Plain (Item : Type) where
  items : List (Element Item) := []
  popped : List (Element Item) := []
  pushes : Nat := 0

def Plain.step : Op Item → Plain Item → Option (Plain Item)
  | .push item, p => some ⟨p.items ++ [(p.pushes, item)],p.popped,p.pushes + 1⟩
  | .pop, p => p.items.getLast?.map fun e => ⟨p.items.dropLast,e :: p.popped,p.pushes⟩
  | .swap i j, p =>
    if i < p.items.length ∧ j < p.items.length then
      some { p with items := BinaryHeap.swap p.items i j }
    else none

/-- What the callback was last told about present, popped and later elements. -/
structure Told (index : Nat → Option Int) (p : Plain Item) : Prop where
  present : ∀ (i : Nat) e, p.items[i]? = some e → index e.1 = some (i : Int)
  gone : ∀ e ∈ p.popped, index e.1 = some (-1)
  later : ∀ n ≥ p.pushes, index n = none

structure Holds (s : Sstack Item) (p : Plain Item) : Prop where
  size : s.size = p.items.length
  read : ∀ i < s.size, s.read i = p.items[i]?.map some
  popped : s.popped = p.popped.map some
  told : s.setIndex = true → Told s.index p

variable {s : Sstack Item} {p : Plain Item} {e : Element Item} {i j : Nat}
  {index : Nat → Option Int}

/-! ## The callback -/

theorem call_some (setIndex : Bool) (i : Int) : call setIndex (some e) i index =
    some (if setIndex then update index e.1 (some i) else index) := by
  cases setIndex <;> rfl

namespace Told

variable (told : Told index p)

include told

theorem push (item : Item) : Told (update index p.pushes (some p.items.length))
    ⟨p.items ++ [(p.pushes, item)],p.popped,p.pushes + 1⟩ := by
  obtain ⟨present,gone,later⟩ := told
  constructor <;> grind [update]

theorem pop (last : p.items.getLast? = some e) :
    Told (update index e.1 (some (-1))) ⟨p.items.dropLast,e :: p.popped,p.pushes⟩ := by
  obtain ⟨present,gone,later⟩ := told
  have lastIndex := present (p.items.length - 1) e (by rwa [← List.getLast?_eq_getElem?])
  constructor <;> grind [update]

theorem swap {a b : Element Item} (iEq : p.items[i]? = some b) (jEq : p.items[j]? = some a) :
    Told (update (update index a.1 (some i)) b.1 (some j))
      { p with items := BinaryHeap.swap p.items i j } := by
  obtain ⟨present,gone,later⟩ := told
  have := present i b iEq
  have := present j a jEq
  constructor <;> grind [update,BinaryHeap.getElem?_swap]

end Told

/-! ## The operations -/

theorem write_spec {blocks : Blocks Item} (inside : i < blocks.length * blockSize)
    (x : Option (Element Item)) : ∃ after,
      write blocks (i / blockSize) (i % blockSize) x = some after ∧
        after.length = blocks.length ∧ ∀ j, cell after (j / blockSize) (j % blockSize) =
          if j = i then some x else cell blocks (j / blockSize) (j % blockSize) := by
  have blockLt := Nat.div_lt_of_lt_mul (Nat.mul_comm _ _ ▸ inside)
  have offsetLt := Nat.mod_lt i (show 0 < blockSize by decide)
  refine ⟨_,by simp [write,cell,blockLt,offsetLt]; rfl,List.length_modify ..,?_⟩
  intro j
  have same : j = i ↔ j / blockSize = i / blockSize ∧ j % blockSize = i % blockSize := by
    unfold blockSize
    omega
  rw [cell,List.getElem?_modify]
  grind [cell]

structure Placed (s : Sstack Item) (p : Plain Item) : Prop extends Holds s p where
  capacity : s.capacity = s.blocks.length * blockSize
  size_le : s.size ≤ s.capacity
  place : s.active * blockSize + s.offset = s.size
  offset_le : s.offset ≤ blockSize
  pushes : s.pushes = p.pushes

namespace Placed

theorem init (setIndex : Bool) : Placed (newSstack setIndex : Sstack Item) {} where
  size := rfl
  read := by simp [newSstack]
  popped := rfl
  told _ := ⟨by simp,by simp,fun _ _ => rfl⟩
  capacity := (Nat.one_mul _).symm
  size_le := Nat.zero_le _
  place := by simp [newSstack]
  offset_le := Nat.zero_le _
  pushes := rfl

variable (placed : Placed s p)

include placed

theorem block_lt (inside : i < s.capacity) : i / blockSize < s.blocks.length := by
  rw [placed.capacity,Nat.mul_comm] at inside
  exact Nat.div_lt_of_lt_mul inside

theorem expand : ∃ t, s.expand = some t ∧ Placed t p ∧ t.offset < blockSize ∧
    t.size < t.capacity := by
  have positive : 0 < blockSize := by decide
  have sizeLe := placed.size_le
  have place := placed.place
  unfold Sstack.expand
  split
  · rename_i atEnd
    refine ⟨_,rfl,{ placed with
      read i inside := ?_
      capacity := by simp [placed.capacity,Nat.succ_mul]
      size_le := Nat.le_add_right_of_le sizeLe
      place := by rw [Nat.add_zero,atEnd,placed.capacity]
      offset_le := Nat.zero_le _ },positive,by simp [atEnd,positive]⟩
    have blockLt := placed.block_lt (inside.trans_le sizeLe)
    rw [← placed.read i inside,Sstack.read,cell,List.getElem?_append_left blockLt]
    rfl
  · rename_i notEnd
    have sizeLt := Nat.lt_of_le_of_ne sizeLe notEnd
    split
    · rename_i atEdge
      rw [Sstack.activate,List.getElem?_eq_getElem (placed.block_lt sizeLt)]
      refine ⟨_,rfl,{ placed with place := ?_, offset_le := Nat.zero_le _ },positive,sizeLt⟩
      rw [atEdge,← Nat.succ_mul] at place
      dsimp only
      rw [← place,Nat.mul_div_cancel _ positive,Nat.add_zero]
    · rename_i inside
      exact ⟨s,rfl,placed,Nat.lt_of_le_of_ne placed.offset_le inside,sizeLt⟩

theorem push (item : Item) : ∃ t, s.push item = some t ∧
    Placed t ⟨p.items ++ [(p.pushes, item)],p.popped,p.pushes + 1⟩ := by
  obtain ⟨s,expanded,placed,inside,room⟩ := placed.expand
  obtain ⟨activeEq,offsetEq⟩ := (Nat.div_mod_unique (show 0 < blockSize by decide)).mpr
    ⟨Nat.add_comm _ _ ▸ Nat.mul_comm _ _ ▸ placed.place,inside⟩
  obtain ⟨blocks,written,lengthEq,cells⟩ :=
    write_spec (placed.capacity ▸ room) (some (s.pushes, item))
  rw [activeEq,offsetEq] at written
  have sizeEq := placed.size
  have pushesEq := placed.pushes
  rw [Sstack.push,expanded]
  simp only [Option.bind_eq_bind,Option.bind_some,call_some,written]
  refine ⟨_,rfl,{ placed with
    size := by simp [sizeEq]
    read i iLt := ?_
    told set := ?_
    capacity := by rw [lengthEq,placed.capacity]
    size_le := room
    place := by rw [← placed.place,Nat.add_assoc]
    offset_le := inside
    pushes := by rw [pushesEq] }⟩
  · have := placed.read i
    rw [Sstack.read,cells]
    grind [Sstack.read]
  · rw [if_pos set,sizeEq,pushesEq]
    exact (placed.told set).push item

theorem retreat (notEmpty : 0 < s.size) : s.retreat = some { s with
    size := s.size - 1
    active := (s.size - 1) / blockSize
    offset := (s.size - 1) % blockSize } := by
  have place := placed.place
  have offsetLe := placed.offset_le
  unfold Sstack.retreat
  split
  · have last : (s.size - 1) % blockSize = blockSize - 1 := by
      unfold blockSize at *
      omega
    rw [Sstack.activate,last,List.getElem?_eq_getElem
      (placed.block_lt (Nat.sub_one_lt_of_le notEmpty placed.size_le))]
    rfl
  · have before : s.active = (s.size - 1) / blockSize ∧
        s.offset - 1 = (s.size - 1) % blockSize := by
      unfold blockSize at *
      omega
    rw [← before.1,← before.2]

theorem pop (last : p.items.getLast? = some e) :
    ∃ t, s.pop = some t ∧ Placed t ⟨p.items.dropLast,e :: p.popped,p.pushes⟩ := by
  have sizeEq := placed.size
  have notEmpty : 0 < s.size := by grind
  have room := Nat.sub_one_lt_of_le notEmpty placed.size_le
  have found := placed.read (s.size - 1) (Nat.sub_one_lt_of_lt notEmpty)
  rw [sizeEq,← List.getLast?_eq_getElem?,last,Option.map_some,← sizeEq,Sstack.read] at found
  obtain ⟨blocks,written,lengthEq,cells⟩ := write_spec (placed.capacity ▸ room) none
  rw [Sstack.pop,placed.retreat notEmpty]
  simp only [Option.bind_eq_bind,Option.bind_some,found,written,call_some]
  refine ⟨_,rfl,{ placed with
    size := by simp [sizeEq]
    read i iLt := ?_
    popped := by rw [placed.popped,List.map_cons]
    told set := ?_
    capacity := by rw [lengthEq,placed.capacity]
    size_le := room.le
    place := Nat.div_add_mod' ..
    offset_le := (Nat.mod_lt _ (by decide)).le }⟩
  · have := placed.read i
    rw [Sstack.read,cells]
    grind [Sstack.read]
  · rw [if_pos set]
    exact (placed.told set).pop last

theorem swap (iLt : i < p.items.length) (jLt : j < p.items.length) : ∃ t, s.swap i j = some t ∧
    Placed t { p with items := BinaryHeap.swap p.items i j } := by
  have sizeEq := placed.size
  have sizeLe := placed.size_le
  have capacityEq := placed.capacity
  have iEq := List.getElem?_eq_getElem iLt
  have jEq := List.getElem?_eq_getElem jLt
  obtain ⟨first,written,lengthEq,cells⟩ :=
    write_spec (show i < s.blocks.length * blockSize by omega) (some p.items[j])
  obtain ⟨blocks,writtenToo,lengthEq',cells'⟩ :=
    write_spec (show j < first.length * blockSize by rw [lengthEq]; omega) (some p.items[i])
  rw [Sstack.swap,placed.read i (by omega),placed.read j (by omega),iEq,jEq]
  simp only [Option.bind_eq_bind,Option.bind_some,Option.map_some,call_some,written,writtenToo]
  refine ⟨_,rfl,{ placed with
    size := by rw [BinaryHeap.swap_length,sizeEq]
    read k kLt := ?_
    told set := ?_
    capacity := by rw [lengthEq',lengthEq,capacityEq] }⟩
  · have := placed.read k
    rw [Sstack.read,cells',cells,BinaryHeap.getElem?_swap iLt jLt]
    grind [Sstack.read]
  · rw [if_pos set,if_pos set]
    exact (placed.told set).swap iEq jEq

theorem step {q : Plain Item} (op : Op Item) (stepped : p.step op = some q) :
    ∃ t, s.step op = some t ∧ Placed t q := by
  cases op with
  | push item =>
    cases stepped
    exact placed.push item
  | pop =>
    obtain ⟨e,last,rfl⟩ := Option.map_eq_some_iff.mp stepped
    exact placed.pop last
  | swap i j =>
    obtain ⟨inside,⟨⟩⟩ := Option.ite_none_right_eq_some.mp stepped
    exact placed.swap inside.1 inside.2

theorem run {ops : List (Op Item)} {q : Plain Item} (ran : runAll Plain.step p ops = some q) :
    ∃ t, runAll Sstack.step s ops = some t ∧ Placed t q := by
  induction ops generalizing s p with
  | nil =>
    cases ran
    exact ⟨s,rfl,placed⟩
  | cons op ops ih =>
    obtain ⟨next,stepped,ran⟩ := Option.bind_eq_some_iff.mp ran
    obtain ⟨t,steppedToo,placed⟩ := placed.step op stepped
    rw [runAll_cons,steppedToo]
    exact ih placed ran

end Placed

/-- No run of calls that a list allows makes the stack panic, and the stack then
holds what the list holds. -/
theorem sstack_refines_list (setIndex : Bool) {ops : List (Op Item)}
    (ran : runAll Plain.step {} ops = some p) :
    ∃ s, runAll Sstack.step (newSstack setIndex) ops = some s ∧ Holds s p := by
  obtain ⟨s,ran,placed⟩ := (Placed.init setIndex).run ran
  exact ⟨s,ran,placed.toHolds⟩

theorem sstack_refines_list_swap :
    ∃ s, runAll Sstack.step (newSstack true) [.push 'a', .push 'b', .swap 0 1, .pop] = some s ∧
      Holds s ⟨[(1, 'b')],[(0, 'a')],2⟩ :=
  sstack_refines_list true rfl

end PioplatRelay.Prque
