import PioplatRelay.RelayFrames
import PioplatRelay.RingWindows
import PioplatRelay.SetIndexes

/-!
# The block cache

`fixedSizeBlockQueue` keeps the blocks of the latest block numbers: a ring of
numbers in the order of their first insertion, the blocks of each number, and
the number of each hash.  A full queue is meant to drop its oldest number.  It
drops the number written last instead and overwrites the oldest slot.
-/

namespace PioplatRelay

open List Nat Finmap

structure FixedSizeBlockQueue (Block : Type*) where
  blockNumbers : List UInt64
  uniqueNumbers : Finmap fun _ : UInt64 => List Block
  hash2Number : Finmap fun _ : Hash => UInt64
  size : Nat
  head : Nat
  count : Nat

namespace FixedSizeBlockQueue

variable {Block : Type*}

def newFixedSizeBlockQueue (capacity : Nat) : FixedSizeBlockQueue Block where
  blockNumbers := List.replicate capacity 0
  uniqueNumbers := ∅
  hash2Number := ∅
  size := capacity
  head := 0
  count := 0

variable (q : FixedSizeBlockQueue Block)

def newest : UInt64 := q.blockNumbers.getD ((q.head + q.size - 1) % q.size) default

variable (number : Block → UInt64) (hash : Block → Hash)

def evict (q : FixedSizeBlockQueue Block) : FixedSizeBlockQueue Block :=
  -- The slot before the head holds the number pushed last, not the oldest one.
  let blockNumberToRemove := q.newest
  let blocks := (q.uniqueNumbers.lookup blockNumberToRemove).getD []
  { q with
    hash2Number := blocks.foldl (fun hash2Number block => hash2Number.erase (hash block))
      q.hash2Number
    uniqueNumbers := q.uniqueNumbers.erase blockNumberToRemove
    count := q.count - 1 }

def push (q : FixedSizeBlockQueue Block) (block : Block) : FixedSizeBlockQueue Block :=
  let blockNumber := number block
  match q.uniqueNumbers.lookup blockNumber with
  | some blocks =>
    { q with
      uniqueNumbers := q.uniqueNumbers.insert blockNumber (blocks ++ [block])
      hash2Number := q.hash2Number.insert (hash block) blockNumber }
  | none =>
    let q := if q.size ≤ q.count then q.evict hash else q
    { q with
      blockNumbers := q.blockNumbers.set q.head blockNumber
      head := (q.head + 1) % q.size
      uniqueNumbers := q.uniqueNumbers.insert blockNumber
        ((q.uniqueNumbers.lookup blockNumber).getD [] ++ [block])
      hash2Number := q.hash2Number.insert (hash block) blockNumber
      count := q.count + 1 }

def first : Option Block :=
  if 0 < q.count then (q.uniqueNumbers.lookup q.newest).bind List.head? else none

def exist (q : FixedSizeBlockQueue Block) (blockHash : Hash) (blockNumber : UInt64) : Bool :=
  ((q.uniqueNumbers.lookup blockNumber).getD []).any fun block => hash block = blockHash

def existByHash (blockHash : Hash) : Bool := (q.hash2Number.lookup blockHash).isSome

/-- First in, first out: a new number goes to the end of the queue, and a full
queue gives up its first. -/
def pushNumber (size : Nat) (queue : List UInt64) (number : UInt64) : List UInt64 :=
  if number ∈ queue then queue
  else (if size ≤ queue.length then queue.tail else queue) ++ [number]

def live : List UInt64 := Ring.window q.blockNumbers q.head q.count

/-- The numbers present are those of the queue, and each has one live slot. -/
structure Holds (queue : List UInt64) : Prop where
  present : ∀ n, n ∈ q.uniqueNumbers ↔ n ∈ queue
  once : ∀ n ∈ q.uniqueNumbers, q.live.count n = 1

/-! ## Runs without a wrong eviction -/

structure Shaped : Prop where
  length_eq : q.blockNumbers.length = q.size
  head_lt : q.head < q.size
  count_le : q.count ≤ q.size

/-- The live part of the ring is the queue. -/
structure Linked (queue : List UInt64) : Prop
    extends Shaped q where
  present : ∀ n, n ∈ q.uniqueNumbers ↔ n ∈ queue
  live_eq : q.live = queue
  nodup : queue.Nodup

variable {q : FixedSizeBlockQueue Block} {queue : List UInt64}

theorem Linked.count_eq (linked : q.Linked queue) : q.count = queue.length := by
  rw [← linked.live_eq,live,Ring.window_length]

theorem Linked.holds (linked : q.Linked queue) : q.Holds queue where
  present := linked.present
  once := by
    intro n member
    rw [linked.live_eq]
    exact count_eq_one_of_mem linked.nodup ((linked.present n).mp member)

theorem newFixedSizeBlockQueue_linked {capacity : Nat} (positive : 0 < capacity) :
    (newFixedSizeBlockQueue capacity : FixedSizeBlockQueue Block).Linked [] where
  length_eq := by simp [newFixedSizeBlockQueue]
  head_lt := positive
  count_le := zero_le _
  present := by
    intro n
    simp [newFixedSizeBlockQueue,notMem_empty]
  live_eq := rfl
  nodup := nodup_nil

variable {n : UInt64} {block : Block} {size : Nat}

theorem push_of_mem (known : number block ∈ q.uniqueNumbers) :
    (q.push number hash block).blockNumbers = q.blockNumbers ∧
      (q.push number hash block).head = q.head ∧ (q.push number hash block).count = q.count ∧
      (q.push number hash block).size = q.size ∧
      ∀ n, n ∈ (q.push number hash block).uniqueNumbers ↔ n ∈ q.uniqueNumbers := by
  obtain ⟨blocks,found⟩ := Option.isSome_iff_exists.mp (lookup_isSome.mpr known)
  simp only [push,found,true_and,mem_insert]
  intro n
  constructor
  · rintro (rfl | member)
    · exact known
    · exact member
  · exact Or.inr

/-- Pushing a block with a new number writes the head's slot; a full queue
forgets the number written last. -/
theorem push_of_not_mem (new : number block ∉ q.uniqueNumbers) :
    (q.push number hash block).blockNumbers = q.blockNumbers.set q.head (number block) ∧
      (q.push number hash block).head = (q.head + 1) % q.size ∧ (q.push number hash block).count =
        (if q.size ≤ q.count then q.count - 1 else q.count) + 1 ∧
      (q.push number hash block).size = q.size ∧
      ∀ n, n ∈ (q.push number hash block).uniqueNumbers ↔
        n = number block ∨ n ∈ q.uniqueNumbers ∧ (q.size ≤ q.count → n ≠ q.newest) := by
  have missing : q.uniqueNumbers.lookup (number block) = none :=
    lookup_eq_none.mpr new
  by_cases full : q.size ≤ q.count
  · simp only [push,missing,full,if_true,evict,true_and,mem_insert,mem_erase,forall_const]
    intro n
    rw [and_comm]
  · simp [push,missing,full]

theorem Shaped.push (shaped : q.Shaped) (block : Block) : (q.push number hash block).Shaped := by
  have headLt := shaped.head_lt
  have countLe := shaped.count_le
  by_cases known : number block ∈ q.uniqueNumbers
  · obtain ⟨numbersEq,headEq,countEq,sizeEq,-⟩ := push_of_mem number hash known
    exact ⟨by rw [numbersEq,sizeEq,shaped.length_eq],by rw [headEq,sizeEq]; exact headLt,
      by rw [countEq,sizeEq]; exact countLe⟩
  · obtain ⟨numbersEq,headEq,countEq,sizeEq,-⟩ := push_of_not_mem number hash known
    refine ⟨by rw [numbersEq,sizeEq,length_set,shaped.length_eq],?_,?_⟩
    · rw [headEq,sizeEq]
      exact mod_lt _ (by omega)
    · rw [countEq,sizeEq]
      split <;> omega

theorem Linked.push_of_mem (linked : q.Linked queue) (known : number block ∈ queue) :
    (q.push number hash block).Linked queue := by
  obtain ⟨numbersEq,headEq,countEq,-,presentIff⟩ :=
    FixedSizeBlockQueue.push_of_mem number hash ((linked.present _).mpr known)
  refine ⟨linked.toShaped.push number hash block,?_,?_,linked.nodup⟩
  · intro n
    rw [presentIff,linked.present]
  · rw [live,numbersEq,headEq,countEq]
    exact linked.live_eq

theorem Linked.push_of_lt (linked : q.Linked queue) (new : number block ∉ queue)
    (room : q.count < q.size) : (q.push number hash block).Linked (queue ++ [number block]) := by
  obtain ⟨numbersEq,headEq,countEq,sizeEq,presentIff⟩ :=
    push_of_not_mem number hash (mt (linked.present _).mp new)
  rw [if_neg (by omega)] at countEq
  refine ⟨linked.toShaped.push number hash block,?_,?_,?_⟩
  · intro n
    rw [presentIff,linked.present,mem_append,List.mem_singleton]
    simp only [not_le.mpr room,false_implies,and_true]
    exact or_comm
  · have written := Ring.window_write (linked.length_eq ▸ linked.head_lt)
      (linked.length_eq ▸ room) (number block)
    rw [Ring.advance,linked.length_eq] at written
    rw [live,numbersEq,headEq,countEq,written]
    exact congrArg (· ++ _) linked.live_eq
  · exact linked.nodup.append (nodup_singleton _) (by simpa using new)

/-- In a queue of one number the oldest is the newest. -/
theorem Linked.push_of_single (linked : q.Linked queue) (new : number block ∉ queue)
    (full : q.count = q.size) (single : q.size = 1) :
    (q.push number hash block).Linked [number block] := by
  obtain ⟨numbersEq,headEq,countEq,sizeEq,presentIff⟩ :=
    push_of_not_mem number hash (mt (linked.present _).mp new)
  have headZero : q.head = 0 := by
    have headLt := linked.head_lt
    omega
  obtain ⟨only,slotEq⟩ := length_eq_one_iff.mp (linked.length_eq.trans single)
  have queueEq : queue = [only] := by
    rw [← linked.live_eq,live,full,single,slotEq,headZero]
    rfl
  have newestEq : q.newest = only := by
    rw [newest,slotEq,headZero,single]
    rfl
  refine ⟨linked.toShaped.push number hash block,?_,?_,nodup_singleton _⟩
  · intro n
    rw [presentIff,linked.present,queueEq,newestEq,List.mem_singleton,List.mem_singleton]
    constructor
    · rintro (isNew | ⟨isOld,notOld⟩)
      · exact isNew
      · exact absurd isOld (notOld (by omega))
    · exact Or.inl
  · rw [live,numbersEq,headEq,countEq,slotEq,headZero,if_pos (by omega),full,single]
    rfl

/-! ## Runs with a wrong eviction -/

structure Leaked (q : FixedSizeBlockQueue Block) : Prop extends Shaped q where
  lost : ∃ n ∈ q.uniqueNumbers, n ∉ q.blockNumbers

theorem Leaked.not_holds (leaked : q.Leaked) : ¬ q.Holds queue := by
  intro holds
  obtain ⟨n,member,noSlot⟩ := leaked.lost
  have once := holds.once n member
  have notLive : n ∉ q.live := fun inLive => noSlot (Ring.mem_of_mem_window
    (leaked.length_eq ▸ leaked.head_lt) (leaked.length_eq ▸ leaked.count_le) inLive)
  rw [count_eq_zero_of_not_mem notLive] at once
  omega

theorem newest_mem (shaped : q.Shaped) : q.newest ∈ q.blockNumbers := by
  have headLt := shaped.head_lt
  have bounded : (q.head + q.size - 1) % q.size < q.blockNumbers.length := by
    rw [shaped.length_eq]
    exact mod_lt _ (by omega)
  rw [newest,getD_eq_getElem _ _ bounded]
  exact getElem_mem bounded

/-- A number without a slot is never evicted and never gets a slot again. -/
theorem Leaked.push (leaked : q.Leaked) (block : Block) : (q.push number hash block).Leaked := by
  refine ⟨leaked.toShaped.push number hash block,?_⟩
  obtain ⟨n,member,noSlot⟩ := leaked.lost
  by_cases known : number block ∈ q.uniqueNumbers
  · obtain ⟨numbersEq,-,-,-,presentIff⟩ :=
      FixedSizeBlockQueue.push_of_mem number hash known
    exact ⟨n,(presentIff n).mpr member,by rwa [numbersEq]⟩
  · obtain ⟨numbersEq,-,-,-,presentIff⟩ := push_of_not_mem number hash known
    refine ⟨n,(presentIff n).mpr (Or.inr ⟨member,fun _ isNewest => ?_⟩),?_⟩
    · exact noSlot (isNewest ▸ newest_mem leaked.toShaped)
    · rw [numbersEq]
      intro inSlots
      rcases mem_or_eq_of_mem_set inSlots with old | isNew
      · exact noSlot old
      · exact known (isNew ▸ member)

/-- The first eviction from a queue of two or more loses the oldest number. -/
theorem Linked.leaked_push (linked : q.Linked queue) (new : number block ∉ queue)
    (full : q.count = q.size) (several : 2 ≤ q.size) : (q.push number hash block).Leaked := by
  obtain ⟨numbersEq,-,-,-,presentIff⟩ :=
    push_of_not_mem number hash (mt (linked.present _).mp new)
  have headLt : q.head < q.blockNumbers.length := linked.length_eq ▸ linked.head_lt
  have rotated : q.blockNumbers.rotate q.head = queue := by
    rw [← Ring.window_full headLt,linked.length_eq,← full]
    exact linked.live_eq
  have slotsNodup : q.blockNumbers.Nodup := by
    rw [← nodup_rotate,rotated]
    exact linked.nodup
  have slotsMem (n : UInt64) : n ∈ q.blockNumbers ↔ n ∈ queue := by
    rw [← rotated,mem_rotate]
  refine ⟨linked.toShaped.push number hash block,q.blockNumbers[q.head],?_,?_⟩
  · refine (presentIff _).mpr (Or.inr ⟨?_,fun _ isNewest => ?_⟩)
    · rw [linked.present,← slotsMem]
      exact getElem_mem headLt
    · have newestLt : (q.head + q.size - 1) % q.size < q.blockNumbers.length := by
        rw [linked.length_eq]
        exact mod_lt _ (by omega)
      rw [newest,getD_eq_getElem _ _ newestLt,slotsNodup.getElem_inj_iff] at isNewest
      have headBound := linked.head_lt
      rcases Nat.eq_zero_or_pos q.head with zero | positive
      · rw [mod_eq_of_lt (by omega)] at isNewest
        omega
      · rw [mod_eq_sub_mod (by omega),mod_eq_of_lt (by omega)] at isNewest
        omega
  · rw [numbersEq]
    intro inSlots
    obtain ⟨index,indexLt,slotEq⟩ := getElem_of_mem inSlots
    by_cases atHead : q.head = index
    · subst atHead
      rw [getElem_set_self] at slotEq
      apply new
      rw [slotEq,← slotsMem]
      exact getElem_mem headLt
    · rw [getElem_set_ne atHead,slotsNodup.getElem_inj_iff] at slotEq
      exact atHead slotEq.symm

/-! ## Whole runs -/

theorem Linked.push (linked : q.Linked queue)
    (safe : q.size = 1 ∨ number block ∈ queue ∨ q.count < q.size) :
    (q.push number hash block).Linked (pushNumber q.size queue (number block)) := by
  by_cases known : number block ∈ queue
  · rw [pushNumber,if_pos known]
    exact linked.push_of_mem number hash known
  · rw [pushNumber,if_neg known,← linked.count_eq]
    by_cases full : q.size ≤ q.count
    · have countEq : q.count = q.size := le_antisymm linked.count_le full
      have single : q.size = 1 := by
        rcases safe with single | isKnown | room
        · exact single
        · exact absurd isKnown known
        · omega
      have emptied : queue.tail = [] := by
        apply eq_nil_of_length_eq_zero
        rw [length_tail,← linked.count_eq]
        omega
      rw [if_pos full,emptied]
      exact linked.push_of_single number hash known countEq single
    · rw [if_neg full]
      exact linked.push_of_lt number hash known (Nat.lt_of_not_le full)

inductive Progress (size : Nat) (seen : Finset UInt64) (q : FixedSizeBlockQueue Block)
    (queue : List UInt64) : Prop
  | linked (size_eq : q.size = size) (linked : q.Linked queue)
      (kept : size = 1 ∨ queue.toFinset = seen)
  | leaked (size_eq : q.size = size) (leaked : q.Leaked) (several : 2 ≤ size)
      (many : size < seen.card)

theorem push_size (block : Block) : (q.push number hash block).size = q.size := by
  by_cases known : number block ∈ q.uniqueNumbers
  · exact (push_of_mem number hash known).2.2.2.1
  · exact (push_of_not_mem number hash known).2.2.2.1

theorem toFinset_pushNumber (room : n ∈ queue ∨ queue.length < size) :
    (pushNumber size queue n).toFinset = insert n queue.toFinset := by
  by_cases known : n ∈ queue
  · rw [pushNumber,if_pos known,Finset.insert_eq_of_mem (List.mem_toFinset.mpr known)]
  · rw [pushNumber,if_neg known,if_neg (by rcases room with _ | _ <;> [contradiction; omega])]
    ext other
    simp

variable {seen : Finset UInt64} {Good : Block → Prop}

theorem Progress.push (progress : Progress size seen q queue) (block : Block) :
    Progress size (insert (number block) seen) (q.push number hash block)
      (pushNumber size queue (number block)) := by
  cases progress with
  | leaked sizeEq leaked several many =>
    refine .leaked ((push_size number hash block).trans sizeEq)
      (leaked.push number hash block) several (lt_of_lt_of_le many ?_)
    exact Finset.card_le_card (Finset.subset_insert _ _)
  | linked sizeEq linked kept =>
    subst sizeEq
    by_cases safe : q.size = 1 ∨ number block ∈ queue ∨ q.count < q.size
    · refine .linked (push_size number hash block) (linked.push number hash safe) ?_
      rcases kept with single | all
      · exact Or.inl single
      · rcases safe with single | room
        · exact Or.inl single
        · rw [linked.count_eq] at room
          exact Or.inr (by rw [toFinset_pushNumber room,all])
    · simp only [not_or,not_lt] at safe
      obtain ⟨notSingle,new,full⟩ := safe
      have headLt := linked.head_lt
      have several : 2 ≤ q.size := by omega
      have countEq : q.count = q.size := le_antisymm linked.count_le full
      refine .leaked (push_size number hash block)
        (linked.leaked_push number hash new countEq several) several ?_
      rcases kept with single | all
      · exact absurd single notSingle
      · rw [← all,Finset.card_insert_of_notMem (by simpa using new),
          toFinset_card_of_nodup linked.nodup,← linked.count_eq]
        omega

theorem Progress.pushAll (progress : Progress size seen q queue) (blocks : List Block) :
    Progress size (seen ∪ (blocks.map number).toFinset)
      (blocks.foldl (FixedSizeBlockQueue.push number hash) q)
      ((blocks.map number).foldl (pushNumber size) queue) := by
  induction blocks generalizing q queue seen with
  | nil => simpa using progress
  | cons block blocks ih =>
    have last := ih (progress.push number hash block)
    simpa using last

/-- After any blocks a queue holds exactly its latest numbers, each with one
live slot, if and only if it has room for a single number or has never been
pushed more distinct numbers than it has room for. -/
theorem push_holds_iff (number : Block → UInt64) (hash : Block → Hash) {capacity : Nat}
    (positive : 0 < capacity) (blocks : List Block) :
    (blocks.foldl (push number hash) (newFixedSizeBlockQueue capacity)).Holds
        ((blocks.map number).foldl (pushNumber capacity) []) ↔
      capacity = 1 ∨ (blocks.map number).toFinset.card ≤ capacity := by
  have start : Progress capacity ∅
      (newFixedSizeBlockQueue capacity : FixedSizeBlockQueue Block) [] :=
    .linked rfl (newFixedSizeBlockQueue_linked positive) (Or.inr rfl)
  have progress := start.pushAll number hash blocks
  rw [Finset.empty_union] at progress
  cases progress with
  | linked sizeEq linked kept =>
    refine iff_of_true linked.holds (kept.imp_right fun all => ?_)
    rw [← all,toFinset_card_of_nodup linked.nodup,← linked.count_eq]
    exact linked.count_le.trans_eq sizeEq
  | leaked _ leaked several many => exact iff_of_false leaked.not_holds (by omega)

/-- Two numbers in a queue of two. -/
theorem push_holds_two :
    let q := [(7 : UInt64), 8].foldl (push id fun _ => .zero) (newFixedSizeBlockQueue 2)
    q.Holds [7, 8] :=
  (push_holds_iff id (fun _ => .zero) (by decide : 0 < 2) [7,8]).mpr (Or.inr (by decide))

/-- A third number drives out the second, and the first has lost its slot. -/
theorem push_evicts_newest :
    let q := [(7 : UInt64), 8, 9].foldl (push id fun _ => .zero) (newFixedSizeBlockQueue 2)
    [7, 8, 9].foldl (pushNumber 2) [] = [8, 9] ∧
      8 ∉ q.uniqueNumbers ∧ 7 ∈ q.uniqueNumbers ∧ q.live = [8, 9] := by
  decide

/-! ## What the cache holds -/

def Only (Good : Block → Prop) (q : FixedSizeBlockQueue Block) : Prop :=
  ∀ n blocks, q.uniqueNumbers.lookup n = some blocks → ∀ block ∈ blocks, Good block

theorem newFixedSizeBlockQueue_only (Good : Block → Prop) (capacity : Nat) :
    (newFixedSizeBlockQueue capacity).Only Good := by
  intro n blocks found
  cases found

theorem Only.lookup_getD (only : q.Only Good) (n : UInt64) :
    ∀ block ∈ (q.uniqueNumbers.lookup n).getD [], Good block :=
  forall_mem_lookup_getD only n

theorem Only.insert (only : q.Only Good) {blocks : List Block}
    {next : FixedSizeBlockQueue Block} (good : ∀ block ∈ blocks, Good block)
    (inserted : next.uniqueNumbers = q.uniqueNumbers.insert n blocks) : next.Only Good := by
  rw [Only,inserted]
  exact forall_lookup_insert good only

theorem Only.evict (only : q.Only Good) : (q.evict hash).Only Good := by
  intro m others found
  simp only [FixedSizeBlockQueue.evict,lookup_erase_ite] at found
  split at found
  · cases found
  · exact only m others found

theorem Only.push (only : q.Only Good) (good : Good block) :
    (q.push number hash block).Only Good := by
  have goodAfter {blocks : List Block} (before : ∀ other ∈ blocks, Good other) :
      ∀ other ∈ blocks ++ [block], Good other :=
    forall_mem_append.mpr ⟨before,forall_mem_singleton.mpr good⟩
  unfold FixedSizeBlockQueue.push
  dsimp only
  split
  · rename_i blocks found
    exact only.insert (goodAfter (only _ blocks found)) rfl
  · split
    · have evicted := only.evict hash
      exact evicted.insert (goodAfter (evicted.lookup_getD _)) rfl
    · exact only.insert (goodAfter (only.lookup_getD _)) rfl

end FixedSizeBlockQueue

end PioplatRelay
