import PioplatRelay.ArrayViews
import PioplatRelay.BufferedSockets

/-!
# The read buffer of the transport

The buffer exposes the bytes that were read as views of its array and keeps them,
with bytes of later packets behind them, until `reset`.  When there is no room it
moves to a larger array, and views that were taken before keep showing the old one.
-/

namespace PioplatRelay

open List ArrayView

namespace Rlpx

/-- `readBuffer`, with all the arrays it ever had.  The field `end` is `last` here. -/
structure ReadBuffer where
  arrays : Arrays UInt8
  data : SharedSlice
  last : Nat
  deriving DecidableEq, Repr

inductive ReadErr
  | eof
  | unexpectedEOF
  | network
  deriving DecidableEq, Repr

namespace ReadBuffer

def empty : ReadBuffer := ⟨[], .nil, 0⟩

def backing (b : ReadBuffer) : List UInt8 := arrayAt b.arrays b.data.array

def cap (b : ReadBuffer) : Nat := b.backing.length

/-- `reset` moves the unprocessed bytes to the front.  Both slice expressions of the
source are in range if the marks are in order. -/
def reset (b : ReadBuffer) : Option ReadBuffer :=
  if b.data.length ≤ b.last ∧ b.last ≤ b.cap then
    let unprocessed := b.last - b.data.length
    let moved := (b.backing.take b.last).drop b.data.length
    some ⟨overwrite b.arrays b.data.array 0 moved,b.data.emptied,unprocessed⟩
  else none

/-- `grow` makes room for `n` bytes behind the mark; how much more the runtime
allocates is up to it. -/
def grow (spare : Nat → Nat) (b : ReadBuffer) (n : Nat) : ReadBuffer :=
  if b.cap - b.last ≥ n then b
  else
    let need := n - (b.cap - b.last)
    let made := b.backing ++ replicate need 0 ++ replicate (spare (b.cap + need)) 0
    ⟨b.arrays ++ [made], ⟨some b.arrays.length,b.data.length⟩, b.last⟩

def readError (count : Nat) : FullRead → ReadErr
  | .failed => .network
  | _ => if count = 0 then .eof else .unexpectedEOF

def read (spare : Nat → Nat) (b : ReadBuffer) (conn : Socket) (n : Nat) :
    Option (Except ReadErr ArrayView × ReadBuffer × Socket) :=
  let offset := b.data.length
  let available := b.last - b.data.length
  if available ≥ n then
    if offset + n ≤ b.cap then
      some (.ok ⟨b.data.array,offset,n⟩, { b with data := ⟨b.data.array,offset + n⟩ }, conn)
    else none
  else
    let need := n - available
    let b := b.grow spare need
    if b.last ≤ b.cap then
      match conn.readAtLeast need (b.cap - b.last) with
      | (bytes, .filled, conn) =>
        let arrays := overwrite b.arrays b.data.array b.last bytes
        if offset + n ≤ b.cap then
          some (.ok ⟨b.data.array,offset,n⟩,
            ⟨arrays, ⟨b.data.array,offset + n⟩, b.last + bytes.length⟩, conn)
        else none
      | (bytes, status, conn) =>
        -- The bytes are in the array, but the mark is not moved over them.
        some (.error (readError bytes.length status),
          { b with arrays := overwrite b.arrays b.data.array b.last bytes }, conn)
    else none

/-! ### Unread bytes -/

structure Holds (b : ReadBuffer) (unread : List UInt8) : Prop where
  parts : ∃ front room, b.backing = front ++ (unread ++ room) ∧ front.length = b.data.length
  last : b.last = b.data.length + unread.length
  known : ∀ array, b.data.array = some array → array < b.arrays.length

theorem holds_empty : empty.Holds [] where
  parts := ⟨[],[],rfl,rfl⟩
  last := rfl
  known := fun _ equality => nomatch equality

variable {b : ReadBuffer} {unread : List UInt8} {n : Nat}

theorem Holds.cap_eq (holds : b.Holds unread) :
    ∃ room, b.cap = b.data.length + unread.length + room := by
  obtain ⟨front,room,backingEq,frontLength⟩ := holds.parts
  refine ⟨room.length,?_⟩
  rw [cap,backingEq,length_append,length_append,frontLength,Nat.add_assoc]

/-- A view of bytes that have been handed out. -/
structure Processed (b : ReadBuffer) (view : ArrayView) : Prop where
  known : ∀ array, view.array = some array → array < b.arrays.length
  inside : view.offset + view.length ≤ (arrayAt b.arrays view.array).length
  before : view.array = b.data.array → view.offset + view.length ≤ b.data.length

theorem Processed.front {view : ArrayView} {count : Nat} (processed : b.Processed view)
    (short : count ≤ view.length) : b.Processed (view.front count) where
  known := processed.known
  inside := Nat.le_trans (Nat.add_le_add_left short _) processed.inside
  before := fun current =>
    Nat.le_trans (Nat.add_le_add_left short _) (processed.before current)

/-- Views of processed bytes show the same after a read. -/
def Keeps (b after : ReadBuffer) : Prop :=
  ∀ ⦃view⦄, b.Processed view →
    after.Processed view ∧ view.contents after.arrays = view.contents b.arrays

theorem Holds.reset_eq (holds : b.Holds unread) :
    ∃ after, b.reset = some after ∧ after.Holds unread := by
  obtain ⟨room,capEq⟩ := holds.cap_eq
  obtain ⟨front,rest,backingEq,frontLength⟩ := holds.parts
  have lastEq := holds.last
  have moved : (b.backing.take b.last).drop b.data.length = unread := by
    rw [backingEq,lastEq,← frontLength,← append_assoc,take_append_of_le_length,
      ← length_append,take_length,drop_left]
    exact Nat.le_of_eq length_append.symm
  refine ⟨_,if_pos (by omega),?_⟩
  constructor
  · refine ⟨[],b.backing.drop unread.length,?_,rfl⟩
    change arrayAt (overwrite b.arrays b.data.array 0 _) b.data.array = _
    rw [arrayAt_overwrite_self,moved,copyAt_zero_of_le]
    · rfl
    · change unread.length ≤ b.cap
      omega
  · change b.last - b.data.length = 0 + unread.length
    omega
  · intro array arrayEq
    rw [length_overwrite]
    exact holds.known array arrayEq

theorem Holds.grow (spare : Nat → Nat) (holds : b.Holds unread) (n : Nat) :
    (b.grow spare n).Holds unread ∧ b.Keeps (b.grow spare n) ∧
      (b.grow spare n).data.length = b.data.length ∧
      n ≤ (b.grow spare n).cap - (b.grow spare n).last := by
  obtain ⟨front,room,backingEq,frontLength⟩ := holds.parts
  rw [ReadBuffer.grow]
  split
  · rename_i roomy
    exact ⟨holds,fun view processed => ⟨processed,rfl⟩,rfl,roomy⟩
  · rename_i tight
    have grown : ∀ made, ReadBuffer.backing
        ⟨b.arrays ++ [made],⟨some b.arrays.length,b.data.length⟩,b.last⟩ = made :=
      arrayAt_made b.arrays
    refine ⟨⟨?_,holds.last,?_⟩,?_,rfl,?_⟩
    · rw [grown,backingEq]
      refine ⟨front,room ++ replicate (n - (b.cap - b.last)) 0 ++
        replicate (spare (b.cap + (n - (b.cap - b.last)))) 0,?_,frontLength⟩
      simp
    · rintro array ⟨⟩
      simp
    · intro view processed
      have same := arrayAt_append processed.known
        (b.backing ++ replicate (n - (b.cap - b.last)) 0 ++
          replicate (spare (b.cap + (n - (b.cap - b.last)))) 0)
      refine ⟨⟨?_,?_,?_⟩,?_⟩
      · intro array arrayEq
        rw [length_append]
        exact Nat.lt_add_right _ (processed.known array arrayEq)
      · rw [same]
        exact processed.inside
      · intro arrayEq
        exact absurd (processed.known _ arrayEq) (Nat.lt_irrefl _)
      · rw [contents,contents,same]
    · rw [cap,grown]
      simp only [length_append,length_replicate]
      change n ≤ b.cap + _ + _ - b.last
      obtain ⟨_,capEq⟩ := holds.cap_eq
      have lastEq := holds.last
      omega

theorem Keeps.trans {first middle last : ReadBuffer} (begins : first.Keeps middle)
    (ends : middle.Keeps last) : first.Keeps last := by
  intro view processed
  obtain ⟨between,same⟩ := begins processed
  obtain ⟨after,sameAfter⟩ := ends between
  exact ⟨after,sameAfter.trans same⟩

theorem Holds.fill {bytes : List UInt8} (holds : b.Holds unread)
    (fits : bytes.length ≤ b.cap - b.last) :
    (⟨overwrite b.arrays b.data.array b.last bytes,b.data,b.last + bytes.length⟩ :
        ReadBuffer).Holds (unread ++ bytes) ∧
      b.Keeps ⟨overwrite b.arrays b.data.array b.last bytes,b.data,b.last + bytes.length⟩ := by
  obtain ⟨front,room,backingEq,frontLength⟩ := holds.parts
  have lastEq := holds.last
  have roomLong : bytes.length ≤ room.length := by
    rw [cap,backingEq,length_append,length_append] at fits
    omega
  obtain ⟨middle,rest,rfl,middleLength⟩ := exists_append_of_le_length roomLong
  constructor
  · constructor
    · refine ⟨front,rest,?_,frontLength⟩
      change arrayAt (overwrite b.arrays b.data.array b.last bytes) b.data.array = _
      have filled : copyAt (front ++ unread ++ (middle ++ rest)) b.last bytes =
          front ++ unread ++ (bytes ++ rest) :=
        copyAt_append (front ++ unread) middle rest bytes
          (by rw [length_append,frontLength,lastEq]) middleLength.symm
      rw [arrayAt_overwrite_self,show arrayAt b.arrays b.data.array = b.backing from rfl,
        backingEq,← append_assoc front,filled,append_assoc,append_assoc]
    · change b.last + bytes.length = b.data.length + (unread ++ bytes).length
      rw [length_append]
      omega
    · intro array arrayEq
      rw [length_overwrite]
      exact holds.known array arrayEq
  · intro view processed
    have lengthEq := length_arrayAt_overwrite b.arrays b.data.array view.array b.last bytes
    refine ⟨⟨?_,?_,processed.before⟩,?_⟩
    · intro array arrayEq
      rw [length_overwrite]
      exact processed.known array arrayEq
    · rw [lengthEq]
      exact processed.inside
    · by_cases current : view.array = b.data.array
      · have before := processed.before current
        rw [← current]
        exact contents_overwrite_of_le processed.inside (by omega)
      · rw [contents,contents,arrayAt_overwrite_other current]

theorem Holds.advance (holds : b.Holds unread) (there : n ≤ unread.length) :
    ({ b with data := ⟨b.data.array,b.data.length + n⟩ } : ReadBuffer).Holds (unread.drop n) ∧
      b.Keeps { b with data := ⟨b.data.array,b.data.length + n⟩ } ∧
      ({ b with data := ⟨b.data.array,b.data.length + n⟩ } : ReadBuffer).Processed
        ⟨b.data.array,b.data.length,n⟩ ∧
      (⟨b.data.array,b.data.length,n⟩ : ArrayView).contents b.arrays = unread.take n := by
  obtain ⟨front,room,backingEq,frontLength⟩ := holds.parts
  obtain ⟨taken,rest,rfl,takenLength⟩ := exists_append_of_le_length there
  have lastEq := holds.last
  rw [← takenLength,drop_left,take_left]
  refine ⟨⟨?_,?_,holds.known⟩,?_,⟨holds.known,?_,fun _ => Nat.le_refl _⟩,?_⟩
  · refine ⟨front ++ taken,room,?_,by rw [length_append,frontLength]⟩
    change b.backing = _
    rw [backingEq,append_assoc,append_assoc]
  · change b.last = b.data.length + taken.length + rest.length
    rw [lastEq,length_append,Nat.add_assoc]
  · intro view processed
    refine ⟨⟨processed.known,processed.inside,?_⟩,rfl⟩
    intro current
    exact Nat.le_trans (processed.before current) (Nat.le_add_right _ _)
  · change b.data.length + taken.length ≤ b.backing.length
    rw [backingEq,← frontLength]
    simp only [length_append]
    omega
  · change (b.backing.drop b.data.length).take taken.length = taken
    rw [backingEq,← frontLength,drop_left,append_assoc,take_left]

/-- What a successful `read` gives: a view of the next `n` bytes, wherever the network
and the buffer had them. -/
structure Took (b after : ReadBuffer) (conn connAfter : Socket) (unread : List UInt8)
    (view : ArrayView) (n : Nat) : Prop where
  streaming : connAfter.transport = .stream
  keeps : b.Keeps after
  processed : after.Processed view
  length : view.length = n
  contents : view.contents after.arrays = (unread ++ conn.available).take n
  rest : ∃ unreadAfter, after.Holds unreadAfter ∧
    unreadAfter ++ connAfter.available = (unread ++ conn.available).drop n

theorem Holds.read_eq {conn : Socket} (spare : Nat → Nat) (holds : b.Holds unread)
    (streaming : conn.transport = .stream) (there : n ≤ (unread ++ conn.available).length) :
    ∃ view after connAfter, b.read spare conn n = some (.ok view, after, connAfter) ∧
      Took b after conn connAfter unread view n := by
  have lastEq := holds.last
  rw [length_append] at there
  rw [read]
  simp only
  split
  · rename_i buffered
    have short : n ≤ unread.length := by omega
    obtain ⟨room,capEq⟩ := holds.cap_eq
    obtain ⟨holdsAfter,keeps,processed,contents⟩ := holds.advance short
    refine ⟨_,_,_,if_pos (by omega),streaming,keeps,processed,rfl,?_,unread.drop n,holdsAfter,?_⟩
    · rw [take_append_of_le_length short]
      exact contents
    · rw [drop_append_of_le_length short]
  · rename_i missing
    obtain ⟨grown,keepsGrown,dataLength,roomy⟩ := holds.grow spare (n - (b.last - b.data.length))
    generalize b.grow spare (n - (b.last - b.data.length)) = larger at *
    obtain ⟨room,capEq⟩ := grown.cap_eq
    have grownLast := grown.last
    obtain ⟨bytes,connAfter,readEq,splitEq,enough,fits,streamAfter⟩ :=
      Socket.readAtLeast_filled streaming roomy (by omega)
    obtain ⟨filled,keepsFilled⟩ := grown.fill fits
    have short : n ≤ (unread ++ bytes).length := by
      rw [length_append]
      omega
    obtain ⟨holdsAfter,keeps,processed,contents⟩ := filled.advance short
    rw [if_pos (by omega),readEq]
    refine ⟨_,_,_,if_pos (by omega),streamAfter,?_,?_,rfl,?_,(unread ++ bytes).drop n,?_,?_⟩
    · rw [← dataLength]
      exact keepsGrown.trans (keepsFilled.trans keeps)
    · rw [← dataLength]
      exact processed
    · rw [splitEq,← append_assoc,take_append_of_le_length short,← dataLength]
      exact contents
    · rw [← dataLength]
      exact holdsAfter
    · rw [splitEq,← append_assoc,drop_append_of_le_length short]

theorem Holds.read_error {conn : Socket} (spare : Nat → Nat) (holds : b.Holds []) (positive : 0 < n)
    (streaming : conn.transport = .stream) (nothing : conn.available = []) :
    ∃ error after connAfter, b.read spare conn n = some (.error error, after, connAfter) := by
  have lastEq := holds.last
  rw [length_nil] at lastEq
  obtain ⟨grown,_,_,roomy⟩ := holds.grow spare (n - (b.last - b.data.length))
  rw [read]
  simp only
  rw [if_neg (by omega)]
  generalize b.grow spare (n - (b.last - b.data.length)) = larger at *
  obtain ⟨status,connAfter,readEq,notFilled⟩ :=
    Socket.readAtLeast_nothing (by omega) roomy streaming nothing
  obtain ⟨room,capEq⟩ := grown.cap_eq
  have grownLast := grown.last
  rw [if_pos (by omega),readEq]
  cases status with
  | filled => exact absurd rfl notFilled
  | failed => exact ⟨_,_,_,rfl⟩
  | drained => exact ⟨_,_,_,rfl⟩

/-- Writing through a view of processed bytes leaves the unread ones alone. -/
theorem Holds.write {bytes : List UInt8} {view : ArrayView} (holds : b.Holds unread)
    (processed : b.Processed view) (lengthEq : bytes.length = view.length) :
    ({ b with arrays := view.write b.arrays bytes } : ReadBuffer).Holds unread ∧
      view.contents (view.write b.arrays bytes) = bytes := by
  refine ⟨?_,contents_write processed.inside lengthEq⟩
  obtain ⟨front,room,backingEq,frontLength⟩ := holds.parts
  refine ⟨?_,holds.last,?_⟩
  · by_cases current : view.array = b.data.array
    · have before := processed.before current
      rw [← frontLength] at before
      have frontLong : view.offset ≤ front.length := by omega
      obtain ⟨start,others,rfl,startLength⟩ := exists_append_of_le_length frontLong
      have othersLong : view.length ≤ others.length := by
        rw [length_append] at before
        omega
      obtain ⟨middle,finish,rfl,middleLength⟩ := exists_append_of_le_length othersLong
      refine ⟨start ++ (bytes ++ finish),room,?_,?_⟩
      · change arrayAt (overwrite b.arrays view.array view.offset bytes) b.data.array = _
        have written := copyAt_append start middle (finish ++ (unread ++ room)) bytes
          startLength.symm (lengthEq.trans middleLength.symm)
        rw [current,arrayAt_overwrite_self,
          show arrayAt b.arrays b.data.array = b.backing from rfl,backingEq]
        simp only [append_assoc] at written ⊢
        exact written
      · rw [← frontLength]
        simp only [length_append]
        omega
    · refine ⟨front,room,?_,frontLength⟩
      change arrayAt (overwrite b.arrays view.array view.offset bytes) b.data.array = _
      rw [arrayAt_overwrite_other (Ne.symm current)]
      exact backingEq
  · intro array arrayEq
    rw [ArrayView.write,length_overwrite]
    exact holds.known array arrayEq

end ReadBuffer

end Rlpx

end PioplatRelay
