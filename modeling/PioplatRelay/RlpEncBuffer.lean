import PioplatRelay.RlpItems
import PioplatRelay.SliceExpressions
import PioplatRelay.StepRuns

/-!
# The encoder buffer with deferred list headers

The encoder keeps the string data apart from the list headers, because the size
of a list is known only at its end.  A header records the position in the string
data at which it belongs.  Its `size` field first holds the header bytes counted
before the list was opened, and `listEnd` replaces that by the size of the list's
encoding.  Every operation is described by the encoding it adds to the output
(`EncBuffer.Appended`), whatever stands before and behind it.
-/

namespace PioplatRelay.Rlp

open BigEndian List Nat UInt8

/-- The bytes needed for `i`: the loop of the source shifts until nothing is left. -/
def intsize (i : Nat) : Nat :=
  if i / 256 = 0 then 1 else intsize (i / 256) + 1
termination_by i
decreasing_by omega

/-- `putint` writes `i` most significant byte first.  Its eight cases are the
widths that `intsize` gives for the values of a `uint64`. -/
def putint (i : Nat) : List UInt8 := bytesOf (intsize i) i

def puthead (smalltag largetag : UInt8) (size : Nat) : List UInt8 :=
  if size < 56 then [smalltag + UInt8.ofNat size]
  else (largetag + UInt8.ofNat (putint size).length) :: putint size

/-- `listhead`: where a list header belongs, and its size. -/
structure ListHead where
  offset : Nat
  /-- Total size of the encoded data, once the list has ended. -/
  size : Nat
  deriving DecidableEq, Repr

def ListHead.encode (head : ListHead) : List UInt8 := puthead 0xC0 0xF7 head.size

/-- `encBuffer`.  The auxiliary buffer `sizebuf` is left out: what an encoding call
reads from it, it has written.  A reader keeps a header there between its calls, when
nothing is encoded. -/
structure EncBuffer where
  /-- String data, contains everything except list headers. -/
  str : List UInt8
  /-- All list headers. -/
  lheads : List ListHead
  /-- Sum of sizes of all encoded list headers. -/
  lhsize : Nat
  deriving DecidableEq, Repr

namespace EncBuffer

def empty : EncBuffer := ⟨[], [], 0⟩

variable (buf : EncBuffer)

def size : Nat := buf.str.length + buf.lhsize

def write (bytes : List UInt8) : EncBuffer := { buf with str := buf.str ++ bytes }

def writeUint64 (i : UInt64) : EncBuffer :=
  if i = 0 then buf.write [0x80]
  else if i < 128 then buf.write [i.toUInt8]
  else buf.write ((0x80 + UInt8.ofNat (putint i.toNat).length) :: putint i.toNat)

def encodeStringHeader (size : Nat) : EncBuffer :=
  if size < 56 then buf.write [0x80 + UInt8.ofNat size]
  else buf.write ((0xB7 + UInt8.ofNat (putint size).length) :: putint size)

def writeBytes (bytes : List UInt8) : EncBuffer :=
  match bytes with
  | [byte] =>
    if byte ≤ 0x7F then buf.write [byte]
    else (buf.encodeStringHeader 1).write [byte]
  | _ => (buf.encodeStringHeader bytes.length).write bytes

def list : EncBuffer × Nat :=
  ({ buf with lheads := buf.lheads ++ [⟨buf.str.length,buf.lhsize⟩] }, buf.lheads.length)

/-- Ends the list with the given header.  The string data and `lhsize` never
shrink, so that the difference is not negative; an index out of range panics. -/
def listEnd (index : Nat) : Option EncBuffer := do
  let head ← buf.lheads[index]?
  let size := buf.size - head.offset - head.size
  let added := if size < 56 then 1 else 1 + intsize size
  some { buf with
    lheads := buf.lheads.set index { head with size := size }
    lhsize := buf.lhsize + added }

structure CopyState where
  dst : List UInt8
  pos : Nat
  strpos : Nat

/-- One round of `copyTo`: string data before the header, then the header. -/
def copyHead (state : CopyState) (head : ListHead) : Option CopyState := do
  let piece ← slice buf.str state.strpos head.offset
  let _ ← slice state.dst state.pos state.dst.length
  let n := min (state.dst.length - state.pos) piece.length
  let pos := state.pos + n
  let enc := head.encode
  let _ ← slice state.dst pos (pos + enc.length : Nat)
  some ⟨copyAt (copyAt state.dst state.pos piece) pos enc, pos + enc.length, state.strpos + n⟩

def copyTo (dst : List UInt8) : Option (List UInt8) := do
  let state ← buf.lheads.foldlM buf.copyHead ⟨dst,0,0⟩
  let rest ← slice buf.str state.strpos buf.str.length
  let _ ← slice state.dst state.pos state.dst.length
  some (copyAt state.dst state.pos rest)

def makeBytes : Option (List UInt8) := buf.copyTo (List.replicate buf.size 0)

end EncBuffer

/-- An `io.Writer` with its state: a write returns the count and the error. -/
structure Writer (Target Err : Type) where
  write : Target → List UInt8 → Target × Nat × Option Err

def Writer.Accepting {Target Err : Type} (writer : Writer Target Err)
    (held : Target → List UInt8) : Prop :=
  ∀ target bytes, (writer.write target bytes).2 = (bytes.length, none) ∧
    held (writer.write target bytes).1 = held target ++ bytes

namespace EncBuffer

section WriteTo

variable {Target Err : Type} (writer : Writer Target Err) (buf : EncBuffer)

/-- Writes the string data up to `high`, if there is any: the target, the position
after it and the error. -/
def writeData (strpos high : Nat) (target : Target) : Option (Target × Nat × Option Err) :=
  if strpos < high then do
    let piece ← slice buf.str strpos high
    let result := writer.write target piece
    some (result.1, strpos + result.2.1, result.2.2)
  else some (target, strpos, none)

/-- The loop of `writeTo` over the headers, and the string data behind the last. -/
def writeHeads : List ListHead → Nat → Target → Option (Target × Option Err)
  | [], strpos, target => do
      let data ← writeData writer buf strpos buf.str.length target
      some (data.1, data.2.2)
  | head :: heads, strpos, target => do
      let data ← writeData writer buf strpos head.offset target
      if data.2.2.isSome then some (data.1, data.2.2)
      else
        let result := writer.write data.1 head.encode
        if result.2.2.isSome then some (result.1, result.2.2)
        else writeHeads heads data.2.1 result.1

def writeTo (target : Target) : Option (Target × Option Err) :=
  writeHeads writer buf buf.lheads 0 target

end WriteTo

end EncBuffer

/-- `encReader`.  The buffer is given back at the end of the data. -/
structure EncReader where
  /-- The buffer we are reading from; none at the end. -/
  buf : Option EncBuffer
  lhpos : Nat
  strpos : Nat
  piece : Option (List UInt8)

namespace EncReader

/-- The next piece of data to be read, none at the end.  The outer option is the
runtime's bounds check. -/
def next (reader : EncReader) : Option (Option (List UInt8) × EncReader) :=
  match reader.buf, reader.piece with
  | none, _ => some (none, reader)
  | some _, some piece => some (some piece, reader)
  | some buf, none =>
    match buf.lheads[reader.lhpos]? with
    | some head =>
      -- Before the last list header: string data first, then the header itself.
      if reader.strpos < head.offset then do
        let piece ← slice buf.str reader.strpos head.offset
        some (some piece, { reader with strpos := head.offset })
      else some (some head.encode, { reader with lhpos := reader.lhpos + 1 })
    | none =>
      if reader.strpos < buf.str.length then do
        let piece ← slice buf.str reader.strpos buf.str.length
        some (some piece, { reader with strpos := buf.str.length })
      else some (none, reader)

/-- The loop of `Read` into a buffer of `room` bytes: what was copied, whether
the end was reported, and the reader afterwards.  Every round takes a piece. -/
def readLoop : Nat → Nat → List UInt8 → EncReader → Option (List UInt8 × Bool × EncReader)
  | 0, _, _, _ => none
  | rounds + 1, room, copied, reader => do
      let (piece, reader) ← reader.next
      match piece with
      | none => some (copied, true, { reader with piece := none, buf := none })
      | some piece =>
        let nn := min (room - copied.length) piece.length
        let copied := copied ++ piece.take nn
        if nn < piece.length then
          -- The piece did not fit; the rest of it waits for the next call.
          some (copied, false, { reader with piece := some (piece.drop nn) })
        else readLoop rounds room copied { reader with piece := none }

def rounds (reader : EncReader) : Nat :=
  match reader.buf with
  | none => 1
  | some buf => 2 * buf.lheads.length + 3

def read (room : Nat) (reader : EncReader) : Option (List UInt8 × Bool × EncReader) :=
  readLoop reader.rounds room [] reader

def reads : List Nat → EncReader → Option (List (List UInt8 × Bool))
  | [], _ => some []
  | room :: rooms, reader => do
      let (bytes, atEnd, reader) ← reader.read room
      let later ← reads rooms reader
      some ((bytes, atEnd) :: later)

end EncReader

def EncBuffer.reader (buf : EncBuffer) : EncReader := ⟨some buf,0,0,none⟩

/-! ### Sequences of operations -/

inductive Op
  | writeBytes (bytes : List UInt8)
  | writeUint64 (i : UInt64)
  | list
  | listEnd
  deriving DecidableEq, Repr

/-- An encoder at work: the buffer, and the indices of the lists it has open. -/
structure Session where
  buf : EncBuffer
  indices : List Nat
  deriving DecidableEq, Repr

def Session.step : Op → Session → Option Session
  | .writeBytes bytes, session => some { session with buf := session.buf.writeBytes bytes }
  | .writeUint64 i, session => some { session with buf := session.buf.writeUint64 i }
  | .list, session => some ⟨session.buf.list.1,session.buf.list.2 :: session.indices⟩
  | .listEnd, session =>
    match session.indices with
    | [] => none
    | index :: indices => do
        let buf ← session.buf.listEnd index
        some ⟨buf,indices⟩

/-- Every `listEnd` matches a `list` before it, and every `list` is ended; `depth`
lists are open in front of the sequence. -/
def wellBracketed : Nat → List Op → Bool
  | depth, [] => depth == 0
  | depth, .list :: ops => wellBracketed (depth + 1) ops
  | 0, .listEnd :: _ => false
  | depth + 1, .listEnd :: ops => wellBracketed depth ops
  | depth, _ :: ops => wellBracketed depth ops

/-- The items that a well-bracketed sequence of operations stands for. -/
inductive Represents : List Op → List Item → Prop
  | nil : Represents [] []
  | bytes {ops : List Op} {items : List Item} (bytes : List UInt8) :
      Represents ops items → Represents (.writeBytes bytes :: ops) (.str bytes :: items)
  | uint {ops : List Op} {items : List Item} (i : UInt64) :
      Represents ops items → Represents (.writeUint64 i :: ops) (.uint i.toNat :: items)
  | list {inner ops : List Op} {elements items : List Item} :
      Represents inner elements → Represents ops items →
      Represents (.list :: inner ++ .listEnd :: ops) (.list elements :: items)

/-! ### Headers -/

theorem intsize_eq_minimal_length {i : Nat} (positive : 0 < i) :
    intsize i = (minimal i).length := by
  induction i using Nat.strong_induction_on with
  | _ i ih =>
    rw [intsize,minimal_of_pos positive,length_append,length_singleton]
    split
    · rename_i last
      rw [last,minimal_zero,length_nil]
    · rw [ih (i / 256) (by omega) (by omega)]

theorem putint_eq_minimal {i : Nat} (positive : 0 < i) : putint i = minimal i := by
  rw [putint,intsize_eq_minimal_length positive,bytesOf_minimal_length]

theorem puthead_eq_header (smalltag largetag : UInt8) (size : Nat) :
    puthead smalltag largetag size = header smalltag largetag size := by
  unfold puthead header
  split
  · rfl
  · rw [putint_eq_minimal (by omega)]

theorem ListHead.encode_eq (head : ListHead) : head.encode = listHeader head.size :=
  puthead_eq_header 0xC0 0xF7 head.size

theorem listHeader_length (size : Nat) :
    (listHeader size).length = if size < 56 then 1 else 1 + intsize size := by
  unfold listHeader header
  split
  · rfl
  · rw [intsize_eq_minimal_length (by omega),length_cons,add_comm]

/-! ### Putting headers and string data together -/

/-- The output from position `strpos` of the string data on. -/
def interleave (str : List UInt8) : Nat → List ListHead → List UInt8
  | strpos, [] => str.drop strpos
  | strpos, head :: heads =>
    (str.take head.offset).drop strpos ++ (head.encode ++ interleave str head.offset heads)

/-- The headers stand in the order of their offsets, between `pos` and `limit`. -/
def Ordered (limit : Nat) : Nat → List ListHead → Prop
  | pos, [] => pos ≤ limit
  | pos, head :: heads => pos ≤ head.offset ∧ Ordered limit head.offset heads

theorem Ordered.le {limit pos : Nat} {heads : List ListHead}
    (ordered : Ordered limit pos heads) : pos ≤ limit := by
  induction heads generalizing pos with
  | nil => exact ordered
  | cons head heads ih => exact ordered.1.trans (ih ordered.2)

theorem Ordered.of_le {limit pos earlier : Nat} {heads : List ListHead}
    (ordered : Ordered limit pos heads) (le : earlier ≤ pos) : Ordered limit earlier heads := by
  cases heads with
  | nil => exact le.trans ordered
  | cons head heads => exact ⟨le.trans ordered.1,ordered.2⟩

/-- String data in front of the next header is copied as it stands. -/
theorem interleave_advance {str : List UInt8} {pos count : Nat} {heads : List ListHead}
    (ordered : Ordered str.length (pos + count) heads) :
    interleave str pos heads = (str.drop pos).take count ++ interleave str (pos + count) heads := by
  cases heads with
  | nil => rw [interleave,interleave,← drop_drop,take_append_drop]
  | cons head heads =>
    have split : (str.take head.offset).drop pos =
        (str.drop pos).take count ++ (str.take head.offset).drop (pos + count) := by
      have before : ((str.take head.offset).drop pos).take count = (str.drop pos).take count := by
        rw [drop_take,take_take,min_eq_left (by have := ordered.1; omega)]
      rw [← before,← drop_drop,take_append_drop]
    rw [interleave,interleave,split,append_assoc]

/-- String data and headers that stand for `bytes` when they are placed at `offset`
of a buffer, whatever the buffer holds behind them. -/
structure Renders (offset : Nat) (data : List UInt8) (heads : List ListHead)
    (bytes : List UInt8) : Prop where
  ordered : ∀ {limit : Nat} {later : List ListHead},
    Ordered limit (offset + data.length) later → Ordered limit offset (heads ++ later)
  interleave_eq : ∀ {str back : List UInt8} {later : List ListHead},
    str.drop offset = data ++ back → Ordered str.length (offset + data.length) later →
    interleave str offset (heads ++ later) = bytes ++ interleave str (offset + data.length) later

namespace Renders

variable {offset : Nat} {data moreData bytes moreBytes : List UInt8}
  {heads moreHeads : List ListHead}

theorem raw (offset : Nat) (data : List UInt8) : Renders offset data [] data where
  ordered := by
    intro limit later ordered
    exact ordered.of_le (le_add_right offset data.length)
  interleave_eq := by
    intro str back later held ordered
    rw [nil_append,interleave_advance ordered,held,take_left]

theorem append (front : Renders offset data heads bytes)
    (back : Renders (offset + data.length) moreData moreHeads moreBytes) :
    Renders offset (data ++ moreData) (heads ++ moreHeads) (bytes ++ moreBytes) where
  ordered := by
    intro limit later ordered
    rw [length_append,← add_assoc] at ordered
    rw [append_assoc]
    exact front.ordered (back.ordered ordered)
  interleave_eq := by
    intro str behind later held ordered
    rw [length_append,← add_assoc] at ordered
    rw [append_assoc] at held
    have heldBack : str.drop (offset + data.length) = moreData ++ behind := by
      rw [← drop_drop,held,drop_left]
    rw [append_assoc,front.interleave_eq held (back.ordered ordered),
      back.interleave_eq heldBack ordered,length_append,append_assoc,add_assoc]

/-- A header in front of what stands for `bytes` stands for their list. -/
theorem list (inner : Renders offset data heads bytes) :
    Renders offset data (⟨offset,bytes.length⟩ :: heads) (listHeader bytes.length ++ bytes) where
  ordered := by
    intro limit later ordered
    exact ⟨le_rfl,inner.ordered ordered⟩
  interleave_eq := by
    intro str back later held ordered
    have noData : (str.take offset).drop offset = [] := by
      rw [drop_eq_nil_iff,length_take]
      omega
    rw [cons_append,interleave,noData,nil_append,ListHead.encode_eq,
      inner.interleave_eq held ordered,append_assoc]

end Renders

namespace EncBuffer

/-- The second buffer is the first with the encoding `bytes` added to it. -/
structure Appended (before after : EncBuffer) (bytes : List UInt8) : Prop where
  size_eq : after.size = before.size + bytes.length
  renders : ∃ data heads, after.str = before.str ++ data ∧
    after.lheads = before.lheads ++ heads ∧ Renders before.str.length data heads bytes

namespace Appended

variable {before between after : EncBuffer} {bytes moreBytes : List UInt8}

theorem refl (buf : EncBuffer) : Appended buf buf [] :=
  ⟨rfl,[],[],(append_nil _).symm,(append_nil _).symm,Renders.raw _ []⟩

theorem trans (first : Appended before between bytes)
    (second : Appended between after moreBytes) : Appended before after (bytes ++ moreBytes) := by
  obtain ⟨data,heads,strEq,headsEq,renders⟩ := first.renders
  obtain ⟨moreData,moreHeads,moreStrEq,moreHeadsEq,moreRenders⟩ := second.renders
  rw [strEq,length_append] at moreRenders
  constructor
  · rw [second.size_eq,first.size_eq,length_append,add_assoc]
  · refine ⟨data ++ moreData,heads ++ moreHeads,?_,?_,renders.append moreRenders⟩
    · rw [moreStrEq,strEq,append_assoc]
    · rw [moreHeadsEq,headsEq,append_assoc]

theorem write (buf : EncBuffer) (bytes : List UInt8) : Appended buf (buf.write bytes) bytes := by
  constructor
  · simp only [size,EncBuffer.write,length_append]
    omega
  · exact ⟨bytes,[],rfl,(append_nil _).symm,Renders.raw _ bytes⟩

/-- Between `list` and `listEnd` only the new header changes, and it gets the
size of what was encoded in between. -/
theorem listEnd {buf inner : EncBuffer} (appended : Appended buf.list.1 inner bytes) :
    ∃ after, inner.listEnd buf.list.2 = some after ∧
      Appended buf after (listHeader bytes.length ++ bytes) := by
  obtain ⟨data,heads,strEq,headsEq,renders⟩ := appended.renders
  have innerSize : inner.size = buf.str.length + buf.lhsize + bytes.length := appended.size_eq
  have headAt : inner.lheads[buf.lheads.length]? = some ⟨buf.str.length,buf.lhsize⟩ := by
    simp [headsEq,list]
  have sizeEq : inner.size - buf.str.length - buf.lhsize = bytes.length := by omega
  refine ⟨⟨inner.str,buf.lheads ++ ⟨buf.str.length,bytes.length⟩ :: heads,
    inner.lhsize + (listHeader bytes.length).length⟩,?_,?_,?_⟩
  · change inner.listEnd buf.lheads.length = _
    rw [EncBuffer.listEnd,headAt,Option.bind_eq_bind,Option.bind_some]
    simp only [sizeEq,← listHeader_length,headsEq]
    simp [list]
  · rw [length_append]
    simp only [size] at innerSize ⊢
    omega
  · exact ⟨data,_,strEq,rfl,renders.list⟩

end Appended

theorem encodeStringHeader_eq (buf : EncBuffer) (size : Nat) :
    buf.encodeStringHeader size = buf.write (stringHeader size) := by
  rw [stringHeader,← puthead_eq_header,encodeStringHeader,puthead]
  split <;> rfl

theorem write_write (buf : EncBuffer) (front back : List UInt8) :
    (buf.write front).write back = buf.write (front ++ back) := by
  simp [write]

theorem writeBytes_eq (buf : EncBuffer) (bytes : List UInt8) :
    buf.writeBytes bytes = buf.write (encodeString bytes) := by
  unfold writeBytes
  split
  · rename_i byte
    split
    · rename_i small
      rw [encodeString_singleton (by rw [lt_iff_toNat_lt]; exact lt_succ_of_le small)]
    · rename_i large
      have headed : selfEncoded [byte] = false := by
        rw [selfEncoded,decide_eq_false_iff_not]
        intro small
        exact large (le_of_lt_succ small)
      rw [encodeString_of_not_selfEncoded headed,encodeStringHeader_eq,write_write]
      rfl
  · rename_i notSingle
    have headed : selfEncoded bytes = false := by
      unfold selfEncoded
      split
      · rename_i byte
        exact absurd rfl (notSingle byte)
      · rfl
    rw [encodeString_of_not_selfEncoded headed,encodeStringHeader_eq,write_write]

theorem selfEncoded_minimal_iff {number : Nat} :
    selfEncoded (minimal number) = true ↔ 0 < number ∧ number < 128 := by
  constructor
  · intro single
    unfold selfEncoded at single
    split at single
    · rename_i byte minimalEq
      have valueEq := value_minimal number
      rw [minimalEq,value_singleton] at valueEq
      have noZero := minimal_noLeadingZero number
      rw [minimalEq,NoLeadingZero,head?_cons] at noZero
      have below : byte.toNat < 128 := of_decide_eq_true single
      refine ⟨pos_iff_ne_zero.mpr ?_,by omega⟩
      intro isZero
      rw [isZero] at valueEq
      exact noZero (congrArg some (UInt8.toNat_inj.mp valueEq))
    · cases single
  · rintro ⟨positive,small⟩
    rw [minimal_of_pos positive,div_eq_of_lt (by omega),minimal_zero,nil_append,
      selfEncoded,decide_eq_true_eq,lt_iff_toNat_lt,toNat_ofNat']
    exact (mod_le _ _).trans_lt ((mod_le _ _).trans_lt small)

theorem writeUint64_eq (buf : EncBuffer) (i : UInt64) :
    buf.writeUint64 i = buf.write (encodeString (minimal i.toNat)) := by
  rw [writeUint64]
  split
  · rename_i zero
    rw [zero]
    rfl
  · rename_i nonzero
    have positive : 0 < i.toNat := by
      rw [pos_iff_ne_zero]
      intro isZero
      exact nonzero (UInt64.toNat_inj.mp isZero)
    split
    · rename_i small
      have below : i.toNat < 128 := small
      rw [encodeString,if_pos (selfEncoded_minimal_iff.mpr ⟨positive,below⟩),
        minimal_of_pos positive,div_eq_of_lt (by omega),minimal_zero,nil_append,
        mod_eq_of_lt (by omega)]
      rfl
    · rename_i large
      have above : ¬ i.toNat < 128 := large
      have headed : selfEncoded (minimal i.toNat) = false := by
        rw [Bool.eq_false_iff]
        intro single
        exact above (selfEncoded_minimal_iff.mp single).2
      have short : (minimal i.toNat).length ≤ 8 := minimal_length_le_iff.mpr i.toNat_lt
      rw [encodeString_of_not_selfEncoded headed,stringHeader,header,if_pos (by omega),
        putint_eq_minimal positive]
      rfl

end EncBuffer

end PioplatRelay.Rlp
