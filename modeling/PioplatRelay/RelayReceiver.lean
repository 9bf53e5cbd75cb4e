import PioplatRelay.BufferedSockets
import PioplatRelay.LoopRuns
import PioplatRelay.RelayFrames

/-!
# What the two relay loops share

`handleTcpMsgLoop` and `handleUdpMsgLoop` receive a frame in the same stages:
fill the front of `recvBuf` with a header, compare its checksum, take the
length and the hash out of it, fill the front of `recvBuf` with the body and
compare the body's checksum.  The stages are specified by the unread bytes alone.
-/

namespace PioplatRelay

open LittleEndian List Nat

inductive Enqueue (Tx Block : Type)
  | transactions (peer : String) (txs : List Tx) (direct : Bool)
  | block (peer : String) (block : Block)
  deriving DecidableEq

/-- The node as a relay loop sees it.  Other goroutines work on the same pool,
so asking it may find it changed. -/
structure RelayNode (Pool Tx Block : Type) where
  crc : Checksum
  txCodec : ObjectCodec Tx
  blockCodec : ObjectCodec Block
  hasTransaction : Hash → Pool → Bool × Pool
  hasBlock : Hash → Pool → Bool × Pool
  enqueue : Enqueue Tx Block → Pool → Pool

/-- The variables of a relay loop, the pool it works on, and the calls it has
made so far. -/
structure Receiver (Pool Tx Block : Type) where
  reader : BufferedReader
  recvBuf : List UInt8
  hash : Hash
  pool : Pool
  enqueued : List (Enqueue Tx Block)

variable {Pool Tx Block : Type}

namespace Receiver

variable (receiver : Receiver Pool Tx Block)

/-- `io.ReadFull(rdr, recvBuf[:length])`: the bytes that came and how it ended. -/
def readFullInto (length : Nat) :
    Option (Nat × FullRead × Receiver Pool Tx Block) := do
  let _ ← slice receiver.recvBuf 0 length
  let result := receiver.reader.readFull length
  return (result.1.length, result.2.1, { receiver with
      reader := result.2.2
      recvBuf := copyAt receiver.recvBuf 0 result.1 })

def call (node : RelayNode Pool Tx Block)
    (enqueue : Enqueue Tx Block) : Receiver Pool Tx Block :=
  { receiver with
    pool := node.enqueue enqueue receiver.pool
    enqueued := receiver.enqueued ++ [enqueue] }

/-- Clear the type byte, then read the length and the hash. -/
def takeFields :
    Option (UInt32 × Receiver Pool Tx Block) := do
  let _ ← receiver.recvBuf[3]?
  let cleared := receiver.recvBuf.set 3 0
  let length ← slice cleared 0 lengthSize
  let hash ← slice cleared lengthSize (lengthSize + hashSize : Nat)
  return (uint32 length, { receiver with recvBuf := cleared, hash := receiver.hash.setBytes hash })

end Receiver

def headerIntact (crc : Checksum) (recvBuf : List UInt8) : Option Bool := do
  let covered ← slice recvBuf 0 (lengthSize + hashSize : Nat)
  let stored ← slice recvBuf (lengthSize + hashSize : Nat)
    (lengthSize + hashSize + crc32Size : Nat)
  return decide (crc covered = uint32 stored)

def bodyIntact (crc : Checksum) (recvBuf : List UInt8) (recvN : Nat) : Option Bool := do
  let covered ← slice recvBuf 0 ((recvN : Int) - crc32Size)
  let stored ← slice recvBuf ((recvN : Int) - crc32Size) recvN
  return decide (crc covered = uint32 stored)

namespace RelayNode

/-- Ask whether the announced hash is known; if not, decode the body and
enqueue the object. -/
def acceptObject {Object : Type} (node : RelayNode Pool Tx Block)
    (has : Hash → Pool → Bool × Pool) (decode : List UInt8 → Option Object)
    (enqueue : Object → Enqueue Tx Block) (recvN : Nat)
    (receiver : Receiver Pool Tx Block) : Option (Receiver Pool Tx Block) := do
  let (known, pool) := has receiver.hash receiver.pool
  let receiver := { receiver with pool := pool }
  if known then
    return receiver
  let data ← slice receiver.recvBuf 0 ((recvN : Int) - crc32Size)
  match decode data with
  | none => return receiver
  | some object => return receiver.call node (enqueue object)

def acceptTransaction (node : RelayNode Pool Tx Block) :
    Nat → Receiver Pool Tx Block → Option (Receiver Pool Tx Block) :=
  node.acceptObject node.hasTransaction node.txCodec.decode
    fun tx => .transactions ":" [tx] false

def acceptBlock (node : RelayNode Pool Tx Block) (addr : String) :
    Nat → Receiver Pool Tx Block → Option (Receiver Pool Tx Block) :=
  node.acceptObject node.hasBlock node.blockCodec.decode fun block => .block addr block

end RelayNode

/-- A small node to run the loops on: its objects are bytes, and its pool is
the list of the hashes enqueued so far. -/
def RelayNode.ofBytes (crc : Checksum) : RelayNode (List Hash) UInt8 UInt8 where
  crc := crc
  txCodec := .byte
  blockCodec := .byte
  hasTransaction hash pool := (decide (hash ∈ pool), pool)
  hasBlock hash pool := (decide (hash ∈ pool), pool)
  enqueue
    | .transactions _ txs _, pool => txs.map ObjectCodec.byte.hash ++ pool
    | .block _ block, pool => ObjectCodec.byte.hash block :: pool

/-! ## The stages, by the bytes they see -/

theorem headerIntact_front {bytes : List UInt8} (whole : headerSize ≤ bytes.length)
    (crc : Checksum) (rest : List UInt8) : headerIntact crc (bytes.take headerSize ++ rest) =
      some (decide (HeaderIntact crc bytes)) := by
  have frontLength : (bytes.take headerSize).length = 40 := by simpa [headerSize] using whole
  have covered : slice (bytes.take headerSize ++ rest) 0 (lengthSize + hashSize : Nat) =
      some (((bytes.take headerSize).take 36).drop 0) :=
    slice_append_left rest (zero_le _) (by simp [frontLength,lengthSize,hashSize])
  have stored : slice (bytes.take headerSize ++ rest) (lengthSize + hashSize : Nat)
      (lengthSize + hashSize + crc32Size : Nat) =
      some (((bytes.take headerSize).take 40).drop 36) :=
    slice_append_left rest (le_add_right _ _)
      (by simp [frontLength,lengthSize,hashSize,crc32Size])
  rw [take_take] at covered stored
  simp only [headerIntact,covered,stored]
  rfl

theorem declaredType_front {bytes : List UInt8} (whole : headerSize ≤ bytes.length)
    (rest : List UInt8) : (bytes.take headerSize ++ rest)[3]? = some (declaredType bytes) := by
  unfold headerSize at whole ⊢
  rw [getElem?_append_left (by simp only [length_take]; omega),
    getElem?_take_of_lt (by omega),getElem?_eq_getElem (by omega),declaredType,
    getD_eq_getElem _ _ (by omega)]

theorem slice_body {bytes : List UInt8} {length : Nat} (there : length ≤ bytes.length)
    (long : crc32Size ≤ length) (rest : List UInt8) :
    slice (bytes.take length ++ rest) 0 ((length : Int) - crc32Size) =
      some ((bytes.take length).take (length - crc32Size)) := by
  rw [← Int.ofNat_sub long]
  exact slice_append_left rest (zero_le _) (by simp [there])

/-- The body's checksum comparison is out of range exactly when the body is
shorter than the checksum. -/
theorem bodyIntact_front {bytes : List UInt8} {length : Nat} (there : length ≤ bytes.length)
    (crc : Checksum) (rest : List UInt8) : bodyIntact crc (bytes.take length ++ rest) length =
      if length < crc32Size then none
      else some (decide (crc ((bytes.take length).take (length - crc32Size)) =
        uint32 ((bytes.take length).drop (length - crc32Size)))) := by
  by_cases short : length < crc32Size
  · have negative : slice (bytes.take length ++ rest) 0 ((length : Int) - crc32Size) = none := by
      rw [slice_eq_none_iff]
      omega
    simp only [bodyIntact,negative,if_pos short]
    rfl
  · have long := Nat.le_of_not_lt short
    have stored : slice (bytes.take length ++ rest) ((length : Int) - crc32Size) length =
        some ((bytes.take length).drop (length - crc32Size)) := by
      rw [← Int.ofNat_sub long,slice_append_left rest (sub_le _ _) (by simp [there]),
        take_take,min_self]
    simp only [bodyIntact,slice_body there long,stored,if_neg short]
    rfl

namespace Receiver

variable {receiver : Receiver Pool Tx Block} {length : Nat}

theorem readFullInto_of_lt (above : receiver.recvBuf.length < length) :
    receiver.readFullInto length = none := by
  have outOfRange : slice receiver.recvBuf 0 length = none := by
    rw [slice_eq_none_iff]
    omega
  simp only [readFullInto,outOfRange]
  rfl

private theorem readFullInto_of_le (room : length ≤ receiver.recvBuf.length) :
    receiver.readFullInto length = some ((receiver.reader.readFull length).1.length,
        (receiver.reader.readFull length).2.1,
        { receiver with
          reader := (receiver.reader.readFull length).2.2
          recvBuf := copyAt receiver.recvBuf 0 (receiver.reader.readFull length).1 }) := by
  have inRange : slice receiver.recvBuf 0 length = some ((receiver.recvBuf.take length).drop 0) :=
    slice_of_le (zero_le _) room
  simp only [readFullInto,inRange]
  rfl

/-- With room in the buffer and enough bytes unread, the front of the buffer
becomes the first of them. -/
theorem readFullInto_filled (fits : receiver.reader.Fits length)
    (room : length ≤ receiver.recvBuf.length) (there : length ≤ receiver.reader.unread.length) :
    ∃ reader, receiver.readFullInto length = some (length, .filled,
          { receiver with
            reader := reader
            recvBuf := receiver.reader.unread.take length ++
              receiver.recvBuf.drop length }) ∧
      reader.unread = receiver.reader.unread.drop length ∧
      receiver.reader.Continues reader := by
  obtain ⟨reader,readEq,unreadEq,continues⟩ :=
    BufferedReader.readFull_filled fits there
  have taken : (receiver.reader.unread.take length).length = length := by simp [there]
  refine ⟨reader,?_,unreadEq,continues⟩
  rw [readFullInto_of_le room,readEq]
  dsimp only
  rw [copyAt_zero_of_le (by omega),taken]

theorem readFullInto_short (fits : receiver.reader.Fits length)
    (room : length ≤ receiver.recvBuf.length) (missing : receiver.reader.unread.length < length) :
    ∃ count status reader recvBuf, receiver.readFullInto length =
        some (count, status, { receiver with reader := reader, recvBuf := recvBuf }) ∧
      receiver.reader.CutOff status reader ∧
      recvBuf.length = receiver.recvBuf.length ∧
      receiver.reader.Continues reader := by
  obtain ⟨status,reader,readEq,cutOff,continues⟩ :=
    BufferedReader.readFull_short fits missing
  refine ⟨receiver.reader.unread.length,status,reader,
    copyAt receiver.recvBuf 0 receiver.reader.unread,?_,cutOff,by simp,continues⟩
  rw [readFullInto_of_le room,readEq]

theorem four_ahead {bytes : List UInt8} (enough : 4 ≤ bytes.length) :
    ∃ first second third fourth tail, bytes = first :: second :: third :: fourth :: tail := by
  rcases bytes with _ | ⟨first,_ | ⟨second,_ | ⟨third,_ | ⟨fourth,tail⟩⟩⟩⟩
  · exact absurd enough (by simp)
  · exact absurd enough (by simp)
  · exact absurd enough (by simp)
  · exact absurd enough (by simp)
  · exact ⟨first,second,third,fourth,tail,rfl⟩

theorem takeFields_front (receiver : Receiver Pool Tx Block) {bytes rest : List UInt8}
    (whole : headerSize ≤ bytes.length)
    (bufferEq : receiver.recvBuf = bytes.take headerSize ++ rest) :
    ∃ totalLength hash recvBuf, receiver.takeFields =
        some (totalLength, { receiver with recvBuf := recvBuf, hash := hash }) ∧
      recvBuf.length = receiver.recvBuf.length ∧
      totalLength.toNat = declaredLength bytes ∧ hash.bytes = declaredHash bytes := by
  set header := bytes.take headerSize with headerEq
  have lengthEq : header.length = 40 := by simpa [headerEq,headerSize] using whole
  have cleared : (header ++ rest).set 3 0 = header.set 3 0 ++ rest := by
    rw [set_append_left _ _ (by omega)]
  have lengthSlice : slice (header.set 3 0 ++ rest) 0 lengthSize = some ((header.set 3 0).take 4) :=
    slice_append_left rest (zero_le _) (by simp [lengthEq,lengthSize])
  have hashSlice : slice (header.set 3 0 ++ rest) lengthSize (lengthSize + hashSize : Nat) =
      some (((header.set 3 0).take 36).drop 4) :=
    slice_append_left rest (le_add_right _ _)
      (by simp [lengthEq,lengthSize,hashSize])
  have typeByte := declaredType_front whole rest
  rw [← headerEq] at typeByte
  refine ⟨uint32 ((header.set 3 0).take 4),
    receiver.hash.setBytes (((header.set 3 0).take 36).drop 4),header.set 3 0 ++ rest,
    ?_,?_,?_,?_⟩
  · simp only [takeFields,bufferEq,typeByte,cleared,lengthSlice,hashSlice]
    rfl
  · simp [bufferEq]
  · have sameLength : declaredLength bytes = declaredLength header := by
      simp [declaredLength,headerEq,headerSize,take_take]
    rw [uint32_toNat (by simp [lengthEq]),sameLength]
    obtain ⟨first,second,third,fourth,tail,headerEq⟩ :=
      four_ahead (by omega : 4 ≤ header.length)
    simp [headerEq,declaredLength,value]
  · have sameHash : declaredHash bytes = declaredHash header := by
      simp [declaredHash,headerEq,headerSize,take_take]
    rw [Hash.setBytes_bytes_of_length (by simp [lengthEq]),sameHash]
    obtain ⟨first,second,third,fourth,tail,headerEq⟩ :=
      four_ahead (by omega : 4 ≤ header.length)
    simp [headerEq,declaredHash]

/-- The effect of asking about an object and, if it is unknown, making a call
for it. -/
def handOver (receiver : Receiver Pool Tx Block) (node : RelayNode Pool Tx Block)
    (asked : Bool × Pool) (enqueue : Option (Enqueue Tx Block)) :
    Receiver Pool Tx Block :=
  let receiver := { receiver with pool := asked.2 }
  if asked.1 then receiver
  else match enqueue with
    | none => receiver
    | some enqueue => receiver.call node enqueue

section

variable (receiver) (node : RelayNode Pool Tx Block) (asked : Bool × Pool)
  (enqueue : Option (Enqueue Tx Block))

@[simp]
theorem handOver_reader : (receiver.handOver node asked enqueue).reader = receiver.reader := by
  unfold handOver
  split
  · rfl
  · split <;> rfl

@[simp]
theorem handOver_recvBuf : (receiver.handOver node asked enqueue).recvBuf = receiver.recvBuf := by
  unfold handOver
  split
  · rfl
  · split <;> rfl

theorem handOver_enqueued : (receiver.handOver node asked enqueue).enqueued = receiver.enqueued ∨
    ∃ call, asked.1 = false ∧ enqueue = some call ∧
      (receiver.handOver node asked enqueue).enqueued = receiver.enqueued ++ [call] := by
  unfold handOver
  split
  · exact .inl rfl
  · rename_i unknown
    cases enqueue with
    | none => exact .inl rfl
    | some call => exact .inr ⟨call,Bool.eq_false_of_not_eq_true unknown,rfl,rfl⟩

end

end Receiver

/-- A body of at least a checksum's length is handled in range. -/
theorem RelayNode.acceptObject_front {Object : Type} (node : RelayNode Pool Tx Block)
    (has : Hash → Pool → Bool × Pool) (decode : List UInt8 → Option Object)
    (enqueue : Object → Enqueue Tx Block) (receiver : Receiver Pool Tx Block)
    {bytes : List UInt8} {length : Nat} (there : length ≤ bytes.length)
    (long : crc32Size ≤ length) (rest : List UInt8) :
    node.acceptObject has decode enqueue length
        { receiver with recvBuf := bytes.take length ++ rest } =
      some (({ receiver with recvBuf := bytes.take length ++ rest } :
        Receiver Pool Tx Block).handOver node (has receiver.hash receiver.pool)
          ((decode ((bytes.take length).take (length - crc32Size))).map enqueue)) := by
  simp only [acceptObject,slice_body there long,Receiver.handOver]
  split
  · rfl
  · simp only [Option.bind_eq_bind,Option.bind_some]
    cases decode ((bytes.take length).take (length - crc32Size)) <;> rfl

end PioplatRelay
