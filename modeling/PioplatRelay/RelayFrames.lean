import PioplatRelay.LittleEndianWords
import PioplatRelay.SliceExpressions

/-!
# Relay frames

A frame has a header of forty bytes, which holds the length of the body in three
bytes, the type of the object in the fourth, the hash of the object, and a checksum
of these; the body is the encoded object and its own checksum.  The encoders fill a
zeroed message in place; `newMsg_eq` gives the layout they produce, and the
`declared` functions read the same layout back from any bytes.
-/

namespace PioplatRelay

open LittleEndian List

/-- `common.Hash`: 32 bytes. -/
@[ext]
structure Hash where
  bytes : List UInt8
  length_eq : bytes.length = 32
  deriving DecidableEq

namespace Hash

def zero : Hash := ⟨replicate 32 0,by simp⟩

/-- `SetBytes`: a longer string is cropped from the left, a shorter one fills
the right end and leaves the rest of the hash as it was. -/
def setBytes (hash : Hash) (bytes : List UInt8) : Hash where
  bytes := hash.bytes.take (32 - (bytes.drop (bytes.length - 32)).length) ++
    bytes.drop (bytes.length - 32)
  length_eq := by
    have hashLength := hash.length_eq
    simp only [length_append,length_take,length_drop]
    omega

theorem setBytes_bytes_of_length {hash : Hash} {bytes : List UInt8}
    (lengthEq : bytes.length = 32) : (hash.setBytes bytes).bytes = bytes := by
  simp [setBytes,lengthEq]

end Hash

theorem Hash.value_injective : Function.Injective fun hash : Hash => value hash.bytes := by
  intro first second same
  apply Hash.ext
  rw [← bytesOf_value first.bytes,← bytesOf_value second.bytes,first.length_eq,second.length_eq]
  exact congrArg (bytesOf 32) same

@[reducible]
def Hash.byValue : LinearOrder Hash := LinearOrder.lift' _ Hash.value_injective

/-- Frame layout constants of `handleTcpMsgLoop`, `handleUdpMsgLoop`,
`newBlockMsg` and `newTransactionMsg`. -/
def headerSize : Nat := 40
def lengthSize : Nat := 4
def hashSize : Nat := 32
def crc32Size : Nat := 4

def transactionMsg : UInt8 := 0x01
def blockMsg : UInt8 := 0x02

/-- `crc32.ChecksumIEEE`, or any function in its place. -/
abbrev Checksum := List UInt8 → UInt32

/-- Divide by the polynomial of IEEE 802.3, one bit a round. -/
def divideBits : Nat → UInt32 → UInt32
  | 0, crc => crc
  | bits + 1, crc =>
    divideBits bits (if crc &&& 1 = 1 then (crc >>> 1) ^^^ 0xedb88320 else crc >>> 1)

def checksumIEEE : Checksum := fun bytes =>
  ~~~ bytes.foldl (fun crc byte => divideBits 8 (crc ^^^ byte.toUInt32)) 0xffffffff

-- The check value of the polynomial, the checksum of the digits 1 to 9.
example : checksumIEEE [49, 50, 51, 52, 53, 54, 55, 56, 57] = 0xcbf43926 := by
  decide +kernel

/-- How objects of one kind are hashed and turned into bytes and back.  The
value `none` is an error of `rlp.EncodeToBytes` or `rlp.DecodeBytes`. -/
structure ObjectCodec (Object : Type*) where
  hash : Object → Hash
  encode : Object → Option (List UInt8)
  decode : List UInt8 → Option Object

def ObjectCodec.Lawful {Object : Type*} (codec : ObjectCodec Object) : Prop :=
  ∀ object data, codec.encode object = some data → codec.decode data = some object

def ObjectCodec.byte : ObjectCodec UInt8 where
  hash byte := ⟨replicate 31 0 ++ [byte], by simp⟩
  encode byte := some [byte]
  decode
    | [byte] => some byte
    | _ => none

theorem ObjectCodec.byte_lawful : ObjectCodec.byte.Lawful := by
  rintro object data encoded
  cases encoded
  rfl

variable (crc : Checksum) (msgType : UInt8) (hash : Hash)

def newMsg (data : List UInt8) :
    List UInt8 :=
  let message := replicate (headerSize + data.length + crc32Size) 0
  let message := copyAt message 0
    (putUint32 (UInt32.ofNat (data.length + crc32Size)))
  let message := message.set 3 msgType
  let message := copyAt message lengthSize hash.bytes
  let checksum := crc (message.take (lengthSize + hashSize))
  let message := copyAt message (lengthSize + hashSize) (putUint32 checksum)
  let message := copyAt message headerSize data
  copyAt message (headerSize + data.length) (putUint32 (crc data))

def newBlockMsg {Block : Type*} (crc : Checksum) (codec : ObjectCodec Block)
    (block : Block) : Option (List UInt8) :=
  (codec.encode block).map (newMsg crc blockMsg (codec.hash block))

def newTransactionMsg {Tx : Type*} (crc : Checksum) (codec : ObjectCodec Tx)
    (tx : Tx) : Option (List UInt8) :=
  (codec.encode tx).map (newMsg crc transactionMsg (codec.hash tx))

/-- The part of a frame header that its checksum covers. -/
def coveredHeader (length : Nat) (msgType : UInt8) (hash : Hash) : List UInt8 :=
  (putUint32 (UInt32.ofNat length)).take 3 ++ ([msgType] ++ hash.bytes)

@[simp]
theorem coveredHeader_length (length : Nat) (msgType : UInt8) (hash : Hash) :
    (coveredHeader length msgType hash).length = 36 := by
  simp [coveredHeader,hash.length_eq]

variable (crc : Checksum) (length : Nat) (msgType : UInt8) (hash : Hash)

def frameHeader :
    List UInt8 :=
  coveredHeader length msgType hash ++ putUint32 (crc (coveredHeader length msgType hash))

@[simp]
theorem frameHeader_length : (frameHeader crc length msgType hash).length = 40 := by
  simp [frameHeader]

private theorem replicate_layout (size : Nat) :
    replicate (headerSize + size + crc32Size) (0 : UInt8) =
      replicate 4 0 ++ (replicate 32 0 ++ (replicate 4 0 ++
        (replicate size 0 ++ replicate 4 0))) := by
  simp only [replicate_append_replicate]
  congr 1
  unfold headerSize crc32Size
  omega

private theorem set_three_append {word : List UInt8} (lengthEq : word.length = 4)
    (byte : UInt8) (after : List UInt8) :
    (word ++ after).set 3 byte = word.take 3 ++ ([byte] ++ after) := by
  match word, lengthEq with
  | [_,_,_,_], _ => rfl

theorem newMsg_eq (data : List UInt8) :
    newMsg crc msgType hash data =
      frameHeader crc (data.length + crc32Size) msgType hash ++ (data ++ putUint32 (crc data)) := by
  have hashLength := hash.length_eq
  have start (after : List UInt8) (word : UInt32) :
      copyAt (replicate 4 0 ++ after) 0 (putUint32 word) = putUint32 word ++ after :=
    copyAt_append [] (replicate 4 0) after (putUint32 word) rfl (by simp)
  unfold newMsg
  simp only [replicate_layout,start,set_three_append (putUint32_length _)]
  set word := (putUint32 (UInt32.ofNat (data.length + crc32Size))).take 3 with wordEq
  have wordLength : word.length = 3 := by simp [wordEq]
  rw [← append_assoc word,copyAt_append _ _ _ _ (by simp [wordLength,lengthSize])
    (by simp [hashLength])]
  have covered : (word ++ [msgType]) ++ (hash.bytes ++ (replicate 4 0 ++
      (replicate data.length 0 ++ replicate 4 0))) =
      coveredHeader (data.length + crc32Size) msgType hash ++ (replicate 4 0 ++
        (replicate data.length 0 ++ replicate 4 0)) := by
    simp [coveredHeader,wordEq]
  have taken (after : List UInt8) :
      (coveredHeader (data.length + crc32Size) msgType hash ++ after).take
        (lengthSize + hashSize) =
        coveredHeader (data.length + crc32Size) msgType hash :=
    take_left' (by simp [lengthSize,hashSize])
  rw [covered,taken,copyAt_append _ _ _ _ (by simp [lengthSize,hashSize]) (by simp),
    ← append_assoc (coveredHeader _ _ _)]
  change copyAt (copyAt (frameHeader crc (data.length + crc32Size) msgType hash ++ _) _ _) _ _ = _
  rw [copyAt_append _ _ _ _ (by simp [headerSize]) (by simp),← append_assoc,
    ← append_nil (replicate 4 0),copyAt_append _ _ _ _ (by simp [headerSize]) (by simp)]
  simp

theorem newMsg_length (data : List UInt8) :
    (newMsg crc msgType hash data).length = headerSize + data.length + crc32Size := by
  simp only [newMsg_eq,crc32Size,length_append,frameHeader_length,putUint32_length,headerSize]
  omega

/-! ## Headers in arbitrary bytes -/

def HeaderIntact (crc : Checksum) (bytes : List UInt8) : Prop :=
  crc (bytes.take 36) = uint32 ((bytes.take 40).drop 36)

instance (crc : Checksum) (bytes : List UInt8) : Decidable (HeaderIntact crc bytes) :=
  inferInstanceAs (Decidable (_ = _))

def declaredLength (bytes : List UInt8) : Nat := value (bytes.take 3)

def declaredType (bytes : List UInt8) : UInt8 := bytes.getD 3 0

def declaredHash (bytes : List UInt8) : List UInt8 := (bytes.take 36).drop 4

variable {bytes data : List UInt8} {crc : Checksum}

theorem declaredLength_lt (long : 3 ≤ bytes.length) : declaredLength bytes < 2 ^ 24 := by
  have bounded := value_lt (bytes.take 3)
  rw [length_take,Nat.min_eq_left long] at bounded
  exact bounded

/-! ## The fields of a frame read back -/

theorem headerIntact_frameHeader (crc : Checksum) (length : Nat) (msgType : UInt8)
    (hash : Hash) (rest : List UInt8) :
    HeaderIntact crc (frameHeader crc length msgType hash ++ rest) := by
  have covered : (frameHeader crc length msgType hash ++ rest).take 36 =
      coveredHeader length msgType hash := by
    rw [frameHeader,append_assoc]
    exact take_left' (by simp)
  have stored : ((frameHeader crc length msgType hash ++ rest).take 40).drop 36 =
      putUint32 (crc (coveredHeader length msgType hash)) := by
    rw [take_left' (by simp),frameHeader]
    exact drop_left' (by simp)
  rw [HeaderIntact,covered,stored,uint32_putUint32]

theorem declaredLength_frameHeader {length : Nat} (bounded : length < 2 ^ 24)
    (crc : Checksum) (msgType : UInt8) (hash : Hash) (rest : List UInt8) :
    declaredLength (frameHeader crc length msgType hash ++ rest) = length := by
  have word : putUint32 (UInt32.ofNat length) = bytesOf 3 length ++ [0] := by
    rw [putUint32,UInt32.toNat_ofNat',Nat.mod_eq_of_lt (by omega)]
    exact bytesOf_succ_of_lt (by omega)
  have taken : (frameHeader crc length msgType hash ++ rest).take 3 = bytesOf 3 length := by
    have low : (bytesOf 3 length ++ [0]).take 3 = bytesOf 3 length :=
      take_left' (by simp)
    rw [frameHeader,coveredHeader,word,low,append_assoc,append_assoc]
    exact take_left' (by simp)
  rw [declaredLength,taken,value_bytesOf_of_lt (by omega)]

theorem declaredType_frameHeader (crc : Checksum) (length : Nat) (msgType : UInt8)
    (hash : Hash) (rest : List UInt8) :
    declaredType (frameHeader crc length msgType hash ++ rest) = msgType := by
  simp [declaredType,frameHeader,coveredHeader]

theorem declaredHash_frameHeader (crc : Checksum) (length : Nat) (msgType : UInt8)
    (hash : Hash) (rest : List UInt8) :
    declaredHash (frameHeader crc length msgType hash ++ rest) = hash.bytes := by
  have covered : (frameHeader crc length msgType hash ++ rest).take 36 =
      ((putUint32 (UInt32.ofNat length)).take 3 ++ [msgType]) ++ hash.bytes := by
    rw [frameHeader,append_assoc,take_left' (by simp),coveredHeader,append_assoc]
  rw [declaredHash,covered]
  exact drop_left' (by simp)

/-- The bytes begin with a whole frame for `data`, and go on with `rest`. -/
structure FrameAhead (crc : Checksum) (msgType : UInt8) (hash : Hash)
    (data rest bytes : List UInt8) : Prop where
  whole : headerSize ≤ bytes.length
  intact : HeaderIntact crc bytes
  length_eq : declaredLength bytes = data.length + crc32Size
  type_eq : declaredType bytes = msgType
  hash_eq : declaredHash bytes = hash.bytes
  body_eq : bytes.drop headerSize = (data ++ putUint32 (crc data)) ++ rest

theorem newMsg_frameAhead (crc : Checksum) (msgType : UInt8) (hash : Hash)
    (small : data.length + crc32Size < 2 ^ 24) (rest : List UInt8) :
    FrameAhead crc msgType hash data rest (newMsg crc msgType hash data ++ rest) := by
  rw [newMsg_eq,append_assoc]
  exact {
    whole := by simp [headerSize]
    intact := headerIntact_frameHeader ..
    length_eq := declaredLength_frameHeader small ..
    type_eq := declaredType_frameHeader ..
    hash_eq := declaredHash_frameHeader ..
    body_eq := drop_left' (by simp [headerSize]) }

theorem FrameAhead.body_cut {msgType : UInt8} {hash : Hash} {rest : List UInt8}
    (ahead : FrameAhead crc msgType hash data rest bytes) {length : Nat}
    (lengthEq : length = data.length + crc32Size) : length ≤ (bytes.drop headerSize).length ∧
      ((bytes.drop headerSize).take length).take (length - crc32Size) = data ∧
      ((bytes.drop headerSize).take length).drop (length - crc32Size) =
        putUint32 (crc data) ∧ (bytes.drop headerSize).drop length = rest := by
  have bodyLength : (data ++ putUint32 (crc data)).length = length := by simp [lengthEq,crc32Size]
  have dataLength : data.length = length - crc32Size := by omega
  rw [ahead.body_eq,take_left' bodyLength,drop_left' bodyLength,
    take_left' dataLength,drop_left' dataLength]
  exact ⟨by simp only [length_append] at bodyLength ⊢; omega,rfl,rfl,rfl⟩

theorem FrameAhead.unique {firstType secondType : UInt8} {first second : Hash}
    {other rest otherRest : List UInt8} (ahead : FrameAhead crc firstType first data rest bytes)
    (again : FrameAhead crc secondType second other otherRest bytes) :
    firstType = secondType ∧ first = second ∧ data = other := by
  refine ⟨ahead.type_eq.symm.trans again.type_eq,
    Hash.ext (ahead.hash_eq.symm.trans again.hash_eq),?_⟩
  rw [← (ahead.body_cut ahead.length_eq).2.1,← (again.body_cut again.length_eq).2.1]

theorem FrameAhead.of_body {hash : Hash} (whole : headerSize ≤ bytes.length)
    (intact : HeaderIntact crc bytes) (hashEq : declaredHash bytes = hash.bytes)
    (long : crc32Size ≤ declaredLength bytes)
    (there : declaredLength bytes ≤ (bytes.drop headerSize).length) :
    let body := (bytes.drop headerSize).take (declaredLength bytes)
    let data := body.take (declaredLength bytes - crc32Size)
    crc data = uint32 (body.drop (declaredLength bytes - crc32Size)) →
      FrameAhead crc (declaredType bytes) hash data
        ((bytes.drop headerSize).drop (declaredLength bytes)) bytes := by
  intro body data checksumEq
  have bodyLength : body.length = declaredLength bytes := by
    simp only [body,length_take]
    omega
  have dataLength : data.length = declaredLength bytes - crc32Size := by
    simp only [data,length_take]
    omega
  have storedLength : (body.drop (declaredLength bytes - crc32Size)).length = 4 := by
    rw [length_drop,bodyLength]
    unfold crc32Size at long ⊢
    omega
  refine ⟨whole,intact,by omega,rfl,hashEq,?_⟩
  rw [checksumEq,putUint32_uint32 storedLength,take_append_drop,take_append_drop]

end PioplatRelay
