import PioplatRelay.RlpEncBuffer

/-!
# The decoding stream

A stream knows the bytes that remain of the input and, for every list it has
entered, the bytes that remain of the list.  `kind` reads the header of the value
ahead and keeps the result until the value is read; a header is compared with the
limits that stood before it was read, and the limits are unsigned machine words that
may wrap around.  Every operation returns the stream afterwards, also when it fails.
-/

namespace PioplatRelay.Rlp

open BigEndian

inductive Kind
  | byte
  | string
  | list
  deriving DecidableEq, Repr

inductive DecodeErr
  | eol
  | eof
  | unexpectedEOF
  | expectedString
  | expectedList
  | canonInt
  | canonSize
  | elemTooLarge
  | valueTooLarge
  | moreThanOneValue
  | notInList
  | notAtEOL
  | uintOverflow
  /-- `decodeError`: the message, the type and the context, innermost first. -/
  | decodeError (msg typ : String) (ctx : List String)
  /-- An error that a `DecodeRLP` method adds. -/
  | other (text : String)
  /-- The model's loops ran longer than the input allows; this never happens. -/
  | outOfFuel
  deriving DecidableEq, Repr

/-- `wrapStreamError`: errors of the stream that name the type decoded into. -/
def wrapStreamError (typ : String) : DecodeErr → DecodeErr
  | .canonInt => .decodeError "non-canonical integer (leading zero bytes)" typ []
  | .canonSize => .decodeError "non-canonical size information" typ []
  | .expectedList => .decodeError "expected input list" typ []
  | .expectedString => .decodeError "expected input string or byte" typ []
  | .uintOverflow => .decodeError "input string too long" typ []
  | .notAtEOL => .decodeError "input list has too many elements" typ []
  | err => err

def addErrorContext (ctx : String) : DecodeErr → DecodeErr
  | .decodeError msg typ ctxs => .decodeError msg typ (ctxs ++ [ctx])
  | err => err

/-- `Stream` over a `bytes.Reader`.  The auxiliary `uintbuf` is left out, as it is
filled before each use. -/
structure Stream where
  /-- What the reader has still to give. -/
  input : List UInt8
  /-- Number of bytes remaining to be read. -/
  remaining : UInt64
  sizeAhead : UInt64
  kinderr : Option DecodeErr
  /-- List sizes, innermost first. -/
  stack : List UInt64
  /-- Kind of value ahead, none if it has not been read. -/
  kindAhead : Option Kind
  /-- Value of single byte in type tag. -/
  byteval : UInt8
  /-- True if input limit is in effect. -/
  limited : Bool
  deriving DecidableEq, Repr

inductive Result (α : Type)
  | ok (value : α) (after : Stream)
  | err (error : DecodeErr) (after : Stream)
  deriving DecidableEq, Repr

def Decoder (α : Type) : Type := Stream → Result α

namespace Decoder

def fail {α : Type} (error : DecodeErr) : Decoder α := fun s => .err error s

instance : Monad Decoder where
  pure value := fun s => .ok value s
  bind first next := fun s =>
    match first s with
    | .ok value after => next value after
    | .err error after => .err error after

def mapErr {α : Type} (change : DecodeErr → DecodeErr) (decoder : Decoder α) : Decoder α :=
  fun s =>
    match decoder s with
    | .ok value after => .ok value after
    | .err error after => .err (change error) after

end Decoder

namespace Stream

/-- Rearms `kind`: the value ahead counts as read. -/
def rearm : Decoder Unit := fun s => .ok () { s with kindAhead := none }

def listLimit (s : Stream) : Option UInt64 := s.stack.head?

/-- `willRead` checks `n` against the limits and updates them. -/
def willRead (n : UInt64) : Decoder Unit := fun s =>
  let s := { s with kindAhead := none }
  match s.stack with
  | limit :: _ =>
    if n > limit then .err .elemTooLarge s
    else limitRemaining { s with stack := (limit - n) :: s.stack.tail }
  | [] => limitRemaining s
where
  limitRemaining (s : Stream) : Result Unit :=
    if s.limited then
      if n > s.remaining then .err .valueTooLarge s
      else .ok () { s with remaining := s.remaining - n }
    else .ok () s

def nextByte : Decoder UInt8 := fun s =>
  match s.input with
  | [] => .err .unexpectedEOF s
  | byte :: rest => .ok byte { s with input := rest }

/-- `Read` of the reader, until `count` bytes have been read. -/
def nextBytes (count : Nat) : Decoder (List UInt8) := fun s =>
  if s.input.length < count then .err .unexpectedEOF { s with input := [] }
  else .ok (s.input.take count) { s with input := s.input.drop count }

def readByte : Decoder UInt8 := do
  willRead 1
  nextByte

def readFull (n : UInt64) : Decoder (List UInt8) := do
  willRead n
  nextBytes n.toNat

/-- Reads a number of up to eight bytes, without a leading zero byte from two bytes on. -/
def readUint (size : UInt8) : Decoder UInt64 :=
  if size = 0 then do
    rearm
    pure 0
  else if size = 1 then do
    let byte ← readByte
    pure byte.toUInt64
  else do
    let bytes ← readFull size.toUInt64
    if bytes.head? = some 0 then Decoder.fail .canonSize
    else pure (UInt64.ofNat (value (List.replicate (8 - size.toNat) 0 ++ bytes)))

/-- Reads a length of `lengthSize` bytes that needs the long form. -/
def readLongSize (lengthSize : UInt8) : Decoder UInt64 := do
  let size ← readUint lengthSize
  if size < 56 then Decoder.fail .canonSize else pure size

/-- At toplevel the end of the input is reported as such. -/
def toplevelEOF {α : Type} (decoder : Decoder α) : Decoder α := fun s =>
  match decoder s with
  | .ok value after => .ok value after
  | .err error after =>
    if after.stack = [] ∧ (error = .unexpectedEOF ∨ error = .valueTooLarge) then .err .eof after
    else .err error after

def setByteval (byte : UInt8) : Decoder Unit := fun s => .ok () { s with byteval := byte }

def readTag (byte : UInt8) : Decoder (Kind × UInt64) :=
  if byte < 0x80 then do
    setByteval byte
    pure (.byte, 0)
  else if byte < 0xB8 then pure (.string, (byte - 0x80).toUInt64)
  else if byte < 0xC0 then do
    let size ← readLongSize (byte - 0xB7)
    pure (.string, size)
  else if byte < 0xF8 then pure (.list, (byte - 0xC0).toUInt64)
  else do
    let size ← readLongSize (byte - 0xF7)
    pure (.list, size)

def readKind : Decoder (Kind × UInt64) := do
  let byte ← toplevelEOF readByte
  setByteval 0
  readTag byte

/-- The check of a header against the innermost list as it was before the header,
and against the rest of the input. -/
def sizeError (limit : Option UInt64) (size : UInt64) (s : Stream) : Option DecodeErr :=
  if limit.any (size > ·) then some .elemTooLarge
  else if s.limited ∧ size > s.remaining then some .valueTooLarge
  else none

/-- The kind and size of the next value in the input stream.  Where reading the
header fails, the error is kept; the kind and size kept with it are not looked
at, because the error is returned first. -/
def kind : Decoder (Kind × UInt64) := fun s =>
  match s.kindAhead with
  | some kind =>
    match s.kinderr with
    | none => .ok (kind, s.sizeAhead) s
    | some error => .err error s
  | none =>
    if s.listLimit = some 0 then .err .eol s
    else
      match readKind s with
      | .err error after =>
        .err error
          { after with kindAhead := some .byte, sizeAhead := 0, kinderr := some error }
      | .ok (kind, size) after =>
        let after := { after with kindAhead := some kind, sizeAhead := size }
        match sizeError s.listLimit size after with
        | some error => .err error { after with kinderr := some error }
        | none => .ok (kind, size) { after with kinderr := none }

def takeByteval : Decoder UInt8 := fun s => .ok s.byteval { s with kindAhead := none }

/-- Reads a string of the given size, which must not be one that is its own encoding. -/
def readString (size : UInt64) : Decoder (List UInt8) := do
  let bytes ← readFull size
  if selfEncoded bytes then Decoder.fail .canonSize else pure bytes

def bytes : Decoder (List UInt8) := do
  let (kind, size) ← kind
  match kind with
  | .byte => do
      let byte ← takeByteval
      pure [byte]
  | .string => readString size
  | .list => Decoder.fail .expectedString

/-- The number that was in the type tag; zero has another encoding. -/
def takeByteUint : Decoder UInt64 := fun s =>
  if s.byteval = 0 then .err .canonInt s
  else .ok s.byteval.toUInt64 { s with kindAhead := none }

def uint (maxbits : UInt64) : Decoder UInt64 := do
  let (kind, size) ← kind
  match kind with
  | .byte => takeByteUint
  | .string =>
    if size > maxbits / 8 then Decoder.fail .uintOverflow
    else do
      let number ← (readUint size.toUInt8).mapErr
        fun error => if error = .canonSize then .canonInt else error
      if size > 0 ∧ number < 128 then Decoder.fail .canonSize else pure number
  | .list => Decoder.fail .expectedString

def decodeBigInt : Decoder Nat := do
  let (kind, size) ← kind
  let buffer ← (match kind with
    | .list => Decoder.fail .expectedString
    | .byte => do
        let byte ← takeByteval
        pure [byte]
    | .string =>
      if size = 0 then do
        rearm
        pure []
      else if size ≤ 32 then readString size
      else readFull size : Decoder (List UInt8))
  if buffer.head? = some 0 then Decoder.fail .canonInt else pure (value buffer)

def enterList (size : UInt64) : Decoder UInt64 := fun s =>
  .ok size { s with
    stack := size :: s.stack.modifyHead (· - size)
    kindAhead := none
    sizeAhead := 0 }

def list : Decoder UInt64 := do
  let (kind, size) ← kind
  if kind = .list then enterList size else Decoder.fail .expectedList

def listEnd : Decoder Unit := fun s =>
  match s.stack with
  | [] => .err .notInList s
  | limit :: rest =>
    if limit > 0 then .err .notAtEOL s
    else .ok () { s with stack := rest, kindAhead := none, sizeAhead := 0 }

end Stream

/-! ### Decoders of types -/

section Types

variable {α : Type}

/-- The loop of `decodeSliceElems`, from element `i` on. -/
def sliceLoop (elemdec : Decoder α) : Nat → Nat → Decoder (List α)
  | 0, _ => Decoder.fail .outOfFuel
  | rounds + 1, i => fun s =>
    match elemdec s with
    | .err error after =>
      if error = .eol then .ok [] after
      else .err (addErrorContext ("[" ++ toString i ++ "]") error) after
    | .ok element after =>
      (do
        let elements ← sliceLoop elemdec rounds (i + 1)
        pure (element :: elements) : Decoder (List α)) after

/-- An element has at least one byte, so that the input bounds the rounds. -/
def decodeSliceElems (elemdec : Decoder α) : Decoder (List α) := fun s =>
  sliceLoop elemdec (s.input.length + 1) 0 s

/-- The frame of every list decoder: enter the list, decode its elements, and
return to the enclosing list. -/
def decodeEnclosed (typ : String) (endError : DecodeErr → DecodeErr)
    (elements : UInt64 → Decoder α) : Decoder α := do
  let size ← Stream.list.mapErr (wrapStreamError typ)
  let value ← elements size
  Stream.listEnd.mapErr endError
  pure value

/-- `decodeListSlice`: an empty list gives an empty slice right away. -/
def decodeListSlice (typ : String) (elemdec : Decoder α) : Decoder (List α) :=
  decodeEnclosed typ id fun size =>
    if size = 0 then pure [] else decodeSliceElems elemdec

/-- `decodeInterface` decodes any value; the fuel bounds the depth of lists. -/
def decodeInterface : Nat → Decoder Item
  | 0 => Decoder.fail .outOfFuel
  | depth + 1 => do
      let (kind, _) ← Stream.kind
      if kind = .list then do
        let elements ← decodeListSlice "[]interface {}" (decodeInterface depth)
        pure (.list elements)
      else do
        let bytes ← Stream.bytes
        pure (.str bytes)

def decode (typ : String) (decoder : Decoder α) : Decoder α :=
  decoder.mapErr fun
    | .decodeError msg errTyp (ctx :: ctxs) =>
      .decodeError msg errTyp (ctx :: ctxs ++ ["(" ++ typ ++ ")"])
    | error => error

/-- `Reset` with a reader over the bytes; their number is the input limit, also
where it is zero. -/
def Stream.reset (bytes : List UInt8) : Stream :=
  ⟨bytes, UInt64.ofNat bytes.length, 0, none, [], none, 0, true⟩

def decodeBytes (typ : String) (decoder : Decoder α) (bytes : List UInt8) :
    Except DecodeErr α :=
  match decode typ decoder (Stream.reset bytes) with
  | .err error _ => .error error
  | .ok value after => if after.input.length > 0 then .error .moreThanOneValue else .ok value

end Types

def decodeBytesInterface (bytes : List UInt8) : Except DecodeErr Item :=
  decodeBytes "interface {}" (decodeInterface (bytes.length + 1)) bytes

mutual

/-- The writer of `interface{}` values: byte slices and slices of such values. -/
def writeInterface : Item → EncBuffer → Option EncBuffer
  | .str bytes, buf => some (buf.writeBytes bytes)
  | .list [], buf => some (buf.write [0xC0])
  | .list (first :: elements), buf => do
      let buf' ← writeInterface first buf.list.1
      let buf' ← writeElements elements buf'
      buf'.listEnd buf.list.2

def writeElements : List Item → EncBuffer → Option EncBuffer
  | [], buf => some buf
  | element :: elements, buf => do
      let buf ← writeInterface element buf
      writeElements elements buf

end

/-- `EncodeToBytes` of a value made of byte slices and slices of `interface{}`. -/
def encodeToBytes (item : Item) : Option (List UInt8) := do
  let buf ← writeInterface item .empty
  buf.makeBytes

end PioplatRelay.Rlp
