import PioplatRelay.DisguiseSteps

/-!
# Frames of the requests

The comment in front of each request function states the layout of its frame:
a command of four bytes and then hashes and little-endian numbers.  Seven of the
nine functions write what they were called with.  `RequestHeaderByHashAndNumber`
puts its number into the middle of the hash, and `RequestReceiptsByHash` has
room for eight bytes of its hash only.
-/

namespace PioplatRelay

open List LittleEndian

namespace DisguiseClient

/-! ## The documented layouts -/

inductive Command
  | getHeaderByHash
  | getHeaderByNumber
  | getHeaderByHashAndNumber
  | getAncestor
  | getBlockBodyRlpByHash
  | getReceiptsByHash
  | getContractCodeWithPrefix
  | getTrieNode
  | getTotalDifficulty
  deriving DecidableEq, Repr

def Command.characters : Command → List Char
  | getHeaderByHash => ['2', '1', '0', '0']
  | getHeaderByNumber => ['2', '2', '0', '0']
  | getHeaderByHashAndNumber => ['2', '3', '0', '0']
  | getAncestor => ['3', '0', '0', '0']
  | getBlockBodyRlpByHash => ['4', '0', '0', '0']
  | getReceiptsByHash => ['5', '0', '0', '0']
  | getContractCodeWithPrefix => ['6', '0', '0', '0']
  | getTrieNode => ['7', '0', '0', '0']
  | getTotalDifficulty => ['8', '0', '0', '0']

def commands : List Command :=
  [.getHeaderByHash, .getHeaderByNumber, .getHeaderByHashAndNumber, .getAncestor,
    .getBlockBodyRlpByHash, .getReceiptsByHash, .getContractCodeWithPrefix, .getTrieNode,
    .getTotalDifficulty]

inductive Field
  | hash
  | number
  deriving DecidableEq

/-- The fields behind the command, as the comments list them. -/
def Command.layout : Command → List Field
  | getHeaderByHash => [.hash]
  | getHeaderByNumber => [.number]
  | getHeaderByHashAndNumber => [.hash, .number]
  | getAncestor => [.hash, .number, .number, .number]
  | getBlockBodyRlpByHash => [.hash]
  | getReceiptsByHash => [.hash]
  | getContractCodeWithPrefix => [.hash]
  | getTrieNode => [.hash]
  | getTotalDifficulty => [.hash, .number]

inductive Argument
  | hash (value : Hash)
  | number (value : UInt64)
  deriving DecidableEq

def Argument.field : Argument → Field
  | hash _ => .hash
  | number _ => .number

def Argument.bytes : Argument → List UInt8
  | hash value => value.bytes
  | number value => putUint64 value

/-- A field at the front of some bytes, and what follows it. -/
def readField : Field → List UInt8 → Option (Argument × List UInt8)
  | .hash, bytes =>
    if whole : (bytes.take hashSize).length = 32 then
      some (.hash ⟨bytes.take hashSize,whole⟩, bytes.drop hashSize)
    else none
  | .number, bytes =>
    if blockNumberSize ≤ bytes.length then
      some (.number (UInt64.ofNat (value (bytes.take blockNumberSize))),
        bytes.drop blockNumberSize)
    else none

def readFields : List Field → List UInt8 → Option (List Argument)
  | [], bytes => if bytes = [] then some [] else none
  | field :: fields, bytes => do
      let (argument, rest) ← readField field bytes
      let arguments ← readFields fields rest
      return argument :: arguments

def Request.ofArguments : Command → List Argument → Option Request
  | .getHeaderByHash, [.hash hash] => some (.headerByHash hash)
  | .getHeaderByNumber, [.number number] => some (.headerByNumber number)
  | .getHeaderByHashAndNumber, [.hash hash, .number number] =>
    some (.headerByHashAndNumber hash number)
  | .getAncestor, [.hash hash, .number blockNumber, .number distance, .number maxNonCanonical] =>
    some (.ancestor hash blockNumber distance maxNonCanonical)
  | .getBlockBodyRlpByHash, [.hash hash] => some (.blockBodyRLP hash)
  | .getReceiptsByHash, [.hash hash] => some (.receiptsByHash hash)
  | .getContractCodeWithPrefix, [.hash hash] => some (.contractCodeWithPrefix hash)
  | .getTrieNode, [.hash hash] => some (.trieNodeByHash hash)
  | .getTotalDifficulty, [.hash hash, .number number] => some (.totalDifficulty hash number)
  | _, _ => none

def readFrame (frame : List UInt8) : Option Request := do
  let cmd ← commands.find? fun cmd => command cmd.characters = frame.take cmdSize
  let arguments ← readFields cmd.layout (frame.drop cmdSize)
  Request.ofArguments cmd arguments

def Request.command : Request → Command
  | headerByHash _ => .getHeaderByHash
  | headerByHashAndNumber _ _ => .getHeaderByHashAndNumber
  | headerByNumber _ => .getHeaderByNumber
  | blockBodyRLP _ => .getBlockBodyRlpByHash
  | receiptsByHash _ => .getReceiptsByHash
  | trieNodeByHash _ => .getTrieNode
  | contractCodeWithPrefix _ => .getContractCodeWithPrefix
  | ancestor _ _ _ _ => .getAncestor
  | totalDifficulty _ _ => .getTotalDifficulty

def Request.arguments : Request → List Argument
  | headerByHash hash => [.hash hash]
  | headerByHashAndNumber hash number => [.hash hash, .number number]
  | headerByNumber number => [.number number]
  | blockBodyRLP hash => [.hash hash]
  | receiptsByHash hash => [.hash hash]
  | trieNodeByHash hash => [.hash hash]
  | contractCodeWithPrefix hash => [.hash hash]
  | ancestor hash blockNumber distance maxNonCanonical =>
    [.hash hash, .number blockNumber, .number distance, .number maxNonCanonical]
  | totalDifficulty hash number => [.hash hash, .number number]

@[simp]
theorem ofArguments_arguments (request : Request) :
    Request.ofArguments request.command request.arguments = some request := by
  cases request <;> rfl

theorem layout_eq_fields (request : Request) :
    request.command.layout = request.arguments.map Argument.field := by
  cases request <;> rfl

/-! ## Reading a layout -/

@[simp]
theorem value_putUint64 (word : UInt64) : UInt64.ofNat (value (putUint64 word)) = word := by
  have bounded : word.toNat < 256 ^ 8 := word.toNat_lt
  rw [putUint64,value_bytesOf_of_lt bounded,UInt64.ofNat_toNat]

theorem readField_bytes (argument : Argument) (rest : List UInt8) :
    readField argument.field (argument.bytes ++ rest) = some (argument, rest) := by
  cases argument with
  | hash value =>
    have front : (value.bytes ++ rest).take hashSize = value.bytes :=
      take_left' value.length_eq
    have behind : (value.bytes ++ rest).drop hashSize = rest :=
      drop_left' value.length_eq
    simp [readField,Argument.field,Argument.bytes,front,behind,value.length_eq]
  | number value =>
    have front : (putUint64 value ++ rest).take 8 = putUint64 value :=
      take_left' (putUint64_length value)
    have behind : (putUint64 value ++ rest).drop 8 = rest := drop_left' (putUint64_length value)
    simp [readField,Argument.field,Argument.bytes,blockNumberSize,front,behind]

theorem readFields_packed (arguments : List Argument) :
    readFields (arguments.map Argument.field) (arguments.flatMap Argument.bytes) =
      some arguments := by
  induction arguments with
  | nil => rfl
  | cons argument arguments ih =>
    rw [map_cons,flatMap_cons,readFields,readField_bytes]
    simp [ih]

variable (cmd : Command)

theorem find_command :
    (commands.find? fun other => command other.characters = command cmd.characters) = some cmd := by
  cases cmd <;> decide

theorem command_length : (command cmd.characters).length = cmdSize := by
  cases cmd <;> rfl

theorem readFrame_command (fields : List UInt8) : readFrame (command cmd.characters ++ fields) =
      (readFields cmd.layout fields).bind (Request.ofArguments cmd) := by
  rw [readFrame,take_left' (command_length cmd),drop_left' (command_length cmd),find_command]
  rfl

def Request.packed (request : Request) : List UInt8 :=
  DisguiseClient.command request.command.characters ++ request.arguments.flatMap Argument.bytes

theorem readFrame_packed (request : Request) : readFrame request.packed = some request := by
  rw [Request.packed,readFrame_command,layout_eq_fields,readFields_packed]
  exact ofArguments_arguments request

/-! ## What the functions write -/

def offsets : Nat → List (List UInt8) → List (Nat × List UInt8)
  | _, [] => []
  | offset, field :: fields => (offset, field) :: offsets (offset + field.length) fields

theorem foldl_copyAt_offsets (fields : List (List UInt8)) (before : List UInt8) :
    (offsets before.length fields).foldl (fun buffer field => copyAt buffer field.1 field.2)
      (before ++ replicate fields.flatten.length 0) = before ++ fields.flatten := by
  induction fields generalizing before with
  | nil => simp [offsets]
  | cons field fields ih =>
    have copied : copyAt (before ++ (replicate field.length 0 ++
        replicate fields.flatten.length 0)) before.length field =
          (before ++ field) ++ replicate fields.flatten.length 0 := by
      rw [copyAt_append _ _ _ _ rfl (by simp),append_assoc]
    rw [offsets,flatten_cons,length_append,replicate_add,foldl_cons,
      copied,← length_append,ih,append_assoc]

theorem copyAt_command (size : Nat) :
    copyAt (replicate (cmdSize + size) 0) 0 (command cmd.characters) =
      command cmd.characters ++ replicate size 0 := by
  rw [copyAt_zero_of_le (by simp [command_length]),command_length,drop_replicate,
    Nat.add_sub_cancel_left]

theorem msgBuf_packed (fields : List (List UInt8)) :
    msgBuf (cmdSize + fields.flatten.length) cmd.characters (offsets cmdSize fields) =
      command cmd.characters ++ fields.flatten := by
  rw [msgBuf,copyAt_command,← command_length cmd]
  exact foldl_copyAt_offsets fields (command cmd.characters)

def overwritten (hash : Hash) (number : UInt64) : Hash where
  bytes := hash.bytes.take blockNumberSize ++ putUint64 number ++
    hash.bytes.drop (blockNumberSize + blockNumberSize)
  length_eq := by
    simp [hash.length_eq,blockNumberSize]

/-- The calls whose frame holds what they were called with: none for receipts,
and for a header by hash and number only number zero where the hash has zeros
anyway. -/
def Request.Carried : Request → Prop
  | headerByHashAndNumber hash number =>
    number = 0 ∧
      (hash.bytes.drop blockNumberSize).take blockNumberSize = replicate blockNumberSize 0
  | receiptsByHash _ => False
  | _ => True

theorem overwritten_eq_iff (hash : Hash) (number : UInt64) : overwritten hash number = hash ↔
      (hash.bytes.drop blockNumberSize).take blockNumberSize = putUint64 number := by
  have split : hash.bytes = hash.bytes.take blockNumberSize ++
      (hash.bytes.drop blockNumberSize).take blockNumberSize ++
        hash.bytes.drop (blockNumberSize + blockNumberSize) := by
    rw [append_assoc,← drop_drop,take_append_drop,take_append_drop]
  constructor
  · intro same
    have bytesEq : (overwritten hash number).bytes = hash.bytes := congrArg Hash.bytes same
    rw [split,overwritten] at bytesEq
    have inner := append_cancel_right bytesEq
    exact (append_cancel_left inner).symm
  · intro kept
    ext1
    change hash.bytes.take blockNumberSize ++ putUint64 number ++
      hash.bytes.drop (blockNumberSize + blockNumberSize) = hash.bytes
    rw [← kept,← split]

theorem message_headerByHashAndNumber (hash : Hash) (number : UInt64) :
    (Request.headerByHashAndNumber hash number).message =
      (Request.headerByHashAndNumber (overwritten hash number) 0).packed := by
  let cmd := command Command.getHeaderByHashAndNumber.characters
  let left := hash.bytes.take blockNumberSize
  let right := hash.bytes.drop (blockNumberSize + blockNumberSize)
  have hashEq : hash.bytes = left ++ ((hash.bytes.drop blockNumberSize).take blockNumberSize ++
      right) := by
    simp only [right]
    rw [← drop_drop,take_append_drop,take_append_drop]
  have hashCopied : copyAt (cmd ++ (replicate hashSize 0 ++
      replicate blockNumberSize 0)) cmdSize hash.bytes =
        cmd ++ (hash.bytes ++ replicate blockNumberSize 0) :=
    copyAt_append _ _ _ _ rfl (by simp [hash.length_eq,hashSize])
  -- the number goes to an offset inside the hash
  have numberCopied : copyAt (cmd ++ (hash.bytes ++ replicate blockNumberSize 0))
      (cmdSize + blockNumberSize) (putUint64 number) =
        (cmd ++ left) ++ (putUint64 number ++ (right ++ replicate blockNumberSize 0)) := by
    rw [hashEq,append_assoc,append_assoc,← append_assoc cmd]
    refine copyAt_append _ _ _ _ ?_ ?_
    · simp [cmd,left,hash.length_eq,blockNumberSize,command_length]
    · simp [hash.length_eq,blockNumberSize]
  have zeros : putUint64 0 = replicate blockNumberSize 0 := by decide
  calc (Request.headerByHashAndNumber hash number).message
      = copyAt (copyAt (copyAt (replicate (cmdSize + (hashSize + blockNumberSize)) 0) 0 cmd)
          cmdSize hash.bytes) (cmdSize + blockNumberSize) (putUint64 number) := rfl
    _ = (cmd ++ left) ++ (putUint64 number ++ (right ++ replicate blockNumberSize 0)) := by
        rw [copyAt_command,replicate_add,hashCopied,numberCopied]
    _ = (Request.headerByHashAndNumber (overwritten hash number) 0).packed := by
        simp [Request.packed,Request.arguments,Request.command,Argument.bytes,overwritten,
          zeros,cmd,left,right]

theorem message_receiptsByHash (hash : Hash) : (Request.receiptsByHash hash).message =
      command Command.getReceiptsByHash.characters ++ hash.bytes.take blockNumberSize := by
  have whole : drop (cmdSize + hash.bytes.length)
      (command Command.getReceiptsByHash.characters ++ replicate blockNumberSize 0) = [] := by
    rw [drop_eq_nil_iff]
    simp [hash.length_eq,command_length,blockNumberSize]
  calc (Request.receiptsByHash hash).message
      = copyAt (copyAt (replicate (cmdSize + blockNumberSize) 0) 0
          (command Command.getReceiptsByHash.characters)) cmdSize hash.bytes := rfl
    _ = command Command.getReceiptsByHash.characters ++ hash.bytes.take blockNumberSize := by
        rw [copyAt_command,copyAt,whole,take_left' (command_length _)]
        simp [command_length]

/-- The functions that write their arguments where the layout has them. -/
theorem message_eq_packed {request : Request} (notReceipts : request.command ≠ .getReceiptsByHash)
    (notBoth : request.command ≠ .getHeaderByHashAndNumber) : request.message = request.packed := by
  have fitted : request.message =
      msgBuf (cmdSize + (request.arguments.map Argument.bytes).flatten.length)
        request.command.characters
        (offsets cmdSize (request.arguments.map Argument.bytes)) := by
    cases request with
    | receiptsByHash hash => exact absurd rfl notReceipts
    | headerByHashAndNumber hash number => exact absurd rfl notBoth
    | _ =>
      simp [Request.message,Request.arguments,Request.command,Command.characters,offsets,
        Argument.bytes,Hash.length_eq,hashSize,cmdSize,blockNumberSize]
  rw [fitted,msgBuf_packed]
  rfl

theorem readFrame_message_iff (request : Request) :
    readFrame request.message = some request ↔ request.Carried := by
  by_cases notReceipts : request.command = .getReceiptsByHash
  · cases request with
    | receiptsByHash hash =>
      have short : ¬ ((hash.bytes.take blockNumberSize).take hashSize).length = 32 := by
        simp [hash.length_eq,blockNumberSize,hashSize]
      have unread : readField .hash (hash.bytes.take blockNumberSize) = none := dif_neg short
      rw [message_receiptsByHash,readFrame_command]
      simp [Command.layout,readFields,unread,Request.Carried]
    | _ => cases notReceipts
  · by_cases notBoth : request.command = .getHeaderByHashAndNumber
    · cases request with
      | headerByHashAndNumber hash number =>
        rw [message_headerByHashAndNumber,readFrame_packed,Option.some_inj,
          Request.headerByHashAndNumber.injEq,overwritten_eq_iff,Request.Carried]
        constructor
        · rintro ⟨kept,rfl⟩
          exact ⟨rfl,kept⟩
        · rintro ⟨rfl,kept⟩
          exact ⟨kept,rfl⟩
      | _ => cases notBoth
    · rw [message_eq_packed notReceipts notBoth,readFrame_packed]
      cases request with
      | receiptsByHash hash => exact absurd rfl notReceipts
      | headerByHashAndNumber hash number => exact absurd rfl notBoth
      | _ => simp [Request.Carried]

/-! ## Calls -/

variable {Header Receipts : Type} (codec : ReplyCodec Header Receipts)

def Writes (call : Request) (frame : List UInt8) : Prop :=
  ∃ (dc : DisguiseClient) (answer : Option (List (List UInt8))),
    (request codec call answer dc).2.written = dc.written ++ [frame]

/-- Every frame that a call writes reads back as the call. -/
def ReadsBack (call : Request) : Prop :=
  ∀ frame, Writes codec call frame → readFrame frame = some call

theorem readLengthBytes_written (dc : DisguiseClient) :
    dc.readLengthBytes.2.written = dc.written := by
  unfold readLengthBytes
  split
  · dsimp only
    split
    · rfl
    · split
      · rfl
      · split <;> rfl
  · rfl

theorem writes_iff (call : Request) (frame : List UInt8) :
    Writes codec call frame ↔ frame = call.message := by
  constructor
  · rintro ⟨dc,answer,written⟩
    simp only [request,exchange] at written
    split at written
    · simp at written
    · cases answer with
      | none => simp [tryingConnect] at written
      | some pieces =>
        simp only [readLengthBytes_written] at written
        exact (cons.inj (append_cancel_left written)).1.symm
  · rintro rfl
    refine ⟨onNewConnection,some [],?_⟩
    simp [request,exchange,onNewConnection,readLengthBytes_written]

/-- A call's frame reads back as the call exactly when it holds what the call
was made with, and two such calls never write the same frame. -/
theorem readsBack_iff_carried (call : Request) : (ReadsBack codec call ↔ call.Carried) ∧
      (call.Carried → ∀ other : Request, other.Carried → other ≠ call →
        ∀ frame, Writes codec call frame → ¬ Writes codec other frame) := by
  constructor
  · rw [← readFrame_message_iff]
    constructor
    · intro readsBack
      exact readsBack _ ((writes_iff codec call _).mpr rfl)
    · intro readBack frame written
      rw [(writes_iff codec call frame).mp written]
      exact readBack
  · intro carried other otherCarried different frame written otherWritten
    have readCall := (readFrame_message_iff call).mpr carried
    have readOther := (readFrame_message_iff other).mpr otherCarried
    rw [← (writes_iff codec call frame).mp written] at readCall
    rw [← (writes_iff codec other frame).mp otherWritten,readCall] at readOther
    exact different (Option.some_inj.mp readOther).symm

def lastByteOne : Hash := ⟨replicate 31 0 ++ [1], by simp⟩

/-- Block 1 with the zero hash is asked for as block 0 with another hash, and
two hashes that differ in their last byte are asked for by one frame. -/
theorem requests_misread : ¬ ReadsBack unitCodec (.headerByHashAndNumber .zero 1) ∧
      ∃ frame, Writes unitCodec (.receiptsByHash .zero) frame ∧
        Writes unitCodec (.receiptsByHash lastByteOne) frame := by
  constructor
  · intro readsBack
    have readBack := readsBack _ ((writes_iff unitCodec _ _).mpr rfl)
    have carried := (readFrame_message_iff _).mp readBack
    exact absurd carried.1 (by decide)
  · refine ⟨(Request.receiptsByHash .zero).message,(writes_iff _ _ _).mpr rfl,?_⟩
    rw [writes_iff,message_receiptsByHash,message_receiptsByHash]
    decide

end DisguiseClient

end PioplatRelay
