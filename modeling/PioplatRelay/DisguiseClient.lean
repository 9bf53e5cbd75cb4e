import PioplatRelay.BufferedSockets
import PioplatRelay.RelayFrames

/-!
# Requests to the full node

The relay asks its full node over one TLS connection.  Every request writes a
message of fixed layout and reads one response: a little-endian length and as
many bytes.  Each request builds a new buffered reader on the connection.
-/

namespace PioplatRelay

open LittleEndian

inductive DisguiseError
  | write
  | read
  | invalidLength (bytesLen : UInt32)
  deriving DecidableEq, Repr

/-- `DisguiseClient`: its connection, with the messages written on it so far,
and whether it is waiting for a new one. -/
structure DisguiseClient where
  conn : Socket
  written : List (List UInt8)
  connecting : Bool
  deriving DecidableEq, Repr

namespace DisguiseClient

def cmdSize : Nat := 4

def lengthSize : Nat := 4

def hashSize : Nat := 32

def blockNumberSize : Nat := 8

def lenLimit : Nat := 100 * 2 ^ 10

def tryingConnect (dc : DisguiseClient) : DisguiseClient := { dc with connecting := true }

def readLengthBytes (dc : DisguiseClient) :
    Except DisguiseError (List UInt8) × DisguiseClient :=
  match (BufferedReader.ofSocket dc.conn).readFull lengthSize with
  | (length, .filled, rdr) =>
    let bytesLen := uint32 length
    if lenLimit < bytesLen.toNat then
      (.error (.invalidLength bytesLen), { dc with conn := rdr.socket })
    else if bytesLen = 0 then (.ok [], { dc with conn := rdr.socket })
    else
      match rdr.readFull bytesLen.toNat with
      | (data, .filled, rdr) => (.ok data, { dc with conn := rdr.socket })
      | (_, _, rdr) => (.error .read, { dc with conn := rdr.socket })
  | (_, _, rdr) => (.error .read, tryingConnect { dc with conn := rdr.socket })

/-! ## Messages -/

def command (characters : List Char) : List UInt8 :=
  characters.map fun character => UInt8.ofNat character.toNat

/-- A zeroed `msgBuf` with the command at its front and fields copied in, each
at its offset. -/
def msgBuf (size : Nat) (characters : List Char) (fields : List (Nat × List UInt8)) :
    List UInt8 :=
  fields.foldl (fun buffer field => copyAt buffer field.1 field.2)
    (copyAt (List.replicate size 0) 0 (command characters))

/-- The requests with a response of announced length. -/
inductive Request
  | headerByHash (hash : Hash)
  | headerByHashAndNumber (hash : Hash) (number : UInt64)
  | headerByNumber (number : UInt64)
  | blockBodyRLP (hash : Hash)
  | receiptsByHash (hash : Hash)
  | trieNodeByHash (hash : Hash)
  | contractCodeWithPrefix (hash : Hash)
  | ancestor (hash : Hash) (blockNumber distance maxNonCanonical : UInt64)
  | totalDifficulty (hash : Hash) (number : UInt64)
  deriving DecidableEq

/-- The message of a request.  The number of a header by hash and number lands
inside the hash, and the hash of receipts is cut to the eight bytes there is
room for. -/
def Request.message : Request → List UInt8
  | headerByHash hash => msgBuf (cmdSize + hashSize) ['2', '1', '0', '0'] [(cmdSize, hash.bytes)]
  | headerByHashAndNumber hash number =>
    msgBuf (cmdSize + hashSize + blockNumberSize) ['2', '3', '0', '0']
      [(cmdSize, hash.bytes), (cmdSize + blockNumberSize, putUint64 number)]
  | headerByNumber number =>
    msgBuf (cmdSize + blockNumberSize) ['2', '2', '0', '0'] [(cmdSize, putUint64 number)]
  | blockBodyRLP hash => msgBuf (cmdSize + hashSize) ['4', '0', '0', '0'] [(cmdSize, hash.bytes)]
  | receiptsByHash hash =>
    msgBuf (cmdSize + blockNumberSize) ['5', '0', '0', '0'] [(cmdSize, hash.bytes)]
  | trieNodeByHash hash => msgBuf (cmdSize + hashSize) ['7', '0', '0', '0'] [(cmdSize, hash.bytes)]
  | contractCodeWithPrefix hash =>
    msgBuf (cmdSize + hashSize) ['6', '0', '0', '0'] [(cmdSize, hash.bytes)]
  | ancestor hash blockNumber distance maxNonCanonical =>
    msgBuf (cmdSize + hashSize + blockNumberSize * 3) ['3', '0', '0', '0']
      [(cmdSize, hash.bytes), (cmdSize + hashSize, putUint64 blockNumber),
        (cmdSize + hashSize + blockNumberSize * 1, putUint64 distance),
        (cmdSize + hashSize + blockNumberSize * 2, putUint64 maxNonCanonical)]
  | totalDifficulty hash number =>
    msgBuf (cmdSize + hashSize + blockNumberSize) ['8', '0', '0', '0']
      [(cmdSize, hash.bytes), (cmdSize + hashSize, putUint64 number)]

/-! ## Replies -/

/-- `rlp.DecodeBytes` into a new header: what the header holds afterwards, and
whether there was no error.  Receipts are passed to it by value, which is an
error that leaves them empty. -/
structure ReplyCodec (Header Receipts : Type) where
  decodeHeader : List UInt8 → Header × Bool
  noReceipts : Receipts

/-- What the request functions return; a nil object is `none`. -/
inductive Reply (Header Receipts : Type)
  | header (value : Option Header) (err : Option DisguiseError)
  | bytes (value : Option (List UInt8)) (err : Option DisguiseError)
  | receipts (value : Option Receipts) (err : Option DisguiseError)
  | ancestor (hash : Hash) (number : UInt64)
  | difficulty (value : Nat) (err : Option DisguiseError)
  deriving DecidableEq

variable {Header Receipts : Type} (codec : ReplyCodec Header Receipts)

/-- What the request functions have read when they return: nothing while there
is no connection, and then data or an error. -/
abbrev Response := Option (Except DisguiseError (List UInt8))

def headerReply : Response → Reply Header Receipts
  | none => .header none none
  | some (.error err) => .header none (some err)
  | some (.ok data) =>
    if 8 < data.length then .header (some (codec.decodeHeader data).1) none
    else .header none none

def bytesReply : Response → Reply Header Receipts
  | none => .bytes (some []) none
  | some (.error err) => .bytes (some []) (some err)
  | some (.ok data) => if 8 < data.length then .bytes (some data) none else .bytes none none

def receiptsReply : Response → Reply Header Receipts
  | none => .receipts (some codec.noReceipts) none
  | some (.error err) => .receipts (some codec.noReceipts) (some err)
  | some (.ok data) =>
    if 8 < data.length then .receipts (some codec.noReceipts) none else .receipts none none

def ancestorReply : Response → Reply Header Receipts
  | some (.ok data) =>
    if hashSize + blockNumberSize ≤ data.length then
      .ancestor (Hash.zero.setBytes (data.take hashSize))
        (UInt64.ofNat (value ((data.drop hashSize).take blockNumberSize)))
    else .ancestor .zero 0
  | _ => .ancestor .zero 0

def difficultyReply : Response → Reply Header Receipts
  | none => .difficulty 0 none
  | some (.error err) => .difficulty 0 (some err)
  | some (.ok data) =>
    if blockNumberSize ≤ data.length then
      .difficulty (value (data.take blockNumberSize).reverse) none
    else .difficulty 0 none

def Request.reply : Request → Response → Reply Header Receipts
  | headerByHash _ => headerReply codec
  | headerByHashAndNumber _ _ => headerReply codec
  | headerByNumber _ => headerReply codec
  | blockBodyRLP _ => bytesReply
  | receiptsByHash _ => receiptsReply codec
  | trieNodeByHash _ => bytesReply
  | contractCodeWithPrefix _ => bytesReply
  | ancestor _ _ _ _ => ancestorReply
  | totalDifficulty _ _ => difficultyReply

/-! ## Calls -/

/-- The common body of the request functions: write the message, read the
response.  The network either fails the write or delivers an answer, in some
pieces. -/
def exchange (message : List UInt8) (answer : Option (List (List UInt8)))
    (dc : DisguiseClient) : Response × DisguiseClient :=
  if dc.connecting then (none, dc)
  else
    match answer with
    | none => (some (.error .write), dc.tryingConnect)
    | some pieces =>
      let read := readLengthBytes
        { dc with conn := dc.conn.deliver pieces, written := dc.written ++ [message] }
      (some read.1, read.2)

def request (request : Request) (answer : Option (List (List UInt8))) (dc : DisguiseClient) :
    Reply Header Receipts × DisguiseClient :=
  let response := dc.exchange request.message answer
  (request.reply codec response.1, response.2)

variable (hash : Hash)

def requestHeaderByHash := request codec (.headerByHash hash)

def requestHeaderByHashAndNumber (number : UInt64) :=
  request codec (.headerByHashAndNumber hash number)

def requestHeaderByNumber (number : UInt64) := request codec (.headerByNumber number)

def requestBlockBodyRLP := request codec (.blockBodyRLP hash)

def requestReceiptsByHash := request codec (.receiptsByHash hash)

def requestTrieNodeByHash := request codec (.trieNodeByHash hash)

def requestContractCodeWithPrefix := request codec (.contractCodeWithPrefix hash)

def requestAncestor (blockNumber ancestor maxNonCanonical : UInt64) :=
  request codec (.ancestor hash blockNumber ancestor maxNonCanonical)

def requestTotalDifficulty (number : UInt64) := request codec (.totalDifficulty hash number)

end DisguiseClient

end PioplatRelay
