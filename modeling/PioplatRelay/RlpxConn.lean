import PioplatRelay.RlpRaw
import PioplatRelay.RlpxBuffer

/-!
# Messages of the transport

A message is sent as one frame: an encrypted header with the size of the frame, the
MAC of the header, the encrypted frame padded to whole blocks, and its MAC.  The two
directions have their own positions in the key stream and their own MAC states.
-/

namespace PioplatRelay.Rlpx

open Rlp

/-- The functions that the session keys select: the key stream of the cipher, the
block cipher and the hash of the MAC. -/
structure Ciphers where
  keyStream : Nat → UInt8
  encryptBlock : List UInt8 → Vector UInt8 16
  digest : List UInt8 → Vector UInt8 32

structure Snappy where
  encode : List UInt8 → List UInt8
  decodedLen : List UInt8 → Option Nat
  decode : List UInt8 → Option (List UInt8)

inductive ConnErr
  | read (error : ReadErr)
  | badHeaderMAC
  | badFrameMAC
  | invalidMessageCode (error : DecodeErr)
  | corruptSnappy
  | plainMessageTooLarge
  deriving DecidableEq, Repr

def maxUint24 : Nat := 2 ^ 24 - 1

/-! ### MAC -/

/-- `hashMAC`: what has been written to the hash.  The buffers of the source only
hold values between two calls of the hash. -/
structure HashMAC where
  written : List UInt8
  deriving DecidableEq, Repr

namespace HashMAC

variable (ciphers : Ciphers)

variable (m : HashMAC)

def sum : List UInt8 := (ciphers.digest m.written).toList

def write (bytes : List UInt8) : HashMAC := ⟨m.written ++ bytes⟩

/-- `compute` panics on a seed that is not one block. -/
def compute (sum1 seed : List UInt8) : Option (List UInt8 × HashMAC) :=
  if seed.length ≠ 16 then none
  else
    let aesBuffer := (ciphers.encryptBlock (sum1.take 16)).toList
    let m := m.write (List.zipWith (· ^^^ ·) aesBuffer seed)
    some ((m.sum ciphers).take 16, m)

def computeHeader (header : List UInt8) : Option (List UInt8 × HashMAC) :=
  m.compute ciphers (m.sum ciphers) header

def computeFrame (framedata : List UInt8) : Option (List UInt8 × HashMAC) :=
  let m := m.write framedata
  let seed := m.sum ciphers
  m.compute ciphers seed (seed.take 16)

end HashMAC

variable (ciphers : Ciphers)

/-- `XORKeyStream` at a position of the key stream. -/
def xorKeyStream (position : Nat) (src : List UInt8) : List UInt8 :=
  src.mapIdx fun index byte => byte ^^^ ciphers.keyStream (position + index)

/-- `sessionState`.  The positions are those of the ciphers `enc` and `dec`; the write
buffer is emptied before each use. -/
structure SessionState where
  enc : Nat
  dec : Nat
  egressMAC : HashMAC
  ingressMAC : HashMAC
  rbuf : ReadBuffer
  deriving DecidableEq, Repr

/-- `Conn` after the handshake.  The socket holds everything that is still going to
arrive; the buffers for compression are kept only for their memory. -/
structure Conn where
  conn : Socket
  session : SessionState
  snappy : Bool
  deriving DecidableEq, Repr

/-- `InitWithSecrets`; the cipher keys of the secrets are the `Ciphers` that both sides
have. -/
def initWithSecrets (conn : Socket) (egressMAC ingressMAC : HashMAC) (snappy : Bool) : Conn :=
  ⟨conn, ⟨0,0,egressMAC,ingressMAC,.empty⟩, snappy⟩

/-! ### Writing -/

def putUint24 (v : Nat) : List UInt8 :=
  [UInt8.ofNat (v / 2 ^ 16), UInt8.ofNat (v / 2 ^ 8), UInt8.ofNat v]

def readUint24 (b : List UInt8) : Nat :=
  (b.getD 2 0).toNat + (b.getD 1 0).toNat * 2 ^ 8 + (b.getD 0 0).toNat * 2 ^ 16

def zeroHeader : List UInt8 := [0xC2, 0x80, 0x80]

def paddingOf (fsize : Nat) : Nat :=
  if fsize % 16 > 0 then 16 - fsize % 16 else 0

/-- `writeFrame`, with the bytes given to the network.  Header and frame are encrypted
in place at the end of the write buffer. -/
def writeFrame (h : SessionState) (code : UInt64) (data : List UInt8) :
    Option (Except ConnErr Unit × SessionState × List UInt8) := do
  let fsize := intSize code + data.length
  if fsize > maxUint24 then some (.error .plainMessageTooLarge, h, [])
  else
    let header := copyAt (copyAt (List.replicate 16 0) 0 (putUint24 fsize)) 3 zeroHeader
    let header := xorKeyStream ciphers h.enc header
    let enc := h.enc + header.length
    let (headerMAC, egressMAC) ← h.egressMAC.computeHeader ciphers header
    let wbuf := header ++ headerMAC
    let framedata := appendUint64 [] code ++ data ++ List.replicate (paddingOf fsize) 0
    let framedata := xorKeyStream ciphers enc framedata
    let enc := enc + framedata.length
    let (frameMAC, egressMAC) ← egressMAC.computeFrame ciphers framedata
    some (.ok (), { h with enc := enc, egressMAC := egressMAC }, wbuf ++ framedata ++ frameMAC)

def write (snappy : Snappy) (c : Conn) (code : UInt64) (data : List UInt8) :
    Option (Except ConnErr UInt32 × Conn × List UInt8) := do
  if data.length > maxUint24 then some (.error .plainMessageTooLarge, c, [])
  else
    let data := if c.snappy then snappy.encode data else data
    let wireSize := UInt32.ofNat data.length
    let (result, session, bytes) ← writeFrame ciphers c.session code data
    some (result.map fun _ => wireSize, { c with session := session }, bytes)

/-! ### Reading -/

/-- The results of `readFrame`: an error of the buffer ends it. -/
def orReadErr {α : Type} (h : SessionState)
    (result : Option (Except ReadErr ArrayView × ReadBuffer × Socket))
    (next : ArrayView → SessionState → Socket → Option (Except ConnErr α × SessionState × Socket)) :
    Option (Except ConnErr α × SessionState × Socket) :=
  match result with
  | none => none
  | some (.error error, rbuf, conn) => some (.error (.read error), { h with rbuf := rbuf }, conn)
  | some (.ok view, rbuf, conn) => next view { h with rbuf := rbuf } conn

def decryptView (h : SessionState) (view : ArrayView) : SessionState :=
  let plain := xorKeyStream ciphers h.dec (view.contents h.rbuf.arrays)
  { h with
    dec := h.dec + plain.length
    rbuf := { h.rbuf with arrays := view.write h.rbuf.arrays plain } }

/-- The part of `readFrame` behind the header: the frame and its MAC. -/
def readFrameData (spare : Nat → Nat) (fsize : Nat) (h : SessionState)
    (conn : Socket) : Option (Except ConnErr ArrayView × SessionState × Socket) :=
  orReadErr h (h.rbuf.read spare conn (fsize + paddingOf fsize)) fun frame h conn =>
    orReadErr h (h.rbuf.read spare conn 16) fun frameMAC h conn => do
      let (wantFrameMAC, ingressMAC) ←
        h.ingressMAC.computeFrame ciphers (frame.contents h.rbuf.arrays)
      let h := { h with ingressMAC := ingressMAC }
      if wantFrameMAC ≠ frameMAC.contents h.rbuf.arrays then some (.error .badFrameMAC, h, conn)
      else some (.ok (frame.front fsize), decryptView ciphers h frame, conn)

/-- `readFrame` returns a view of the frame without its padding. -/
def readFrame (spare : Nat → Nat) (h : SessionState) (conn : Socket) :
    Option (Except ConnErr ArrayView × SessionState × Socket) := do
  let rbuf ← h.rbuf.reset
  let h := { h with rbuf := rbuf }
  orReadErr h (rbuf.read spare conn 32) fun header h conn => do
    let bytes := header.contents h.rbuf.arrays
    let (wantHeaderMAC, ingressMAC) ← h.ingressMAC.computeHeader ciphers (bytes.take 16)
    let h := { h with ingressMAC := ingressMAC }
    if wantHeaderMAC ≠ bytes.drop 16 then some (.error .badHeaderMAC, h, conn)
    else
      let h := decryptView ciphers h (header.front 16)
      let fsize := readUint24 ((header.front 16).contents h.rbuf.arrays)
      readFrameData ciphers spare fsize h conn

/-- The code, the data and the size on the wire of the frame that was read. -/
def decodeMessage (snappy : Snappy) (compressed : Bool) (frame : List UInt8) :
    Except ConnErr (UInt64 × List UInt8 × Nat) :=
  match splitUint64 frame with
  | .error error => .error (.invalidMessageCode error)
  | .ok (code, data) =>
    if compressed then
      match snappy.decodedLen data with
      | none => .error .corruptSnappy
      | some actualSize =>
        if actualSize > maxUint24 then .error .plainMessageTooLarge
        else
          match snappy.decode data with
          | none => .error .corruptSnappy
          | some plain => .ok (code, plain, data.length)
    else .ok (code, data, data.length)

def read (snappy : Snappy) (spare : Nat → Nat) (c : Conn) :
    Option (Except ConnErr (UInt64 × List UInt8 × Nat) × Conn) := do
  let (result, session, conn) ← readFrame ciphers spare c.session c.conn
  let c := { c with session := session, conn := conn }
  match result with
  | .error error => some (.error error, c)
  | .ok frame => some (decodeMessage snappy c.snappy (frame.contents session.rbuf.arrays), c)

end PioplatRelay.Rlpx
