import PioplatRelay.RlpxConn

/-!
# Two connections stay in step

A frame that one side writes moves its position in the key stream and its MAC state,
and reading the frame moves those of the other side to the same values.  So the
messages that were accepted come out in order, however the network cuts the bytes,
and a message that is refused moves nothing.
-/

namespace PioplatRelay.Rlpx

open BigEndian Rlp Option
open List hiding Vector

variable {ciphers : Ciphers} {snappy : Snappy}

/-! ### Ciphers and MACs -/

@[simp]
theorem xorKeyStream_length (ciphers : Ciphers) (position : Nat) (src : List UInt8) :
    (xorKeyStream ciphers position src).length = src.length := by
  simp [xorKeyStream]

/-- The key stream at the same position decrypts what it has encrypted. -/
theorem xorKeyStream_involutive (ciphers : Ciphers) (position : Nat) (src : List UInt8) :
    xorKeyStream ciphers position (xorKeyStream ciphers position src) = src := by
  apply ext_getElem
  · simp
  · intro index _ bound
    simp only [xorKeyStream,getElem_mapIdx,UInt8.xor_assoc,UInt8.xor_self,UInt8.xor_zero]

theorem HashMAC.compute_eq (ciphers : Ciphers) (m : HashMAC) (sum1 : List UInt8)
    {seed : List UInt8} (block : seed.length = 16) :
    ∃ mac after, m.compute ciphers sum1 seed = some (mac, after) ∧ mac.length = 16 := by
  refine ⟨_,_,if_neg (not_not.mpr block),?_⟩
  rw [length_take,HashMAC.sum,Vector.length_toList]
  rfl

theorem HashMAC.computeHeader_eq (ciphers : Ciphers) (m : HashMAC) {header : List UInt8}
    (block : header.length = 16) :
    ∃ mac after, m.computeHeader ciphers header = some (mac, after) ∧ mac.length = 16 :=
  compute_eq ciphers m _ block

theorem HashMAC.computeFrame_eq (ciphers : Ciphers) (m : HashMAC) (framedata : List UInt8) :
    ∃ mac after, m.computeFrame ciphers framedata = some (mac, after) ∧ mac.length = 16 := by
  apply HashMAC.compute_eq
  rw [length_take,HashMAC.sum,Vector.length_toList]
  rfl

/-! ### Frames -/

def plainHeader (fsize : Nat) : List UInt8 := putUint24 fsize ++ (zeroHeader ++ replicate 10 0)

/-- A message in a frame before it is encrypted, without the padding. -/
def plainMessage (code : UInt64) (data : List UInt8) : List UInt8 :=
  encodeString (minimal code.toNat) ++ data

theorem plainHeader_eq (fsize : Nat) :
    copyAt (copyAt (replicate 16 0) 0 (putUint24 fsize)) 3 zeroHeader = plainHeader fsize :=
  rfl

theorem plainHeader_length (fsize : Nat) : (plainHeader fsize).length = 16 := rfl

theorem plainMessage_length (code : UInt64) (data : List UInt8) :
    (plainMessage code data).length = intSize code + data.length := by
  rw [plainMessage,length_append,intSize_eq]

variable {fsize : Nat} {code : UInt64} {macAfter : HashMAC} {positionAfter : Nat}

theorem readUint24_plainHeader (fits : fsize ≤ maxUint24) :
    readUint24 (plainHeader fsize) = fsize := by
  have bound : fsize < 2 ^ 24 := by
    rw [maxUint24] at fits
    omega
  simp only [readUint24,plainHeader,putUint24,cons_append,getD_cons_zero,
    getD_cons_succ,UInt8.toNat_ofNat']
  omega

/-- A message with its size, on the wire between two cipher positions and MAC states. -/
structure Frame (ciphers : Ciphers) (position : Nat) (mac : HashMAC) (message wire : List UInt8)
    (positionAfter : Nat) (macAfter : HashMAC) : Prop where
  fits : message.length ≤ maxUint24
  parts : ∃ (headerMAC frameMAC : List UInt8) (between : HashMAC),
    mac.computeHeader ciphers (xorKeyStream ciphers position (plainHeader message.length)) =
      some (headerMAC, between) ∧ headerMAC.length = 16 ∧
    between.computeFrame ciphers (xorKeyStream ciphers (position + 16)
      (message ++ replicate (paddingOf message.length) 0)) = some (frameMAC, macAfter) ∧
    frameMAC.length = 16 ∧
    wire = xorKeyStream ciphers position (plainHeader message.length) ++ (headerMAC ++
      (xorKeyStream ciphers (position + 16)
        (message ++ replicate (paddingOf message.length) 0) ++ frameMAC))
  position : positionAfter = position + 16 + (message.length + paddingOf message.length)

theorem writeFrame_eq (ciphers : Ciphers) (h : SessionState) {data : List UInt8}
    (fits : intSize code + data.length ≤ maxUint24) :
    ∃ positionAfter macAfter wire, writeFrame ciphers h code data =
        some (.ok (), { h with enc := positionAfter, egressMAC := macAfter }, wire) ∧
      Frame ciphers h.enc h.egressMAC (plainMessage code data) wire positionAfter macAfter := by
  have lengthEq := plainMessage_length code data
  have headerLength :
      (xorKeyStream ciphers h.enc (plainHeader (intSize code + data.length))).length = 16 := by
    rw [xorKeyStream_length,plainHeader_length]
  obtain ⟨headerMAC,between,headerEq,headerMACLength⟩ :=
    h.egressMAC.computeHeader_eq ciphers headerLength
  obtain ⟨frameMAC,after,frameEq,frameMACLength⟩ := between.computeFrame_eq ciphers
    (xorKeyStream ciphers (h.enc + 16) (plainMessage code data ++
      replicate (paddingOf (intSize code + data.length)) 0))
  have written : writeFrame ciphers h code data = some (.ok (), { h with
      enc := h.enc + 16 + (intSize code + data.length + paddingOf (intSize code + data.length))
      egressMAC := after },
      xorKeyStream ciphers h.enc (plainHeader (intSize code + data.length)) ++ headerMAC ++
        xorKeyStream ciphers (h.enc + 16) (plainMessage code data ++
          replicate (paddingOf (intSize code + data.length)) 0) ++ frameMAC) := by
    have framedataEq : appendUint64 [] code ++ data = plainMessage code data := by
      rw [appendUint64_eq,nil_append,plainMessage]
    simp only [writeFrame,if_neg (Nat.not_lt.mpr fits),plainHeader_eq,framedataEq,headerLength,
      headerEq,frameEq,bind_eq_bind,bind_some,xorKeyStream_length,
      length_append,lengthEq,length_replicate]
  refine ⟨_,after,_,written,?_,⟨headerMAC,frameMAC,between,?_⟩,?_⟩
  · rw [lengthEq]
    exact fits
  · rw [lengthEq]
    refine ⟨headerEq,headerMACLength,frameEq,frameMACLength,?_⟩
    simp only [append_assoc]
  · rw [lengthEq]

/-! ### Reading a frame -/

/-- What the buffer holds unread and what is still going to arrive are `bytes`. -/
structure Incoming (rbuf : ReadBuffer) (conn : Socket) (bytes : List UInt8) : Prop where
  streaming : conn.transport = .stream
  unread : ∃ unread, rbuf.Holds unread ∧ unread ++ conn.available = bytes

variable {conn : Socket} {h : SessionState}

theorem Incoming.read_eq {rbuf : ReadBuffer} {front rest : List UInt8} {n : Nat} (spare : Nat → Nat)
    (incoming : Incoming rbuf conn (front ++ rest)) (lengthEq : front.length = n) :
    ∃ view after connAfter, rbuf.read spare conn n = some (.ok view, after, connAfter) ∧
      Incoming after connAfter rest ∧ after.Processed view ∧ view.contents after.arrays = front ∧
      view.length = n ∧ rbuf.Keeps after := by
  subst lengthEq
  obtain ⟨unread,holds,bytesEq⟩ := incoming.unread
  have there : front.length ≤ (unread ++ conn.available).length := by
    rw [bytesEq,length_append]
    exact Nat.le_add_right _ _
  obtain ⟨view,after,connAfter,readEq,took⟩ :=
    holds.read_eq spare incoming.streaming there
  obtain ⟨unreadAfter,holdsAfter,restEq⟩ := took.rest
  have contents := took.contents
  rw [bytesEq,take_left] at contents
  rw [bytesEq,drop_left] at restEq
  exact ⟨view,after,connAfter,readEq,⟨took.streaming,unreadAfter,holdsAfter,restEq⟩,
    took.processed,contents,took.length,took.keeps⟩

theorem decryptView_eq (ciphers : Ciphers) {view : ArrayView} {bytes src : List UInt8}
    (incoming : Incoming h.rbuf conn bytes) (processed : h.rbuf.Processed view)
    (contents : view.contents h.rbuf.arrays = src) (lengthEq : src.length = view.length) :
    ∃ rbuf, decryptView ciphers h view = { h with dec := h.dec + src.length, rbuf := rbuf } ∧
      Incoming rbuf conn bytes ∧ view.contents rbuf.arrays = xorKeyStream ciphers h.dec src := by
  obtain ⟨unread,holds,bytesEq⟩ := incoming.unread
  have plainLength : (xorKeyStream ciphers h.dec src).length = view.length := by
    rw [xorKeyStream_length,lengthEq]
  obtain ⟨holdsAfter,written⟩ := holds.write processed plainLength
  refine ⟨_,?_,⟨incoming.streaming,unread,holdsAfter,bytesEq⟩,written⟩
  rw [decryptView,contents]
  simp

theorem readFrameData_eq (ciphers : Ciphers) (spare : Nat → Nat)
    {framedata frameMAC rest : List UInt8}
    (incoming : Incoming h.rbuf conn (framedata ++ (frameMAC ++ rest)))
    (lengthEq : framedata.length = fsize + paddingOf fsize) (macLength : frameMAC.length = 16)
    (macEq : h.ingressMAC.computeFrame ciphers framedata = some (frameMAC, macAfter)) :
    ∃ view rbuf connAfter, readFrameData ciphers spare fsize h conn = some (.ok view,
        { h with
          dec := h.dec + framedata.length
          ingressMAC := macAfter
          rbuf := rbuf }, connAfter) ∧
      Incoming rbuf connAfter rest ∧
      view.contents rbuf.arrays = (xorKeyStream ciphers h.dec framedata).take fsize := by
  obtain ⟨frame,frameBuf,frameConn,frameRead,frameIncoming,frameProcessed,frameContents,
    frameLength,_⟩ := incoming.read_eq spare lengthEq
  obtain ⟨mac,macBuf,macConn,macRead,macIncoming,_,macContents,_,keeps⟩ :=
    frameIncoming.read_eq spare macLength
  -- The frame may be shown by the array that the buffer has left.
  obtain ⟨stillProcessed,sameContents⟩ := keeps frameProcessed
  rw [frameContents] at sameContents
  obtain ⟨rbuf,decrypted,rbufIncoming,plain⟩ := decryptView_eq ciphers
    (h := { h with ingressMAC := macAfter, rbuf := macBuf }) macIncoming stillProcessed sameContents
    (lengthEq.trans frameLength.symm)
  refine ⟨frame.front fsize,rbuf,macConn,?_,rbufIncoming,?_⟩
  · simp [readFrameData,frameRead,orReadErr,macRead,sameContents,macEq,macContents,decrypted]
  · rw [ArrayView.contents_front (by omega),plain]

theorem readFrame_eq (ciphers : Ciphers) (spare : Nat → Nat) {message wire rest : List UInt8}
    (frame : Frame ciphers h.dec h.ingressMAC message wire positionAfter macAfter)
    (incoming : Incoming h.rbuf conn (wire ++ rest)) :
    ∃ view rbuf connAfter, readFrame ciphers spare h conn = some (.ok view,
        { h with
          dec := positionAfter
          ingressMAC := macAfter
          rbuf := rbuf }, connAfter) ∧
      Incoming rbuf connAfter rest ∧ view.contents rbuf.arrays = message := by
  obtain ⟨headerMAC,frameMAC,between,headerEq,headerMACLength,frameEq,frameMACLength,
    wireEq⟩ := frame.parts
  rw [wireEq] at incoming
  obtain ⟨unread,holds,bytesEq⟩ := incoming.unread
  obtain ⟨fresh,resetEq,freshHolds⟩ := holds.reset_eq
  generalize sealedEq : xorKeyStream ciphers h.dec (plainHeader message.length) = sealed at *
  have sealedLength : sealed.length = 16 := by
    rw [← sealedEq,xorKeyStream_length,plainHeader_length]
  generalize dataEq : xorKeyStream ciphers (h.dec + 16)
    (message ++ replicate (paddingOf message.length) 0) = framedata at *
  have dataLength : framedata.length = message.length + paddingOf message.length := by
    rw [← dataEq,xorKeyStream_length,length_append,length_replicate]
  have freshIncoming : Incoming fresh conn
      (sealed ++ headerMAC ++ (framedata ++ (frameMAC ++ rest))) := by
    refine ⟨incoming.streaming,unread,freshHolds,?_⟩
    rw [bytesEq]
    simp
  obtain ⟨header,headerBuf,headerConn,headerRead,headerIncoming,headerProcessed,
    headerContents,headerLength,_⟩ := freshIncoming.read_eq spare
      (show (sealed ++ headerMAC).length = 32 by
        rw [length_append,sealedLength,headerMACLength])
  have frontLe : 16 ≤ header.length := by omega
  have frontContents : (header.front 16).contents headerBuf.arrays = sealed := by
    rw [ArrayView.contents_front frontLe,headerContents,← sealedLength,take_left]
  obtain ⟨plainBuf,decrypted,plainIncoming,plain⟩ := decryptView_eq ciphers
    (h := { h with ingressMAC := between, rbuf := headerBuf }) headerIncoming
    (headerProcessed.front frontLe) frontContents sealedLength
  rw [← sealedEq,xorKeyStream_involutive] at plain
  obtain ⟨view,rbuf,connAfter,dataRead,restIncoming,contents⟩ := readFrameData_eq ciphers spare
    (h := { h with dec := h.dec + 16, ingressMAC := between, rbuf := plainBuf })
    plainIncoming dataLength frameMACLength frameEq
  refine ⟨view,rbuf,connAfter,?_,restIncoming,?_⟩
  · have takeEq : (sealed ++ headerMAC).take 16 = sealed := by rw [← sealedLength,take_left]
    have dropEq : (sealed ++ headerMAC).drop 16 = headerMAC := by rw [← sealedLength,drop_left]
    simp only [readFrame,resetEq,headerRead,orReadErr,headerContents,takeEq,dropEq,headerEq,
      bind_eq_bind,bind_some,ne_eq,not_true_eq_false,if_false,decrypted,plain,
      sealedLength,readUint24_plainHeader frame.fits,dataRead]
    rw [frame.position,dataLength]
  · rw [contents,← dataEq,xorKeyStream_involutive,take_left]

theorem readFrame_error (ciphers : Ciphers) (spare : Nat → Nat) (incoming : Incoming h.rbuf conn [])
    : ∃ error after connAfter,
      readFrame ciphers spare h conn = some (.error error, after, connAfter) := by
  obtain ⟨unread,holds,bytesEq⟩ := incoming.unread
  obtain ⟨unreadNil,nothing⟩ := append_eq_nil_iff.mp bytesEq
  subst unreadNil
  obtain ⟨fresh,resetEq,freshHolds⟩ := holds.reset_eq
  obtain ⟨error,after,connAfter,readEq⟩ :=
    freshHolds.read_error spare (Nat.succ_pos 31) incoming.streaming nothing
  refine ⟨.read error,{ h with rbuf := after },connAfter,?_⟩
  simp [readFrame,resetEq,readEq,orReadErr]

/-! ### Messages -/

/-- Decoding undoes encoding, and the length of the result is announced. -/
structure Snappy.Lawful (snappy : Snappy) : Prop where
  decodedLen_encode : ∀ data, data.length ≤ maxUint24 →
    snappy.decodedLen (snappy.encode data) = some data.length
  decode_encode : ∀ data, data.length ≤ maxUint24 →
    snappy.decode (snappy.encode data) = some data

def wireData (snappy : Snappy) (compressed : Bool) (data : List UInt8) : List UInt8 :=
  if compressed then snappy.encode data else data

/-- The data or the frame is longer than 24 bits can say. -/
def TooLarge (snappy : Snappy) (compressed : Bool) (code : UInt64) (data : List UInt8) : Prop :=
  data.length > maxUint24 ∨ intSize code + (wireData snappy compressed data).length > maxUint24

instance (snappy : Snappy) (compressed : Bool) (code : UInt64) (data : List UInt8) :
    Decidable (TooLarge snappy compressed code data) :=
  inferInstanceAs (Decidable (_ ∨ _))

def Conn.sent (c : Conn) (position : Nat) (mac : HashMAC) : Conn :=
  { c with session := { c.session with enc := position, egressMAC := mac } }

section Messages

variable {c : Conn} {code : UInt64} {data : List UInt8}

theorem write_of_writeFrame (ciphers : Ciphers) (short : ¬ data.length > maxUint24)
    {result : Except ConnErr Unit} {session : SessionState} {wire : List UInt8}
    (written : writeFrame ciphers c.session code (wireData snappy c.snappy data) =
      some (result, session, wire)) :
    write ciphers snappy c code data =
      some (result.map fun _ => UInt32.ofNat (wireData snappy c.snappy data).length,
        { c with session := session }, wire) := by
  rw [wireData] at written
  simp [write,if_neg short,written,wireData,bind_eq_bind,bind_some]

theorem write_of_tooLarge (ciphers : Ciphers) (large : TooLarge snappy c.snappy code data) :
    write ciphers snappy c code data = some (.error .plainMessageTooLarge, c, []) := by
  by_cases long : data.length > maxUint24
  · exact if_pos long
  · have refused : writeFrame ciphers c.session code (wireData snappy c.snappy data) =
        some (.error .plainMessageTooLarge, c.session, []) := if_pos (large.resolve_left long)
    rw [write_of_writeFrame ciphers long refused]
    rfl

theorem write_of_fits (ciphers : Ciphers) (fits : ¬ TooLarge snappy c.snappy code data) :
    ∃ positionAfter macAfter wire, write ciphers snappy c code data =
        some (.ok (UInt32.ofNat (wireData snappy c.snappy data).length),
          c.sent positionAfter macAfter, wire) ∧ Frame ciphers c.session.enc c.session.egressMAC
        (plainMessage code (wireData snappy c.snappy data)) wire positionAfter macAfter := by
  obtain ⟨short,frameFits⟩ := not_or.mp fits
  obtain ⟨positionAfter,macAfter,wire,written,frame⟩ :=
    writeFrame_eq ciphers c.session (Nat.le_of_not_lt frameFits)
  refine ⟨positionAfter,macAfter,wire,?_,frame⟩
  rw [write_of_writeFrame ciphers short written]
  rfl

theorem decodeMessage_eq (lawful : snappy.Lawful) {compressed : Bool}
    (fits : ¬ TooLarge snappy compressed code data) :
    decodeMessage snappy compressed (plainMessage code (wireData snappy compressed data)) =
      .ok (code, data, (wireData snappy compressed data).length) := by
  obtain ⟨short,frameFits⟩ := not_or.mp fits
  have bounded : (plainMessage code (wireData snappy compressed data)).length < 2 ^ 64 := by
    rw [plainMessage_length]
    exact (Nat.le_of_not_lt frameFits).trans_lt (by decide)
  have shortData := Nat.le_of_not_lt short
  rw [decodeMessage,plainMessage,splitUint64_encode bounded]
  cases compressed with
  | false => rfl
  | true =>
    have lengthEq := lawful.decodedLen_encode data shortData
    have plainEq := lawful.decode_encode data shortData
    simp [wireData,lengthEq,plainEq,if_neg short]

end Messages

/-- The receiving side of one connection is where the sending side of the other is. -/
structure InStep (sender receiver : Conn) : Prop where
  position : receiver.session.dec = sender.session.enc
  mac : receiver.session.ingressMAC = sender.session.egressMAC
  snappy : receiver.snappy = sender.snappy

/-- The receiver has buffered, or is going to get from its socket, exactly `bytes`. -/
def Receives (receiver : Conn) (bytes : List UInt8) : Prop :=
  Incoming receiver.session.rbuf receiver.conn bytes

/-- Reading the frame of a message gives the message and leaves the receiver where the
sender is behind the frame. -/
theorem read_of_frame (ciphers : Ciphers) (lawful : snappy.Lawful) (spare : Nat → Nat)
    {sender receiver : Conn} {data wire later : List UInt8} (inStep : InStep sender receiver)
    (fits : ¬ TooLarge snappy sender.snappy code data)
    (frame : Frame ciphers sender.session.enc sender.session.egressMAC
      (plainMessage code (wireData snappy sender.snappy data)) wire positionAfter macAfter)
    (receives : Receives receiver (wire ++ later)) : ∃ wireSize receiverAfter,
      read ciphers snappy spare receiver = some (.ok (code, data, wireSize), receiverAfter) ∧
      InStep (sender.sent positionAfter macAfter) receiverAfter ∧ Receives receiverAfter later := by
  rw [← inStep.position,← inStep.mac] at frame
  obtain ⟨view,rbuf,connAfter,frameRead,incoming,contents⟩ :=
    readFrame_eq ciphers spare frame receives
  have decoded := decodeMessage_eq lawful fits
  rw [← inStep.snappy] at decoded contents
  refine ⟨(wireData snappy receiver.snappy data).length,{ receiver with
    conn := connAfter
    session := { receiver.session with
      dec := positionAfter, ingressMAC := macAfter, rbuf := rbuf } },?_,⟨rfl,rfl,inStep.snappy⟩,
    incoming⟩
  simp [read,frameRead,contents,decoded]

/-! ### Runs -/

/-- Writes one after the other: their results, the connection after them and all the
bytes that were given to the network. -/
def writeAll (ciphers : Ciphers) (snappy : Snappy) (c : Conn) :
    List (UInt64 × List UInt8) →
      Option (List (Except ConnErr UInt32) × Conn × List UInt8)
  | [] => some ([], c, [])
  | (code, data) :: messages => do
      let (result, c, bytes) ← write ciphers snappy c code data
      let (results, c, more) ← writeAll ciphers snappy c messages
      some (result :: results, c, bytes ++ more)

def readMany (ciphers : Ciphers) (snappy : Snappy) (spare : Nat → Nat) (c : Conn) :
    Nat → Option (List (Except ConnErr (UInt64 × List UInt8 × Nat)) × Conn)
  | 0 => some ([], c)
  | count + 1 => do
      let (result, c) ← read ciphers snappy spare c
      let (results, c) ← readMany ciphers snappy spare c count
      some (result :: results, c)

def accepted (messages : List (UInt64 × List UInt8)) (results : List (Except ConnErr UInt32)) :
    List (UInt64 × List UInt8) :=
  (messages.zip results).filterMap fun pair =>
    match pair.2 with
    | .ok _ => some pair.1
    | .error _ => none

def pairOf (message : UInt64 × List UInt8 × Nat) : UInt64 × List UInt8 := (message.1, message.2.1)

/-- The reads give the pairs, and both sides are in step with `later` to come. -/
def Delivers (ciphers : Ciphers) (snappy : Snappy) (spare : Nat → Nat)
    (pairs : List (UInt64 × List UInt8)) (senderAfter receiver : Conn) (later : List UInt8) :
    Prop :=
  ∃ reads receiverAfter,
    readMany ciphers snappy spare receiver pairs.length = some (reads, receiverAfter) ∧
    reads.map (Except.map pairOf) = pairs.map .ok ∧
    InStep senderAfter receiverAfter ∧ Receives receiverAfter later

theorem Delivers.cons {spare : Nat → Nat} {data later : List UInt8}
    {wireSize : Nat} {pairs : List (UInt64 × List UInt8)} {senderAfter receiver between : Conn}
    (readEq : read ciphers snappy spare receiver = some (.ok (code, data, wireSize), between))
    (delivers : Delivers ciphers snappy spare pairs senderAfter between later) :
    Delivers ciphers snappy spare ((code, data) :: pairs) senderAfter receiver later := by
  obtain ⟨reads,receiverAfter,manyEq,pairsEq,inStep,receives⟩ := delivers
  refine ⟨.ok (code, data, wireSize) :: reads,receiverAfter,?_,?_,inStep,receives⟩
  · simp [readMany,readEq,manyEq]
  · rw [map_cons,map_cons,pairsEq]
    rfl

theorem writeAll_delivers (ciphers : Ciphers) (lawful : snappy.Lawful) (spare : Nat → Nat)
    (sender : Conn) (messages : List (UInt64 × List UInt8)) : ∃ results senderAfter wire,
      writeAll ciphers snappy sender messages = some (results, senderAfter, wire) ∧
      accepted messages results =
        messages.filter (fun message => ¬ TooLarge snappy sender.snappy message.1 message.2) ∧
      ∀ receiver later, InStep sender receiver → Receives receiver (wire ++ later) →
        Delivers ciphers snappy spare (accepted messages results) senderAfter receiver later := by
  induction messages generalizing sender with
  | nil =>
    refine ⟨[],sender,[],rfl,rfl,?_⟩
    intro receiver later inStep receives
    exact ⟨[],receiver,rfl,rfl,inStep,receives⟩
  | cons message messages ih =>
    obtain ⟨code,data⟩ := message
    by_cases large : TooLarge snappy sender.snappy code data
    · obtain ⟨results,senderAfter,wire,wroteRest,acceptedEq,delivered⟩ := ih sender
      refine ⟨.error .plainMessageTooLarge :: results,senderAfter,wire,?_,?_,delivered⟩
      · simp [writeAll,write_of_tooLarge ciphers large,wroteRest]
      · rw [filter_cons_of_neg (by simpa using large)]
        exact acceptedEq
    · obtain ⟨positionAfter,macAfter,bytes,wrote,frame⟩ := write_of_fits ciphers large
      obtain ⟨results,senderAfter,wire,wroteRest,acceptedEq,delivered⟩ :=
        ih (sender.sent positionAfter macAfter)
      refine ⟨.ok (UInt32.ofNat (wireData snappy sender.snappy data).length) :: results,
        senderAfter,bytes ++ wire,?_,?_,?_⟩
      · simp [writeAll,wrote,wroteRest]
      · rw [filter_cons_of_pos (by simpa using large)]
        exact congrArg (cons (code, data)) acceptedEq
      · intro receiver later inStep receives
        rw [append_assoc] at receives
        obtain ⟨wireSize,between,readEq,inStepBetween,receivesBetween⟩ :=
          read_of_frame ciphers lawful spare inStep large frame receives
        exact (delivered between later inStepBetween receivesBetween).cons readEq

theorem read_nothing (ciphers : Ciphers) (snappy : Snappy) (spare : Nat → Nat) {receiver : Conn}
    (receives : Receives receiver []) :
    ∃ error after, read ciphers snappy spare receiver = some (.error error, after) := by
  obtain ⟨error,after,connAfter,readEq⟩ := readFrame_error ciphers spare receives
  refine ⟨error,{ receiver with session := after, conn := connAfter },?_⟩
  simp [read,readEq]

/-- For every sequence of writes the other side reads exactly the messages whose write
returned no error, in order, wherever the bytes are cut, and finds no message behind
them.  A write is refused exactly when the data or the frame is too large, and then it
sends nothing and the connection is as before. -/
theorem transport_delivers_accepted (ciphers : Ciphers) (lawful : snappy.Lawful)
    (spare : Nat → Nat) (sender : Conn) (messages : List (UInt64 × List UInt8)) :
    (∃ results senderAfter wire,
      writeAll ciphers snappy sender messages = some (results, senderAfter, wire) ∧
      accepted messages results =
        messages.filter (fun message => ¬ TooLarge snappy sender.snappy message.1 message.2) ∧
      ∀ receiver later, InStep sender receiver → Receives receiver (wire ++ later) →
        Delivers ciphers snappy spare (accepted messages results) senderAfter receiver later) ∧
    (∀ (c : Conn) (code : UInt64) (data : List UInt8), TooLarge snappy c.snappy code data →
      write ciphers snappy c code data = some (.error .plainMessageTooLarge, c, [])) ∧
    ∀ receiver, Receives receiver [] →
      ∃ error after, read ciphers snappy spare receiver = some (.error error, after) := by
  refine ⟨writeAll_delivers ciphers lawful spare sender messages,?_,?_⟩
  · intro c code data large
    exact write_of_tooLarge ciphers large
  · intro receiver receives
    exact read_nothing ciphers snappy spare receives

def countingCiphers : Ciphers where
  keyStream := fun position => UInt8.ofNat (7 * position + 3)
  encryptBlock := fun block => fillArray 16 (block.map (· + 1))
  digest := fun written => fillArray 32 ((minimal (value written)).reverse)

/-- `binary.PutUvarint`. -/
def uvarint (n : Nat) : List UInt8 :=
  if n < 128 then [UInt8.ofNat n] else UInt8.ofNat (n % 128 + 128) :: uvarint (n / 128)
termination_by n
decreasing_by omega

def readUvarint : List UInt8 → Option (Nat × List UInt8)
  | [] => none
  | byte :: bytes =>
    if byte < 128 then some (byte.toNat, bytes)
    else (readUvarint bytes).map fun (n, rest) => (byte.toNat % 128 + 128 * n, rest)

theorem readUvarint_uvarint (n : Nat) (rest : List UInt8) :
    readUvarint (uvarint n ++ rest) = some (n, rest) := by
  induction n using Nat.strong_induction_on with
  | _ n ih =>
    rw [uvarint]
    split
    · rename_i small
      have byteEq : (UInt8.ofNat n).toNat = n := Nat.mod_eq_of_lt (by omega)
      rw [singleton_append,readUvarint,if_pos (by rw [UInt8.lt_iff_toNat_lt,byteEq]; exact small),
        byteEq]
    · have byteEq : (UInt8.ofNat (n % 128 + 128)).toNat = n % 128 + 128 :=
        Nat.mod_eq_of_lt (by omega)
      have high : ¬ UInt8.ofNat (n % 128 + 128) < 128 := by
        rw [UInt8.lt_iff_toNat_lt,byteEq]
        exact not_lt.mpr (Nat.le_add_left 128 _)
      rw [cons_append,readUvarint,if_neg high,ih (n / 128) (by omega),byteEq]
      simp only [map_some,some.injEq,Prod.mk.injEq,and_true]
      omega

/-- The tag of a literal. -/
def literalTag (n : Nat) : List UInt8 :=
  if n = 0 then []
  else if n ≤ 60 then [UInt8.ofNat (4 * (n - 1))]
  else 0xF8 :: LittleEndian.bytesOf 3 (n - 1)

/-- All data as one literal. -/
def literalSnappy : Snappy where
  encode := fun data => uvarint data.length ++ (literalTag data.length ++ data)
  decodedLen := fun bytes => (readUvarint bytes).map Prod.fst
  decode := fun bytes => (readUvarint bytes).map fun (n, rest) => rest.drop (literalTag n).length

theorem literalSnappy_lawful : literalSnappy.Lawful where
  decodedLen_encode := fun _ _ => by simp [literalSnappy,readUvarint_uvarint]
  decode_encode := fun _ _ => by simp [literalSnappy,readUvarint_uvarint]

/-- The receiver gets one byte at a time. -/
theorem transport_delivers_bytewise : ∃ results senderAfter wire,
    writeAll countingCiphers literalSnappy (initWithSecrets ⟨.stream, []⟩ ⟨[1]⟩ ⟨[2]⟩ true)
      [(16, [1, 2, 3]), (0, [])] = some (results, senderAfter, wire) ∧
    Delivers countingCiphers literalSnappy (fun _ => 0)
      (accepted [(16, [1, 2, 3]), (0, [])] results) senderAfter
      (initWithSecrets (Socket.deliver ⟨.stream, []⟩ (wire.map fun byte => [byte]))
        ⟨[2]⟩ ⟨[1]⟩ true) [] := by
  obtain ⟨results,senderAfter,wire,wrote,_,delivered⟩ :=
    (transport_delivers_accepted countingCiphers literalSnappy_lawful (fun _ => 0)
      (initWithSecrets ⟨.stream,[]⟩ ⟨[1]⟩ ⟨[2]⟩ true) [(16, [1,2,3]),(0, [])]).1
  refine ⟨results,senderAfter,wire,wrote,delivered _ [] ⟨rfl,rfl,rfl⟩ ?_⟩
  refine ⟨rfl,[],ReadBuffer.holds_empty,?_⟩
  have arrives : (Socket.deliver ⟨.stream,[]⟩ (wire.map fun byte => [byte])).available =
      [] ++ (wire.map fun byte => [byte]).flatten :=
    Socket.available_deliver rfl (by simp) _
  rw [append_nil,nil_append]
  exact arrives.trans (by rw [nil_append,← flatMap_def,flatMap_singleton'])

end PioplatRelay.Rlpx
