import PioplatRelay.RelayReceiver

/-!
# The relay's TCP loop

One iteration of `handleTcpMsgLoop` reads a frame from a relay connection and
hands the object in it to the node.  The receive buffer grows to the declared
length, so only a body shorter than its checksum can take a slice expression
out of range.
-/

namespace PioplatRelay

open LittleEndian List Receiver Option

/-- `pioplatConn`: the receiving side, the remote address and the close flag. -/
structure PioplatConn (Pool Tx Block : Type) extends Receiver Pool Tx Block where
  addr : String
  close : Bool

variable {Pool Tx Block : Type}

def tcpBufferSize : Nat := 0x20000

namespace PioplatConn

def start (socket : Socket) (pool : Pool) (addr : String) : PioplatConn Pool Tx Block where
  reader := .ofSocket socket
  recvBuf := replicate tcpBufferSize 0
  hash := .zero
  pool := pool
  enqueued := []
  addr := addr
  close := false

def shut (conn : PioplatConn Pool Tx Block) : PioplatConn Pool Tx Block :=
  { conn with close := true }

def drain (conn : PioplatConn Pool Tx Block) : PioplatConn Pool Tx Block :=
  let result := conn.reader.socket.read conn.recvBuf.length
  { conn with
    reader := { conn.reader with socket := result.2 }
    recvBuf := match result.1 with
      | .data bytes => copyAt conn.recvBuf 0 bytes
      | _ => conn.recvBuf }

def grow (totalLength : UInt32) (conn : PioplatConn Pool Tx Block) :
    PioplatConn Pool Tx Block :=
  if conn.recvBuf.length < totalLength.toNat then
    { conn with recvBuf := replicate (totalLength + 1).toNat 0 }
  else conn

def handleBody (node : RelayNode Pool Tx Block) (msgType : UInt8) (totalLength : UInt32)
    (conn : PioplatConn Pool Tx Block) :
    Option (Iteration (PioplatConn Pool Tx Block)) := do
  let conn := conn.grow totalLength
  let (recvN, status, receiver) ← conn.readFullInto totalLength.toNat
  let conn := { conn with toReceiver := receiver }
  if status ≠ .filled then
    return .again conn
  let intact ← bodyIntact node.crc conn.recvBuf recvN
  if intact = false then
    return .again conn
  if msgType = transactionMsg then
    let receiver ← node.acceptTransaction recvN conn.toReceiver
    return .again { conn with toReceiver := receiver }
  else if msgType = blockMsg then
    let receiver ← node.acceptBlock conn.addr recvN conn.toReceiver
    return .again { conn with toReceiver := receiver }
  else return .again conn

/-- One iteration; `none` is a slice expression out of range. -/
def handleFrame (node : RelayNode Pool Tx Block) (conn : PioplatConn Pool Tx Block) :
    Option (Iteration (PioplatConn Pool Tx Block)) := do
  if conn.close then
    return .finished conn.shut
  let (_, status, receiver) ← conn.readFullInto headerSize
  let conn := { conn with toReceiver := receiver }
  if status ≠ .filled then
    return .finished conn.shut
  let intact ← headerIntact node.crc conn.recvBuf
  if intact = false then
    return .again conn.drain
  let msgType ← conn.recvBuf[3]?
  let (totalLength, receiver) ← conn.takeFields
  handleBody node msgType totalLength { conn with toReceiver := receiver }

end PioplatConn

def handleTcpMsgLoop (node : RelayNode Pool Tx Block) (conn : PioplatConn Pool Tx Block) :
    Iteration (PioplatConn Pool Tx Block) :=
  (conn.handleFrame node).getD .panicked

namespace PioplatConn

structure Ready (conn : PioplatConn Pool Tx Block) : Prop where
  streaming : conn.reader.socket.transport = .stream
  roomy : tcpBufferSize ≤ conn.recvBuf.length
  opened : conn.close = false

theorem start_ready (arrivals : List Arrival) (pool : Pool) (addr : String) :
    (start ⟨.stream,arrivals⟩ pool addr : PioplatConn Pool Tx Block).Ready where
  streaming := rfl
  roomy := by simp [start]
  opened := rfl

variable {conn : PioplatConn Pool Tx Block} {node : RelayNode Pool Tx Block} {totalLength : UInt32}

theorem Ready.fits (ready : conn.Ready) (length : Nat) : conn.reader.Fits length := by
  intro datagram
  rw [ready.streaming] at datagram
  cases datagram

theorem handleFrame_without_header (node : RelayNode Pool Tx Block) (ready : conn.Ready)
    (missing : conn.reader.unread.length < headerSize) :
    ∃ status reader recvBuf, conn.handleFrame node = some (.finished { conn with
          reader := reader, recvBuf := recvBuf, close := true }) ∧
      conn.reader.CutOff status reader ∧ conn.reader.Continues reader := by
  have room : headerSize ≤ conn.recvBuf.length :=
    le_trans (by decide) ready.roomy
  obtain ⟨count,status,reader,recvBuf,readEq,cutOff,-,continues⟩ :=
    readFullInto_short (ready.fits headerSize) room missing
  refine ⟨status,reader,recvBuf,?_,cutOff,continues⟩
  simp [handleFrame,ready.opened,readEq,cutOff.not_filled,shut]

theorem readHeader (ready : conn.Ready) (whole : headerSize ≤ conn.reader.unread.length) :
    ∃ reader rest, conn.readFullInto headerSize = some (headerSize, .filled,
          { conn.toReceiver with
            reader := reader
            recvBuf := conn.reader.unread.take headerSize ++ rest }) ∧
      reader.unread = conn.reader.unread.drop headerSize ∧
      conn.reader.Continues reader ∧ ({ conn with
          reader := reader
          recvBuf := conn.reader.unread.take headerSize ++ rest } :
        PioplatConn Pool Tx Block).Ready := by
  have room : headerSize ≤ conn.recvBuf.length :=
    le_trans (by decide) ready.roomy
  obtain ⟨reader,readEq,unreadEq,continues⟩ :=
    readFullInto_filled (ready.fits headerSize) room whole
  refine ⟨reader,conn.recvBuf.drop headerSize,readEq,unreadEq,continues,
    ⟨continues.transport.trans ready.streaming,?_,ready.opened⟩⟩
  have roomy := ready.roomy
  simp only [length_append,length_take,length_drop]
  omega

theorem drain_ready (ready : conn.Ready) : conn.drain.Ready where
  streaming := by
    rw [← ready.streaming]
    exact Socket.read_transport _ _
  roomy := by
    have roomy := ready.roomy
    unfold drain
    dsimp only
    split <;> simpa using roomy
  opened := ready.opened

theorem handleFrame_corrupt (ready : conn.Ready) (whole : headerSize ≤ conn.reader.unread.length)
    (corrupt : ¬ HeaderIntact node.crc conn.reader.unread) :
    ∃ after, conn.handleFrame node = some (.again after) ∧ after.Ready ∧
      after.enqueued = conn.enqueued := by
  obtain ⟨reader,rest,readEq,-,-,filledReady⟩ := readHeader ready whole
  have mismatch := headerIntact_front whole node.crc rest
  rw [decide_eq_false corrupt] at mismatch
  refine ⟨_,?_,drain_ready filledReady,rfl⟩
  simp [handleFrame,ready.opened,readEq,mismatch]

theorem handleFrame_intact (ready : conn.Ready) (whole : headerSize ≤ conn.reader.unread.length)
    (intact : HeaderIntact node.crc conn.reader.unread) :
    ∃ totalLength after, conn.handleFrame node =
        handleBody node (declaredType conn.reader.unread) totalLength after ∧
      after.Ready ∧ conn.reader.Continues after.reader ∧
      after.reader.unread = conn.reader.unread.drop headerSize ∧
      totalLength.toNat = declaredLength conn.reader.unread ∧
      after.hash.bytes = declaredHash conn.reader.unread ∧
      after.pool = conn.pool ∧ after.enqueued = conn.enqueued ∧ after.addr = conn.addr := by
  obtain ⟨reader,rest,readEq,unreadEq,continues,filledReady⟩ := readHeader ready whole
  have typeByte := declaredType_front whole rest
  have matching := headerIntact_front whole node.crc rest
  rw [decide_eq_true intact] at matching
  obtain ⟨totalLength,hash,recvBuf,fieldsEq,bufLength,lengthEq,hashEq⟩ :=
    takeFields_front { conn.toReceiver with
      reader := reader, recvBuf := conn.reader.unread.take headerSize ++ rest } whole rfl
  refine ⟨totalLength,{ conn with reader := reader, recvBuf := recvBuf, hash := hash },
    ?_,⟨filledReady.streaming,?_,ready.opened⟩,continues,unreadEq,lengthEq,hashEq,
    rfl,rfl,rfl⟩
  · simp [handleFrame,ready.opened,readEq,matching,typeByte,fieldsEq]
  · rw [bufLength]
    exact filledReady.roomy

theorem grow_reader (totalLength : UInt32) (conn : PioplatConn Pool Tx Block) :
    ∃ recvBuf, conn.grow totalLength = { conn with recvBuf := recvBuf } := by
  unfold grow
  split
  · exact ⟨_,rfl⟩
  · exact ⟨conn.recvBuf,rfl⟩

/-- After growing, the buffer holds a body of the declared length, which is
below `2 ^ 24` in any header. -/
theorem grow_room (ready : conn.Ready) (bounded : totalLength.toNat < 2 ^ 24) :
    (conn.grow totalLength).Ready ∧ totalLength.toNat ≤ (conn.grow totalLength).recvBuf.length := by
  have roomy := ready.roomy
  by_cases small : conn.recvBuf.length < totalLength.toNat
  · have grown : (totalLength + 1).toNat = totalLength.toNat + 1 := by
      rw [UInt32.toNat_add]
      simp only [UInt32.toNat_one]
      omega
    simp only [grow,if_pos small]
    refine ⟨⟨ready.streaming,?_,ready.opened⟩,?_⟩
    · simp only [length_replicate]
      omega
    · simp only [length_replicate]
      omega
  · simp only [grow,if_neg small]
    exact ⟨ready,by omega⟩

theorem readBody (ready : conn.Ready) (bounded : totalLength.toNat < 2 ^ 24)
    (there : totalLength.toNat ≤ conn.reader.unread.length) :
    ∃ reader rest, (conn.grow totalLength).readFullInto totalLength.toNat =
        some (totalLength.toNat, .filled,
          { conn.toReceiver with
            reader := reader
            recvBuf := conn.reader.unread.take totalLength.toNat ++ rest }) ∧ ({ conn with
          reader := reader
          recvBuf := conn.reader.unread.take totalLength.toNat ++ rest } :
        PioplatConn Pool Tx Block).Ready ∧
      conn.reader.Continues reader ∧
      reader.unread = conn.reader.unread.drop totalLength.toNat := by
  obtain ⟨grownReady,room⟩ := grow_room ready bounded
  obtain ⟨recvBuf,grownEq⟩ := grow_reader totalLength conn
  rw [grownEq] at grownReady room ⊢
  obtain ⟨reader,readEq,unreadEq,continues⟩ :=
    readFullInto_filled (grownReady.fits _) room there
  refine ⟨reader,recvBuf.drop totalLength.toNat,readEq,
    ⟨continues.transport.trans grownReady.streaming,?_,ready.opened⟩,continues,unreadEq⟩
  have roomy := grownReady.roomy
  simp only [length_append,length_take,length_drop]
  dsimp only at roomy room
  omega

theorem handleBody_undersized {msgType : UInt8} (ready : conn.Ready)
    (there : totalLength.toNat ≤ conn.reader.unread.length)
    (undersized : totalLength.toNat < crc32Size) :
    handleBody node msgType totalLength conn = none := by
  have bounded : totalLength.toNat < 2 ^ 24 := lt_trans undersized (by decide)
  obtain ⟨reader,rest,readEq,-⟩ := readBody ready bounded there
  have outOfRange := bodyIntact_front there node.crc rest
  rw [if_pos undersized] at outOfRange
  simp [handleBody,readEq,outOfRange]

def deliver (node : RelayNode Pool Tx Block) (msgType : UInt8) (data : List UInt8)
    (conn : PioplatConn Pool Tx Block) : PioplatConn Pool Tx Block :=
  if msgType = transactionMsg then
    { conn with
      toReceiver := conn.handOver node (node.hasTransaction conn.hash conn.pool)
        ((node.txCodec.decode data).map fun tx => .transactions ":" [tx] false) }
  else if msgType = blockMsg then
    { conn with
      toReceiver := conn.handOver node (node.hasBlock conn.hash conn.pool)
        ((node.blockCodec.decode data).map fun block => .block conn.addr block) }
  else conn

theorem deliver_ready (node : RelayNode Pool Tx Block) (msgType : UInt8) (data : List UInt8)
    (ready : conn.Ready) : (deliver node msgType data conn).Ready := by
  unfold deliver
  split
  · exact ⟨by simpa using ready.streaming,by simpa using ready.roomy,ready.opened⟩
  · split
    · exact ⟨by simpa using ready.streaming,by simpa using ready.roomy,ready.opened⟩
    · exact ready

/-- A body with all its bytes and room for its checksum is delivered when the
checksum is right, and dropped when it is wrong. -/
theorem handleBody_filled (node : RelayNode Pool Tx Block) (msgType : UInt8) (ready : conn.Ready)
    (bounded : totalLength.toNat < 2 ^ 24) (there : totalLength.toNat ≤ conn.reader.unread.length)
    (long : crc32Size ≤ totalLength.toNat) :
    let body := conn.reader.unread.take totalLength.toNat
    let data := body.take (totalLength.toNat - crc32Size)
    ∃ reader recvBuf,({ conn with reader := reader, recvBuf := recvBuf } :
        PioplatConn Pool Tx Block).Ready ∧
      conn.reader.Continues reader ∧
      reader.unread = conn.reader.unread.drop totalLength.toNat ∧
      handleBody node msgType totalLength conn = some (.again (
          if node.crc data = uint32 (body.drop (totalLength.toNat - crc32Size)) then
            deliver node msgType data { conn with reader := reader, recvBuf := recvBuf }
          else { conn with reader := reader, recvBuf := recvBuf })) := by
  intro body data
  obtain ⟨reader,rest,readEq,filledReady,continues,unreadEq⟩ :=
    readBody ready bounded there
  obtain ⟨grownBuf,grownEq⟩ := grow_reader totalLength conn
  have compared := bodyIntact_front there node.crc rest
  rw [if_neg (Nat.not_lt.mpr long)] at compared
  refine ⟨reader,body ++ rest,filledReady,continues,unreadEq,?_⟩
  rw [grownEq] at readEq
  by_cases equal : node.crc data = uint32 (body.drop (totalLength.toNat - crc32Size))
  · rw [decide_eq_true equal] at compared
    have accepts {Object : Type} (has : Hash → Pool → Bool × Pool)
        (decode : List UInt8 → Option Object) (enqueue : Object → Enqueue Tx Block) :=
      node.acceptObject_front has decode enqueue { conn.toReceiver with reader := reader } there
        long rest
    rw [if_pos equal]
    simp only [handleBody,grownEq,readEq,deliver,RelayNode.acceptTransaction,RelayNode.acceptBlock]
    simp only [bind_eq_bind,ite_not,bind_some,↓reduceIte,compared,accepts,Bool.true_eq_false,body]
    split
    · rfl
    · split <;> rfl
  · rw [decide_eq_false equal] at compared
    simp [handleBody,readEq,grownEq,compared,equal,body]

theorem handleBody_cutOff {msgType : UInt8} (ready : conn.Ready)
    (bounded : totalLength.toNat < 2 ^ 24)
    (missing : conn.reader.unread.length < totalLength.toNat) :
    ∃ after, handleBody node msgType totalLength conn = some (.again after) ∧
      after.Ready ∧ after.enqueued = conn.enqueued := by
  obtain ⟨grownReady,room⟩ := grow_room ready bounded
  obtain ⟨grownBuf,grownEq⟩ := grow_reader totalLength conn
  rw [grownEq] at grownReady room
  obtain ⟨count,status,reader,recvBuf,readEq,cutOff,lengthEq,continues⟩ :=
    readFullInto_short (grownReady.fits _) room missing
  refine ⟨{ conn with reader := reader, recvBuf := recvBuf },?_,
    ⟨continues.transport.trans grownReady.streaming,?_,ready.opened⟩,rfl⟩
  · simp [handleBody,grownEq,readEq,cutOff.not_filled]
  · simpa [lengthEq] using grownReady.roomy

end PioplatConn

/-- The bytes at hand are an intact header and a whole body that is too short
to hold its checksum. -/
structure FrameUndersized (crc : Checksum) (bytes : List UInt8) : Prop where
  whole : headerSize ≤ bytes.length
  intact : HeaderIntact crc bytes
  short : declaredLength bytes < crc32Size
  there : headerSize + declaredLength bytes ≤ bytes.length

namespace PioplatConn

variable {node : RelayNode Pool Tx Block} {conn : PioplatConn Pool Tx Block}

theorem handleFrame_undersized (ready : conn.Ready)
    (undersized : FrameUndersized node.crc conn.reader.unread) : conn.handleFrame node = none := by
  obtain ⟨totalLength,after,frameEq,afterReady,-,unreadEq,lengthEq,-⟩ :=
    handleFrame_intact ready undersized.whole undersized.intact
  have there := undersized.there
  rw [frameEq]
  apply handleBody_undersized afterReady
  · rw [unreadEq,lengthEq,length_drop]
    omega
  · rw [lengthEq]
    exact undersized.short

/-- The connection stands at a frame, and the object in it is new to the node. -/
inductive Takes (node : RelayNode Pool Tx Block) (conn : PioplatConn Pool Tx Block) :
    Hash → Enqueue Tx Block → Prop
  | transaction {hash : Hash} {data rest : List UInt8} {tx : Tx}
      (ahead : FrameAhead node.crc transactionMsg hash data rest conn.reader.unread)
      (unknown : (node.hasTransaction hash conn.pool).1 = false)
      (decoded : node.txCodec.decode data = some tx) :
      Takes node conn hash (.transactions ":" [tx] false)
  | block {hash : Hash} {data rest : List UInt8} {block : Block}
      (ahead : FrameAhead node.crc blockMsg hash data rest conn.reader.unread)
      (unknown : (node.hasBlock hash conn.pool).1 = false)
      (decoded : node.blockCodec.decode data = some block) :
      Takes node conn hash (.block conn.addr block)

/-- The calls after an iteration are those before it and the call for the object
that the iteration takes, if it takes one. -/
def CallsFrom (node : RelayNode Pool Tx Block) (conn after : PioplatConn Pool Tx Block) : Prop :=
  after.enqueued = conn.enqueued ∨
    ∃ hash call, Takes node conn hash call ∧ after.enqueued = conn.enqueued ++ [call]

theorem deliver_callsFrom {msgType : UInt8} {data rest : List UInt8}
    {middle : PioplatConn Pool Tx Block}
    (ahead : FrameAhead node.crc msgType middle.hash data rest conn.reader.unread)
    (poolEq : middle.pool = conn.pool) (enqueuedEq : middle.enqueued = conn.enqueued)
    (addrEq : middle.addr = conn.addr) :
    CallsFrom node conn (deliver node msgType data middle) := by
  unfold CallsFrom deliver
  rw [← enqueuedEq]
  split
  · rename_i isTransaction
    subst isTransaction
    rcases middle.handOver_enqueued node (node.hasTransaction middle.hash middle.pool)
      ((node.txCodec.decode data).map fun tx => .transactions ":" [tx] false) with
      same | ⟨call,unknown,callEq,grown⟩
    · exact .inl same
    · rcases map_eq_some_iff.mp callEq with ⟨tx,decoded,rfl⟩
      rw [poolEq] at unknown
      exact .inr ⟨_,_,.transaction ahead unknown decoded,grown⟩
  · split
    · rename_i isBlock
      subst isBlock
      rcases middle.handOver_enqueued node (node.hasBlock middle.hash middle.pool)
        ((node.blockCodec.decode data).map fun block => .block middle.addr block) with
        same | ⟨call,unknown,callEq,grown⟩
      · exact .inl same
      · rcases map_eq_some_iff.mp callEq with ⟨block,decoded,rfl⟩
        rw [poolEq] at unknown
        refine .inr ⟨_,_,.block ahead unknown decoded,?_⟩
        rw [← addrEq]
        exact grown
    · exact .inl rfl

theorem handleFrame_in_range (ready : conn.Ready)
    (fine : ¬ FrameUndersized node.crc conn.reader.unread) :
    (∃ after, conn.handleFrame node = some (.again after) ∧ after.Ready ∧
        CallsFrom node conn after) ∨
      ∃ after, conn.handleFrame node = some (.finished after) ∧ after.close = true ∧
        CallsFrom node conn after := by
  by_cases whole : headerSize ≤ conn.reader.unread.length
  · left
    by_cases intact : HeaderIntact node.crc conn.reader.unread
    · obtain ⟨totalLength,after,frameEq,afterReady,-,unreadEq,lengthEq,hashEq,poolEq,
        enqueuedEq,addrEq⟩ := handleFrame_intact ready whole intact
      have bounded : totalLength.toNat < 2 ^ 24 := by
        rw [lengthEq]
        exact declaredLength_lt (le_trans (by decide) whole)
      rw [frameEq]
      by_cases missing : after.reader.unread.length < totalLength.toNat
      · obtain ⟨last,bodyEq,lastReady,lastEq⟩ :=
          handleBody_cutOff afterReady bounded missing
        exact ⟨last,bodyEq,lastReady,.inl (lastEq.trans enqueuedEq)⟩
      · have there := Nat.le_of_not_lt missing
        have long : crc32Size ≤ totalLength.toNat := by
          by_contra short
          refine fine ⟨whole,intact,by omega,?_⟩
          rw [unreadEq,length_drop] at missing
          omega
        obtain ⟨reader,recvBuf,filledReady,-,-,bodyEq⟩ :=
          handleBody_filled node (declaredType conn.reader.unread) afterReady bounded there long
        refine ⟨_,bodyEq,?_⟩
        split
        · rename_i checksumEq
          rw [unreadEq,lengthEq] at checksumEq
          have ahead := FrameAhead.of_body whole intact hashEq.symm (by omega)
            (by rwa [unreadEq,lengthEq] at there) checksumEq
          rw [unreadEq,lengthEq]
          exact ⟨deliver_ready _ _ _ filledReady,deliver_callsFrom ahead poolEq enqueuedEq addrEq⟩
        · exact ⟨filledReady,.inl enqueuedEq⟩
    · obtain ⟨after,frameEq,afterReady,afterEq⟩ := handleFrame_corrupt ready whole intact
      exact ⟨after,frameEq,afterReady,.inl afterEq⟩
  · right
    obtain ⟨status,reader,recvBuf,frameEq,-⟩ :=
      handleFrame_without_header node ready (Nat.lt_of_not_le whole)
    exact ⟨_,frameEq,rfl,.inl rfl⟩

end PioplatConn

variable {node : RelayNode Pool Tx Block}

theorem handleTcpMsgLoop_panicked_iff {conn : PioplatConn Pool Tx Block} (ready : conn.Ready) :
    handleTcpMsgLoop node conn = .panicked ↔ FrameUndersized node.crc conn.reader.unread := by
  constructor
  · intro panicked
    by_contra fine
    rcases PioplatConn.handleFrame_in_range ready fine with
      ⟨after,frameEq,-⟩ | ⟨after,frameEq,-⟩ <;>
      simp [handleTcpMsgLoop,frameEq] at panicked
  · intro undersized
    simp [handleTcpMsgLoop,PioplatConn.handleFrame_undersized ready undersized]

variable {conn after : PioplatConn Pool Tx Block}

/-- What an iteration does to a connection, unless it panics. -/
theorem handleTcpMsgLoop_calls (ready : conn.Ready)
    (once : (handleTcpMsgLoop node conn).state = some after) :
    (handleTcpMsgLoop node conn = .again after ∧ after.Ready ∨
      handleTcpMsgLoop node conn = .finished after ∧ after.close = true) ∧
      PioplatConn.CallsFrom node conn after := by
  by_cases undersized : FrameUndersized node.crc conn.reader.unread
  · rw [(handleTcpMsgLoop_panicked_iff ready).mpr undersized] at once
    cases once
  · rcases PioplatConn.handleFrame_in_range ready undersized with
      ⟨next,frameEq,nextReady,calls⟩ | ⟨next,frameEq,closed,calls⟩
    · rw [handleTcpMsgLoop,frameEq] at once ⊢
      cases once
      exact ⟨.inl ⟨rfl,nextReady⟩,calls⟩
    · rw [handleTcpMsgLoop,frameEq] at once ⊢
      cases once
      exact ⟨.inr ⟨rfl,closed⟩,calls⟩

theorem handleTcpMsgLoop_ready (ready : conn.Ready)
    (once : handleTcpMsgLoop node conn = .again after) : after.Ready := by
  rcases (handleTcpMsgLoop_calls ready (congrArg Iteration.state once)).1 with
    ⟨-,afterReady⟩ | ⟨finished,-⟩
  · exact afterReady
  · cases once.symm.trans finished

end PioplatRelay
