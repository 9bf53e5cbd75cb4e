import PioplatRelay.RelayReceiver

/-!
# The relay's UDP loop

`handleUdpMsgLoop` reads all datagrams of the relay port through one buffered
reader, so that it sees a single sequence of bytes.  It accepts transactions
only and, unlike the TCP loop, keeps its first buffer: a declared length above
the buffer is out of range, as is one below the length of a checksum.
-/

namespace PioplatRelay

open LittleEndian Receiver List Arrival

variable {Pool Tx Block : Type}

def udpBufferSize : Nat := 0x1000

namespace Receiver

def udpStart (arrivals : List Arrival) (pool : Pool) : Receiver Pool Tx Block where
  reader := .ofSocket ⟨.datagram,arrivals⟩
  recvBuf := replicate udpBufferSize 0
  hash := .zero
  pool := pool
  enqueued := []

def afterFailedRead (status : FullRead) (receiver : Receiver Pool Tx Block) :
    Iteration (Receiver Pool Tx Block) :=
  if status = .drained then .finished receiver else .again receiver

def handleUdpBody (node : RelayNode Pool Tx Block) (totalLength : UInt32)
    (receiver : Receiver Pool Tx Block) : Option (Iteration (Receiver Pool Tx Block)) := do
  let (recvN, status, receiver) ← receiver.readFullInto totalLength.toNat
  if status ≠ .filled then
    return receiver.afterFailedRead status
  let intact ← bodyIntact node.crc receiver.recvBuf recvN
  if intact = false then
    return .again receiver
  let receiver ← node.acceptTransaction recvN receiver
  return .again receiver

/-- One iteration; `none` is a slice expression out of range. -/
def handleUdpFrame (node : RelayNode Pool Tx Block) (receiver : Receiver Pool Tx Block) :
    Option (Iteration (Receiver Pool Tx Block)) := do
  let (_, status, receiver) ← receiver.readFullInto headerSize
  if status ≠ .filled then
    return receiver.afterFailedRead status
  let intact ← headerIntact node.crc receiver.recvBuf
  if intact = false then
    return .again receiver
  let msgType ← receiver.recvBuf[3]?
  if msgType ≠ transactionMsg then
    return .again receiver
  let (totalLength, receiver) ← receiver.takeFields
  handleUdpBody node totalLength receiver

end Receiver

def handleUdpMsgLoop (node : RelayNode Pool Tx Block) (receiver : Receiver Pool Tx Block) :
    Iteration (Receiver Pool Tx Block) :=
  (receiver.handleUdpFrame node).getD .panicked

namespace Receiver

structure UdpReady (receiver : Receiver Pool Tx Block) : Prop where
  datagrams : receiver.reader.socket.transport = .datagram
  sized : receiver.recvBuf.length = udpBufferSize

theorem udpStart_ready (arrivals : List Arrival) (pool : Pool) :
    (udpStart arrivals pool : Receiver Pool Tx Block).UdpReady where
  datagrams := rfl
  sized := by simp [udpStart]

variable {receiver : Receiver Pool Tx Block} {length : Nat}

theorem UdpReady.readFilled (ready : receiver.UdpReady) (small : length ≤ udpBufferSize)
    (there : length ≤ receiver.reader.unread.length) :
    ∃ reader rest, receiver.readFullInto length = some (length, .filled,
          { receiver with
            reader := reader, recvBuf := receiver.reader.unread.take length ++ rest }) ∧
      reader.unread = receiver.reader.unread.drop length ∧
      receiver.reader.Continues reader ∧
      (receiver.reader.unread.take length ++ rest).length = udpBufferSize := by
  obtain ⟨reader,readEq,unreadEq,continues⟩ :=
    readFullInto_filled (fun _ => small) (ready.sized ▸ small) there
  refine ⟨reader,receiver.recvBuf.drop length,readEq,unreadEq,continues,?_⟩
  simp only [length_append,length_take,length_drop,ready.sized]
  omega

theorem UdpReady.readShort (ready : receiver.UdpReady) (small : length ≤ udpBufferSize)
    (missing : receiver.reader.unread.length < length) :
    ∃ count status after, receiver.readFullInto length = some (count, status, after) ∧
      receiver.reader.CutOff status after.reader ∧ after.UdpReady := by
  obtain ⟨count,status,reader,recvBuf,readEq,cutOff,lengthEq,continues⟩ :=
    readFullInto_short (fun _ => small) (ready.sized ▸ small) missing
  exact ⟨count,status,_,readEq,cutOff,
    ⟨continues.transport.trans ready.datagrams,lengthEq.trans ready.sized⟩⟩

end Receiver

variable (crc : Checksum) (bytes : List UInt8)

/-- The bytes begin with an intact header of a transaction frame. -/
def TransactionAhead : Prop := HeaderIntact crc bytes ∧ declaredType bytes = transactionMsg

instance : Decidable (TransactionAhead crc bytes) := inferInstanceAs (Decidable (_ ∧ _))

namespace Receiver

/-- An iteration that lacks bytes gets nowhere, unless a read failed. -/
def Stalled (before : Receiver Pool Tx Block)
    (result : Option (Iteration (Receiver Pool Tx Block))) : Prop :=
  ∃ status after, result = some (afterFailedRead status after) ∧
    (status = .drained ∨ failure ∈ before.reader.socket.arrivals) ∧ after.UdpReady

variable {receiver : Receiver Pool Tx Block} {node : RelayNode Pool Tx Block} {totalLength : UInt32}

variable {before : Receiver Pool Tx Block}

theorem UdpReady.stalled_of_readShort {status : FullRead}
    {after : Receiver Pool Tx Block} (continues : before.reader.Continues receiver.reader)
    (cutOff : receiver.reader.CutOff status after.reader) (ready : after.UdpReady) :
    before.Stalled (some (afterFailedRead status after)) := by
  refine ⟨status,after,rfl,?_,ready⟩
  rcases cutOff with ⟨-,member⟩ | ⟨drained,-⟩
  · exact Or.inr (continues.failures member)
  · exact Or.inl drained

theorem handleUdpFrame_without_header (node : RelayNode Pool Tx Block) (ready : receiver.UdpReady)
    (missing : receiver.reader.unread.length < headerSize) :
    receiver.Stalled (receiver.handleUdpFrame node) := by
  obtain ⟨count,status,after,readEq,cutOff,afterReady⟩ :=
    ready.readShort (by decide) missing
  have frameEq : receiver.handleUdpFrame node = some (afterFailedRead status after) := by
    simp [handleUdpFrame,readEq,cutOff.not_filled]
  rw [frameEq]
  exact UdpReady.stalled_of_readShort (.refl _) cutOff afterReady

/-- A header that is corrupt or not of a transaction is skipped, alone. -/
theorem handleUdpFrame_skip (node : RelayNode Pool Tx Block) (ready : receiver.UdpReady)
    (whole : headerSize ≤ receiver.reader.unread.length)
    (other : ¬ TransactionAhead node.crc receiver.reader.unread) :
    ∃ after, receiver.handleUdpFrame node = some (.again after) ∧ after.UdpReady ∧
      receiver.reader.Continues after.reader ∧
      after.reader.unread = receiver.reader.unread.drop headerSize ∧
      after.enqueued = receiver.enqueued := by
  obtain ⟨reader,rest,readEq,unreadEq,continues,sized⟩ :=
    ready.readFilled (by decide) whole
  refine ⟨{ receiver with
      reader := reader, recvBuf := receiver.reader.unread.take headerSize ++ rest },
    ?_,⟨continues.transport.trans ready.datagrams,sized⟩,continues,unreadEq,rfl⟩
  have compared := headerIntact_front whole node.crc rest
  have typeByte := declaredType_front whole rest
  by_cases intact : HeaderIntact node.crc receiver.reader.unread
  · have foreign : declaredType receiver.reader.unread ≠ transactionMsg :=
      fun typeEq => other ⟨intact,typeEq⟩
    simp [handleUdpFrame,readEq,compared,typeByte,foreign]
  · simp [handleUdpFrame,readEq,compared,intact]

section

variable (ready : receiver.UdpReady)

include ready

theorem handleUdpFrame_transaction (whole : headerSize ≤ receiver.reader.unread.length)
    (ahead : TransactionAhead node.crc receiver.reader.unread) :
    ∃ totalLength middle, receiver.handleUdpFrame node = handleUdpBody node totalLength middle ∧
      middle.UdpReady ∧ receiver.reader.Continues middle.reader ∧
      middle.reader.unread = receiver.reader.unread.drop headerSize ∧
      totalLength.toNat = declaredLength receiver.reader.unread ∧
      middle.hash.bytes = declaredHash receiver.reader.unread ∧
      middle.pool = receiver.pool ∧ middle.enqueued = receiver.enqueued := by
  obtain ⟨reader,rest,readEq,unreadEq,continues,sized⟩ :=
    ready.readFilled (by decide) whole
  have matching := headerIntact_front whole node.crc rest
  rw [decide_eq_true ahead.1] at matching
  have typeByte := declaredType_front whole rest
  rw [ahead.2] at typeByte
  obtain ⟨totalLength,hash,recvBuf,fieldsEq,bufLength,lengthEq,hashEq⟩ :=
    takeFields_front { receiver with
      reader := reader, recvBuf := receiver.reader.unread.take headerSize ++ rest } whole rfl
  refine ⟨totalLength,{ receiver with reader := reader, recvBuf := recvBuf, hash := hash },
    ?_,⟨continues.transport.trans ready.datagrams,bufLength.trans sized⟩,continues,
    unreadEq,lengthEq,hashEq,rfl,rfl⟩
  simp [handleUdpFrame,readEq,matching,typeByte,fieldsEq]

theorem handleUdpBody_oversized (oversized : udpBufferSize < totalLength.toNat) :
    receiver.handleUdpBody node totalLength = none := by
  have outOfRange := readFullInto_of_lt (ready.sized.symm ▸ oversized)
  simp [handleUdpBody,outOfRange]

theorem handleUdpBody_undersized (there : totalLength.toNat ≤ receiver.reader.unread.length)
    (undersized : totalLength.toNat < crc32Size) :
    receiver.handleUdpBody node totalLength = none := by
  obtain ⟨reader,rest,readEq,-⟩ :=
    ready.readFilled (Nat.le_of_lt (lt_trans undersized (by decide))) there
  have outOfRange := bodyIntact_front there node.crc rest
  rw [if_pos undersized] at outOfRange
  simp [handleUdpBody,readEq,outOfRange]

theorem handleUdpBody_cutOff (continues : before.reader.Continues receiver.reader)
    (small : totalLength.toNat ≤ udpBufferSize)
    (missing : receiver.reader.unread.length < totalLength.toNat) :
    before.Stalled (receiver.handleUdpBody node totalLength) := by
  obtain ⟨count,status,after,readEq,cutOff,afterReady⟩ := ready.readShort small missing
  have bodyEq : receiver.handleUdpBody node totalLength = some (afterFailedRead status after) := by
    simp [handleUdpBody,readEq,cutOff.not_filled]
  rw [bodyEq]
  exact UdpReady.stalled_of_readShort continues cutOff afterReady

end

/-- A body with all its bytes, in range, is accepted when its checksum is
right and dropped when it is wrong. -/
theorem handleUdpBody_filled (node : RelayNode Pool Tx Block) (ready : receiver.UdpReady)
    (there : totalLength.toNat ≤ receiver.reader.unread.length)
    (small : totalLength.toNat ≤ udpBufferSize) (long : crc32Size ≤ totalLength.toNat) :
    let body := receiver.reader.unread.take totalLength.toNat
    let data := body.take (totalLength.toNat - crc32Size)
    ∃ middle : Receiver Pool Tx Block, middle.UdpReady ∧
      receiver.reader.Continues middle.reader ∧
      middle.reader.unread = receiver.reader.unread.drop totalLength.toNat ∧
      middle.hash = receiver.hash ∧ middle.pool = receiver.pool ∧
      middle.enqueued = receiver.enqueued ∧
      receiver.handleUdpBody node totalLength = some (.again (
          if node.crc data = uint32 (body.drop (totalLength.toNat - crc32Size)) then
            middle.handOver node (node.hasTransaction middle.hash middle.pool)
              ((node.txCodec.decode data).map fun tx => .transactions ":" [tx] false)
          else middle)) := by
  intro body data
  obtain ⟨reader,rest,readEq,unreadEq,continues,sized⟩ := ready.readFilled small there
  have compared := bodyIntact_front there node.crc rest
  rw [if_neg (Nat.not_lt.mpr long)] at compared
  refine ⟨{ receiver with reader := reader, recvBuf := body ++ rest },
    ⟨continues.transport.trans ready.datagrams,sized⟩,continues,unreadEq,rfl,rfl,rfl,?_⟩
  by_cases equal : node.crc data = uint32 (body.drop (totalLength.toNat - crc32Size))
  · rw [decide_eq_true equal] at compared
    have accepted := node.acceptObject_front node.hasTransaction node.txCodec.decode
      (fun tx => .transactions ":" [tx] false) { receiver with reader := reader } there long rest
    rw [if_pos equal]
    simp only [handleUdpBody,readEq,RelayNode.acceptTransaction]
    simp [compared,accepted,body,data]
  · rw [decide_eq_false equal] at compared
    simp [handleUdpBody,readEq,compared,equal,body]

end Receiver

/-- The transaction frame ahead has a length that the UDP loop cannot handle:
above its buffer, or below a checksum with all its bytes there. -/
structure DatagramOverrun : Prop where
  whole : headerSize ≤ bytes.length
  ahead : TransactionAhead crc bytes
  length : udpBufferSize < declaredLength bytes ∨
    declaredLength bytes < crc32Size ∧ headerSize + declaredLength bytes ≤ bytes.length

def udpFrameLength : Nat :=
  if TransactionAhead crc bytes then headerSize + declaredLength bytes else headerSize

theorem headerSize_le_udpFrameLength :
    headerSize ≤ udpFrameLength crc bytes := by
  unfold udpFrameLength
  split <;> omega

namespace Receiver

variable {receiver : Receiver Pool Tx Block} {node : RelayNode Pool Tx Block}

theorem handleUdpFrame_overrun (ready : receiver.UdpReady)
    (overrun : DatagramOverrun node.crc receiver.reader.unread) :
    receiver.handleUdpFrame node = none := by
  obtain ⟨totalLength,middle,frameEq,middleReady,-,unreadEq,lengthEq,-⟩ :=
    handleUdpFrame_transaction ready overrun.whole overrun.ahead
  rw [frameEq]
  rcases overrun.length with oversized | ⟨undersized,there⟩
  · exact handleUdpBody_oversized middleReady (lengthEq ▸ oversized)
  · apply handleUdpBody_undersized middleReady
    · rw [unreadEq,lengthEq,length_drop]
      omega
    · rw [lengthEq]
      exact undersized

/-- In range, an iteration with all its bytes takes them and goes round; any
other one stalls. -/
theorem handleUdpFrame_in_range (ready : receiver.UdpReady)
    (fine : ¬ DatagramOverrun node.crc receiver.reader.unread) :
    (∃ after, receiver.handleUdpFrame node = some (.again after) ∧ after.UdpReady ∧
      receiver.reader.Continues after.reader ∧
      udpFrameLength node.crc receiver.reader.unread ≤ receiver.reader.unread.length ∧
      after.reader.unread = receiver.reader.unread.drop
        (udpFrameLength node.crc receiver.reader.unread)) ∨
    receiver.reader.unread.length < udpFrameLength node.crc receiver.reader.unread ∧
      receiver.Stalled (receiver.handleUdpFrame node) := by
  by_cases whole : headerSize ≤ receiver.reader.unread.length
  · by_cases ahead : TransactionAhead node.crc receiver.reader.unread
    · obtain ⟨totalLength,middle,frameEq,middleReady,continues,unreadEq,lengthEq,-⟩ :=
        handleUdpFrame_transaction ready whole ahead
      have small : totalLength.toNat ≤ udpBufferSize := by
        by_contra oversized
        exact fine ⟨whole,ahead,Or.inl (by omega)⟩
      rw [frameEq,udpFrameLength,if_pos ahead,← lengthEq]
      by_cases missing : middle.reader.unread.length < totalLength.toNat
      · refine Or.inr ⟨?_,handleUdpBody_cutOff middleReady continues small missing⟩
        rw [unreadEq,length_drop] at missing
        omega
      · have there : headerSize + totalLength.toNat ≤ receiver.reader.unread.length := by
          rw [unreadEq,length_drop] at missing
          omega
        have long : crc32Size ≤ totalLength.toNat := by
          by_contra undersized
          exact fine ⟨whole,ahead,Or.inr (by omega)⟩
        obtain ⟨last,lastReady,lastContinues,lastUnread,-,-,-,bodyEq⟩ :=
          handleUdpBody_filled node middleReady (Nat.le_of_not_lt missing) small long
        rw [unreadEq,drop_drop] at lastUnread
        refine Or.inl ⟨_,bodyEq,?_,?_,there,?_⟩
        · split
          · exact ⟨by simpa using lastReady.datagrams,by simpa using lastReady.sized⟩
          · exact lastReady
        · split
          · simpa using continues.trans lastContinues
          · exact continues.trans lastContinues
        · split
          · simpa using lastUnread
          · exact lastUnread
    · obtain ⟨after,frameEq,afterReady,continues,unreadEq,-⟩ :=
        handleUdpFrame_skip node ready whole ahead
      rw [udpFrameLength,if_neg ahead]
      exact Or.inl ⟨after,frameEq,afterReady,continues,whole,unreadEq⟩
  · have missing : receiver.reader.unread.length < headerSize := Nat.lt_of_not_le whole
    exact Or.inr ⟨lt_of_lt_of_le missing (headerSize_le_udpFrameLength _ _),
      handleUdpFrame_without_header node ready missing⟩

end Receiver

variable {node : RelayNode Pool Tx Block} {receiver : Receiver Pool Tx Block}

theorem handleUdpMsgLoop_panicked_iff (ready : receiver.UdpReady) :
    handleUdpMsgLoop node receiver = .panicked ↔
      DatagramOverrun node.crc receiver.reader.unread := by
  constructor
  · intro panicked
    by_contra fine
    rcases handleUdpFrame_in_range ready fine with
      ⟨after,frameEq,-⟩ | ⟨-,status,after,frameEq,-⟩
    · simp [handleUdpMsgLoop,frameEq] at panicked
    · simp only [handleUdpMsgLoop,frameEq,afterFailedRead] at panicked
      split at panicked <;> cases panicked
  · intro overrun
    simp [handleUdpMsgLoop,handleUdpFrame_overrun ready overrun]

variable {after : Receiver Pool Tx Block}

theorem handleUdpMsgLoop_ready (ready : receiver.UdpReady)
    (once : handleUdpMsgLoop node receiver = .again after) : after.UdpReady := by
  by_cases overrun : DatagramOverrun node.crc receiver.reader.unread
  · rw [(handleUdpMsgLoop_panicked_iff ready).mpr overrun] at once
    cases once
  · rcases handleUdpFrame_in_range ready overrun with
      ⟨next,frameEq,nextReady,-⟩ | ⟨-,status,next,frameEq,-,nextReady⟩
    · simp only [handleUdpMsgLoop,frameEq,Option.getD_some,Iteration.again.injEq] at once
      exact once ▸ nextReady
    · simp only [handleUdpMsgLoop,frameEq,afterFailedRead] at once
      split at once
      · cases once
      · cases once
        exact nextReady

/-- On a socket without failures the loop goes round exactly when a frame of
a length it can handle is there in full. -/
theorem handleUdpMsgLoop_again_iff (ready : receiver.UdpReady)
    (working : failure ∉ receiver.reader.socket.arrivals) :
    (∃ after, handleUdpMsgLoop node receiver = .again after) ↔
      ¬ DatagramOverrun node.crc receiver.reader.unread ∧
        udpFrameLength node.crc receiver.reader.unread ≤ receiver.reader.unread.length := by
  constructor
  · rintro ⟨after,once⟩
    have fine : ¬ DatagramOverrun node.crc receiver.reader.unread := by
      intro overrun
      rw [(handleUdpMsgLoop_panicked_iff ready).mpr overrun] at once
      cases once
    refine ⟨fine,?_⟩
    rcases handleUdpFrame_in_range ready fine with
      ⟨-,-,-,-,there,-⟩ | ⟨-,status,next,frameEq,drained | failing,-⟩
    · exact there
    · simp [handleUdpMsgLoop,frameEq,afterFailedRead,drained] at once
    · exact absurd failing working
  · rintro ⟨fine,there⟩
    rcases handleUdpFrame_in_range ready fine with
      ⟨after,frameEq,-⟩ | ⟨missing,-⟩
    · exact ⟨after,by simp [handleUdpMsgLoop,frameEq]⟩
    · omega

theorem handleUdpMsgLoop_takes (ready : receiver.UdpReady)
    (working : failure ∉ receiver.reader.socket.arrivals)
    (once : handleUdpMsgLoop node receiver = .again after) :
    failure ∉ after.reader.socket.arrivals ∧
      after.reader.unread = receiver.reader.unread.drop
        (udpFrameLength node.crc receiver.reader.unread) := by
  obtain ⟨fine,there⟩ := (handleUdpMsgLoop_again_iff ready working).mp ⟨after,once⟩
  rcases handleUdpFrame_in_range ready fine with
    ⟨next,frameEq,-,continues,-,unreadEq⟩ | ⟨missing,-⟩
  · simp only [handleUdpMsgLoop,frameEq,Option.getD_some,Iteration.again.injEq] at once
    subst once
    exact ⟨fun failing => working (continues.failures failing),unreadEq⟩
  · omega

end PioplatRelay
