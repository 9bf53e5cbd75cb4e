import PioplatRelay.RelayUdpLoop

/-!
# How far datagrams disturb each other

The UDP loop finds frames by reading on, not by datagram.  A datagram that is
exactly a frame is taken as such when the loop stands at its first byte, and
the loop gets there exactly when the bytes of all datagrams before it divide
into pieces that the loop takes in whole iterations.
-/

namespace PioplatRelay

open Loop LittleEndian List Receiver Arrival ObjectCodec

variable {Pool Tx Block : Type}

def datagramBytes (datagrams : List (List UInt8)) : List UInt8 :=
  datagrams.flatMap fun datagram => datagram.take readerBufferSize

theorem datagramBytes_append (first second : List (List UInt8)) :
    datagramBytes (first ++ second) = datagramBytes first ++ datagramBytes second := by
  simp [datagramBytes]

theorem availableBytes_datagram (datagrams : List (List UInt8)) :
    availableBytes .datagram (datagrams.map data) = datagramBytes datagrams := by
  induction datagrams with
  | nil => rfl
  | cons datagram datagrams ih => simp [availableBytes,Transport.cut,datagramBytes,ih]

/-- The bytes divide into pieces that whole iterations of the loop take. -/
inductive Aligned (crc : Checksum) : List UInt8 → Prop
  | done : Aligned crc []
  | piece {bytes : List UInt8} (fine : ¬ DatagramOverrun crc bytes)
      (there : udpFrameLength crc bytes ≤ bytes.length)
      (rest : Aligned crc (bytes.drop (udpFrameLength crc bytes))) : Aligned crc bytes

/-! ## What the loop takes depends on the header alone -/

section Locality

variable {bytes : List UInt8} (whole : headerSize ≤ bytes.length) (crc : Checksum)
  (rest : List UInt8)

include whole

theorem declaredLength_append : declaredLength (bytes ++ rest) = declaredLength bytes := by
  unfold headerSize at whole
  rw [declaredLength,declaredLength,take_append_of_le_length (by omega)]

theorem transactionAhead_append :
    TransactionAhead crc (bytes ++ rest) ↔ TransactionAhead crc bytes := by
  unfold headerSize at whole
  have typeEq : declaredType (bytes ++ rest) = declaredType bytes := by
    rw [declaredType,declaredType,getD_append _ _ _ _ (by omega)]
  rw [TransactionAhead,TransactionAhead,typeEq,HeaderIntact,HeaderIntact,
    take_append_of_le_length (by omega),take_append_of_le_length (by omega)]

theorem udpFrameLength_append : udpFrameLength crc (bytes ++ rest) = udpFrameLength crc bytes := by
  simp [udpFrameLength,transactionAhead_append whole,declaredLength_append whole]

theorem datagramOverrun_append (there : udpFrameLength crc bytes ≤ bytes.length) :
    DatagramOverrun crc (bytes ++ rest) ↔ DatagramOverrun crc bytes := by
  have lengthEq := declaredLength_append whole rest
  have aheadIff := transactionAhead_append whole crc rest
  constructor
  · rintro ⟨-,ahead,length⟩
    have ahead := aheadIff.mp ahead
    rw [udpFrameLength,if_pos ahead] at there
    rw [lengthEq] at length
    exact ⟨whole,ahead,length.imp_right fun short => ⟨short.1,there⟩⟩
  · rintro ⟨-,ahead,length⟩
    refine ⟨by simp only [length_append]; omega,aheadIff.mpr ahead,?_⟩
    rw [lengthEq,length_append]
    exact length.imp_right fun short => ⟨short.1,by omega⟩

end Locality

namespace Receiver

variable {node : RelayNode Pool Tx Block} {receiver : Receiver Pool Tx Block}

theorem unread_length_le_of_reaches {state : Receiver Pool Tx Block} (ready : receiver.UdpReady)
    (working : failure ∉ receiver.reader.socket.arrivals)
    (reaches : Reaches (handleUdpMsgLoop node) receiver state) :
    state.reader.unread.length ≤ receiver.reader.unread.length := by
  induction reaches using Relation.ReflTransGen.head_induction_on with
  | refl => exact Nat.le_refl _
  | head once _ ih =>
    obtain ⟨workingAfter,unreadAfter⟩ := handleUdpMsgLoop_takes ready working once
    have shorter := ih (handleUdpMsgLoop_ready ready once) workingAfter
    rw [unreadAfter,length_drop] at shorter
    omega

theorem aligned_of_reaches {state : Receiver Pool Tx Block} (ready : receiver.UdpReady)
    (working : failure ∉ receiver.reader.socket.arrivals) {bytes : List UInt8}
    (unreadEq : receiver.reader.unread = bytes ++ state.reader.unread)
    (reaches : Reaches (handleUdpMsgLoop node) receiver state) : Aligned node.crc bytes := by
  induction reaches using Relation.ReflTransGen.head_induction_on generalizing bytes with
  | refl =>
    have none : bytes = [] := by simpa using unreadEq
    exact none ▸ .done
  | @head receiver middle once reaches ih =>
    obtain ⟨fine,there⟩ := (handleUdpMsgLoop_again_iff ready working).mp ⟨middle,once⟩
    obtain ⟨workingAfter,unreadAfter⟩ := handleUdpMsgLoop_takes ready working once
    have readyAfter := handleUdpMsgLoop_ready ready once
    have shorter := unread_length_le_of_reaches readyAfter workingAfter reaches
    have long := headerSize_le_udpFrameLength node.crc receiver.reader.unread
    rw [unreadEq] at fine there unreadAfter long
    rw [unreadAfter,length_drop] at shorter
    rw [length_append] at shorter there
    -- The piece does not reach into the rest, which is still unread at the end.
    have inside : udpFrameLength node.crc (bytes ++ state.reader.unread) ≤ bytes.length := by omega
    have whole : headerSize ≤ bytes.length := long.trans inside
    rw [udpFrameLength_append whole] at inside unreadAfter
    rw [drop_append_of_le_length inside] at unreadAfter
    rw [datagramOverrun_append whole _ _ inside] at fine
    exact .piece fine inside (ih readyAfter workingAfter unreadAfter)

theorem reaches_of_aligned (ready : receiver.UdpReady)
    (working : failure ∉ receiver.reader.socket.arrivals) {bytes rest : List UInt8}
    (unreadEq : receiver.reader.unread = bytes ++ rest) (aligned : Aligned node.crc bytes) :
    ∃ state, Reaches (handleUdpMsgLoop node) receiver state ∧ state.UdpReady ∧
      state.reader.unread = rest := by
  induction aligned generalizing receiver with
  | done => exact ⟨receiver,.refl receiver,ready,unreadEq⟩
  | @piece bytes fine there _ ih =>
    have whole : headerSize ≤ bytes.length :=
      (headerSize_le_udpFrameLength node.crc bytes).trans there
    have lengthEq := udpFrameLength_append whole node.crc rest
    obtain ⟨after,once⟩ : ∃ after, handleUdpMsgLoop node receiver = .again after := by
      rw [handleUdpMsgLoop_again_iff ready working,unreadEq,
        datagramOverrun_append whole _ _ there,lengthEq,length_append]
      exact ⟨fine,by omega⟩
    obtain ⟨workingAfter,unreadAfter⟩ := handleUdpMsgLoop_takes ready working once
    rw [unreadEq,lengthEq,drop_append_of_le_length there] at unreadAfter
    obtain ⟨state,reaches,stateReady,stateUnread⟩ :=
      ih (handleUdpMsgLoop_ready ready once) workingAfter unreadAfter
    exact ⟨state,(Reaches.single once).trans reaches,stateReady,stateUnread⟩

/-- At the start of a transaction frame that fits the buffer, an iteration
takes the frame and hands its transaction over unless the pool has it. -/
theorem handleUdpFrame_newMsg (node : RelayNode Pool Tx Block) (lawful : node.txCodec.Lawful)
    {tx : Tx} {data rest : List UInt8} (encoded : node.txCodec.encode tx = some data)
    (small : data.length + crc32Size ≤ udpBufferSize) (ready : receiver.UdpReady)
    (unreadEq : receiver.reader.unread =
      newMsg node.crc transactionMsg (node.txCodec.hash tx) data ++ rest) :
    ∃ middle : Receiver Pool Tx Block, middle.reader.unread = rest ∧
      middle.pool = receiver.pool ∧ middle.enqueued = receiver.enqueued ∧
      receiver.handleUdpFrame node = some (.again (middle.handOver node
        (node.hasTransaction (node.txCodec.hash tx) middle.pool)
        (some (.transactions ":" [tx] false)))) := by
  have ahead := newMsg_frameAhead node.crc transactionMsg (node.txCodec.hash tx)
    (lt_of_le_of_lt small (by decide)) rest
  rw [← unreadEq] at ahead
  obtain ⟨totalLength,first,frameEq,firstReady,-,firstUnread,lengthEq,hashEq,poolEq,enqueuedEq⟩ :=
      handleUdpFrame_transaction ready ahead.whole ⟨ahead.intact,ahead.type_eq⟩
  rw [ahead.length_eq] at lengthEq
  obtain ⟨there,dataEq,checksumEq,restEq⟩ := ahead.body_cut lengthEq
  rw [← firstUnread] at there dataEq checksumEq restEq
  obtain ⟨middle,-,-,middleUnread,middleHash,middlePool,middleEnqueued,result⟩ :=
    handleUdpBody_filled node firstReady there (by omega) (by omega)
  refine ⟨middle,middleUnread.trans restEq,middlePool.trans poolEq,
    middleEnqueued.trans enqueuedEq,?_⟩
  have hashOfTx : middle.hash = node.txCodec.hash tx := by
    apply Hash.ext
    rw [middleHash,hashEq,ahead.hash_eq]
  rw [frameEq,result,dataEq,checksumEq,uint32_putUint32,if_pos rfl,hashOfTx,
    lawful tx data encoded,Option.map_some]

end Receiver

/-- Among these datagrams, the loop takes the frame in an iteration of its own
and enqueues its transaction, if the pool does not have it by then. -/
def TakenAlone (node : RelayNode Pool Tx Block) (pool : Pool) (tx : Tx)
    (before : List (List UInt8)) (frame : List UInt8) (after : List (List UInt8)) : Prop :=
  ∃ receiver next, Reaches (handleUdpMsgLoop node)
      (.udpStart ((before ++ frame :: after).map .data) pool) receiver ∧
    receiver.reader.unread = datagramBytes (frame :: after) ∧
    handleUdpMsgLoop node receiver = .again next ∧
    next.reader.unread = datagramBytes after ∧
    ((node.hasTransaction (node.txCodec.hash tx) receiver.pool).1 = false →
      next.enqueued = receiver.enqueued ++ [.transactions ":" [tx] false])

theorem udpStart_unread (pool : Pool) (datagrams : List (List UInt8)) :
    (udpStart (datagrams.map .data) pool : Receiver Pool Tx Block).reader.unread =
      datagramBytes datagrams :=
  availableBytes_datagram datagrams

theorem udpStart_working (pool : Pool) (datagrams : List (List UInt8)) :
    failure ∉ (udpStart (datagrams.map .data) pool :
        Receiver Pool Tx Block).reader.socket.arrivals := by
  simp [udpStart,BufferedReader.ofSocket]

/-- A datagram that is a frame of a transaction is taken alone, whatever comes
after it, if and only if the bytes of the datagrams before it are aligned. -/
theorem datagram_takenAlone_iff_aligned (node : RelayNode Pool Tx Block)
    (lawful : node.txCodec.Lawful) (pool : Pool) (tx : Tx) (frame : List UInt8)
    (sent : newTransactionMsg node.crc node.txCodec tx = some frame)
    (short : frame.length ≤ 1472) (before after : List (List UInt8)) :
    TakenAlone node pool tx before frame after ↔ Aligned node.crc (datagramBytes before) := by
  let start : Receiver Pool Tx Block :=
    .udpStart ((before ++ frame :: after).map .data) pool
  have ready : start.UdpReady := udpStart_ready _ pool
  have working : failure ∉ start.reader.socket.arrivals := udpStart_working pool _
  have unreadEq : start.reader.unread = datagramBytes before ++ datagramBytes (frame :: after) := by
    rw [← datagramBytes_append]
    exact udpStart_unread pool _
  constructor
  · rintro ⟨receiver,-,reaches,receiverUnread,-⟩
    exact aligned_of_reaches ready working (receiverUnread ▸ unreadEq) reaches
  · intro aligned
    obtain ⟨receiver,reaches,receiverReady,receiverUnread⟩ :=
      reaches_of_aligned ready working unreadEq aligned
    obtain ⟨data,encoded,rfl⟩ := Option.map_eq_some_iff.mp sent
    rw [newMsg_length] at short
    have uncut : datagramBytes (newMsg node.crc transactionMsg (node.txCodec.hash tx) data ::
        after) = newMsg node.crc transactionMsg (node.txCodec.hash tx) data ++
          datagramBytes after := by
      rw [datagramBytes,flatMap_cons,take_of_length_le]
      · rfl
      · rw [newMsg_length]
        exact short.trans (by decide)
    have small : data.length + crc32Size ≤ udpBufferSize := by
      simp only [udpBufferSize,headerSize,crc32Size] at short ⊢
      omega
    obtain ⟨middle,middleUnread,middlePool,middleEnqueued,frameEq⟩ :=
      handleUdpFrame_newMsg node lawful encoded small receiverReady
        (receiverUnread.trans uncut)
    refine ⟨receiver,_,reaches,receiverUnread,
      (by rw [handleUdpMsgLoop,frameEq,Option.getD_some]),?_,?_⟩
    · simpa using middleUnread
    · intro unknown
      rw [← middlePool] at unknown
      simp [handOver,unknown,call,middleEnqueued]

/-- Forty bytes of noise before the frame and three after it do no harm. -/
theorem datagram_takenAlone_between_noise :
    let crc := checksumIEEE
    let frame := newMsg crc transactionMsg (byte.hash 7) [7]
    Aligned crc (datagramBytes [replicate 40 0]) ∧
      TakenAlone (.ofBytes crc) [] 7 [replicate 40 0] frame [[1, 2, 3]] := by
  intro crc frame
  have aligned : Aligned crc (datagramBytes [replicate 40 0]) := by
    apply Aligned.piece
    · intro overrun
      exact absurd overrun.ahead (by decide +kernel)
    · decide +kernel
    · have ends : (datagramBytes [replicate 40 0]).drop
          (udpFrameLength crc (datagramBytes [replicate 40 0])) = [] := by decide +kernel
      exact ends ▸ .done
  exact ⟨aligned,(datagram_takenAlone_iff_aligned (.ofBytes crc) byte_lawful
    [] 7 frame rfl (by decide) _ _).mpr aligned⟩

/-- A datagram of one byte before the frame, and its transaction is never
enqueued. -/
theorem datagram_lost_after_stray_byte :
    let crc := checksumIEEE
    let frame := newMsg crc transactionMsg (byte.hash 7) [7]
    newTransactionMsg crc .byte 7 = some frame ∧ frame.length ≤ 1472 ∧
      ∀ receiver, Reaches (handleUdpMsgLoop (.ofBytes crc))
          (.udpStart [.data [0], .data frame] []) receiver →
        receiver.enqueued = [] := by
  intro crc frame
  refine ⟨rfl,by decide,?_⟩
  intro receiver reaches
  let start : Receiver (List Hash) UInt8 UInt8 := .udpStart [.data [0],.data frame] []
  have ready : start.UdpReady := udpStart_ready _ _
  have unreadEq : start.reader.unread = 0 :: frame := by decide +kernel
  obtain ⟨after,frameEq,afterReady,continues,afterUnread,enqueuedEq⟩ :=
    handleUdpFrame_skip (.ofBytes crc) ready
      (by rw [unreadEq]; decide) (by rw [unreadEq]; decide +kernel)
  have working : failure ∉ after.reader.socket.arrivals := by
    intro failing
    exact absurd (continues.failures failing) (by decide)
  have stuck : ∀ next, handleUdpMsgLoop (.ofBytes crc) after ≠ .again next := by
    intro next once
    have there := ((handleUdpMsgLoop_again_iff afterReady working).mp ⟨next,once⟩).2
    rw [afterUnread,unreadEq] at there
    exact absurd there (by decide +kernel)
  have visited : receiver = start ∨ receiver = after := by
    apply reaches.invariant (fun state => state = start ∨ state = after) (Or.inl rfl)
    rintro state next (rfl | rfl) once
    · rw [handleUdpMsgLoop,frameEq] at once
      exact Or.inr (Iteration.again.inj once).symm
    · exact absurd once (stuck next)
  rcases visited with rfl | rfl
  · rfl
  · exact enqueuedEq

end PioplatRelay
