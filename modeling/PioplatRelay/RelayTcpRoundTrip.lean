import PioplatRelay.RelayTcpLoop

/-!
# What one relay sends, the other receives

A relay writes the frames of its blocks and transactions one after the other.
However the stream is split into reads, the loop at the other end takes the frames
out of it one per iteration, and hands over the objects that the node does not know
by then.
-/

namespace PioplatRelay

open Loop LittleEndian List ObjectCodec PioplatConn

inductive RelayObject (Tx Block : Type)
  | transaction (tx : Tx)
  | block (block : Block)
  deriving DecidableEq

variable {Pool Tx Block : Type}

namespace RelayObject

def msgType : RelayObject Tx Block → UInt8
  | .transaction _ => transactionMsg
  | .block _ => blockMsg

def call (addr : String) : RelayObject Tx Block → Enqueue Tx Block
  | .transaction tx => .transactions ":" [tx] false
  | .block object => .block addr object

end RelayObject

namespace RelayNode

variable (node : RelayNode Pool Tx Block)

def hashOf : RelayObject Tx Block → Hash
  | .transaction tx => node.txCodec.hash tx
  | .block block => node.blockCodec.hash block

def encode : RelayObject Tx Block → Option (List UInt8)
  | .transaction tx => node.txCodec.encode tx
  | .block block => node.blockCodec.encode block

def newRelayMsg : RelayObject Tx Block → Option (List UInt8)
  | .transaction tx => newTransactionMsg node.crc node.txCodec tx
  | .block block => newBlockMsg node.crc node.blockCodec block

def has : RelayObject Tx Block → Pool → Bool × Pool
  | .transaction tx => node.hasTransaction (node.txCodec.hash tx)
  | .block block => node.hasBlock (node.blockCodec.hash block)

/-- The pool after the objects have come in one by one, and the calls made for
those that were unknown. -/
def receive (addr : String) : List (RelayObject Tx Block) → Pool →
    Pool × List (Enqueue Tx Block)
  | [], pool => (pool, [])
  | object :: objects, pool =>
    match node.has object pool with
    | (true, pool) => receive addr objects pool
    | (false, pool) =>
      let rest := receive addr objects (node.enqueue (object.call addr) pool)
      (rest.1, object.call addr :: rest.2)

theorem newRelayMsg_eq (object : RelayObject Tx Block) : node.newRelayMsg object =
      (node.encode object).map (newMsg node.crc object.msgType (node.hashOf object)) := by
  cases object <;> rfl

end RelayNode

namespace PioplatConn

/-- An iteration at the start of a frame takes exactly that frame. -/
theorem handleFrame_newMsg (node : RelayNode Pool Tx Block) (msgType : UInt8) (hash : Hash)
    {data rest : List UInt8} (small : data.length < 2 ^ 24 - 4)
    {conn : PioplatConn Pool Tx Block} (ready : conn.Ready)
    (unreadEq : conn.reader.unread = newMsg node.crc msgType hash data ++ rest) :
    ∃ middle : PioplatConn Pool Tx Block, middle.Ready ∧
      conn.reader.Continues middle.reader ∧ middle.reader.unread = rest ∧
      middle.hash = hash ∧ middle.pool = conn.pool ∧ middle.enqueued = conn.enqueued ∧
      middle.addr = conn.addr ∧
      conn.handleFrame node = some (.again (deliver node msgType data middle)) := by
  have bounded : data.length + crc32Size < 2 ^ 24 := by
    simp only [crc32Size]
    omega
  have ahead := newMsg_frameAhead node.crc msgType hash bounded rest
  rw [← unreadEq] at ahead
  obtain ⟨totalLength,first,frameEq,firstReady,continues,firstUnread,lengthEq,hashEq,
    poolEq,enqueuedEq,addrEq⟩ := handleFrame_intact ready ahead.whole ahead.intact
  rw [ahead.length_eq] at lengthEq
  obtain ⟨there,dataEq,checksumEq,restEq⟩ := ahead.body_cut lengthEq
  rw [← firstUnread] at there dataEq checksumEq restEq
  obtain ⟨reader,recvBuf,middleReady,middleContinues,middleUnread,result⟩ :=
    handleBody_filled node (declaredType conn.reader.unread) firstReady (by omega) there
      (by omega)
  refine ⟨_,middleReady,continues.trans middleContinues,middleUnread.trans restEq,?_,
    poolEq,enqueuedEq,addrEq,?_⟩
  · apply Hash.ext
    rw [hashEq,ahead.hash_eq]
  · rw [frameEq,result,dataEq,checksumEq,uint32_putUint32,if_pos rfl,ahead.type_eq]

/-- The object in a frame is handed over unless the node knows it. -/
theorem deliver_object {node : RelayNode Pool Tx Block} (txs : node.txCodec.Lawful)
    (blocks : node.blockCodec.Lawful) {object : RelayObject Tx Block} {data : List UInt8}
    (encoded : node.encode object = some data) {middle : PioplatConn Pool Tx Block}
    (hashEq : middle.hash = node.hashOf object) :
    deliver node object.msgType data middle = { middle with
        toReceiver := middle.handOver node (node.has object middle.pool)
          (some (object.call middle.addr)) } := by
  cases object with
  | transaction tx =>
    have decoded := txs tx data encoded
    have typeEq : (RelayObject.transaction tx : RelayObject Tx Block).msgType =
      transactionMsg := rfl
    simp only [deliver,typeEq,if_true,hashEq,decoded,Option.map_some]
    rfl
  | block block =>
    have decoded := blocks block data encoded
    have typeEq : (RelayObject.block block : RelayObject Tx Block).msgType = blockMsg := rfl
    have notTransaction : ¬ blockMsg = transactionMsg := by decide
    simp only [deliver,typeEq,if_neg notTransaction,if_true,hashEq,decoded,Option.map_some]
    rfl

theorem reaches_end {node : RelayNode Pool Tx Block} (txs : node.txCodec.Lawful)
    (blocks : node.blockCodec.Lawful) {objects : List (RelayObject Tx Block)}
    {frames : List (List UInt8)}
    (sent : Forall₂ (fun object frame => node.newRelayMsg object = some frame)
      objects frames) (small : ∀ object ∈ objects, ∀ data, node.encode object = some data →
      data.length < 2 ^ 24 - 4) {conn : PioplatConn Pool Tx Block} (ready : conn.Ready)
    (unreadEq : conn.reader.unread = frames.flatten) :
    ∃ last, Reaches (handleTcpMsgLoop node) conn last ∧ last.Ready ∧
      conn.reader.Continues last.reader ∧ last.reader.unread = [] ∧
      last.pool = (node.receive conn.addr objects conn.pool).1 ∧
      last.enqueued = conn.enqueued ++ (node.receive conn.addr objects conn.pool).2 := by
  induction sent generalizing conn with
  | nil => exact ⟨conn,.refl conn,ready,.refl _,unreadEq,rfl,by simp [RelayNode.receive]⟩
  | @cons object frame objects frames msgEq _ ih =>
    rw [node.newRelayMsg_eq,Option.map_eq_some_iff] at msgEq
    obtain ⟨data,encoded,rfl⟩ := msgEq
    obtain ⟨middle,middleReady,continues,middleUnread,hashEq,poolEq,enqueuedEq,addrEq,
      frameEq⟩ := handleFrame_newMsg node object.msgType (node.hashOf object)
        (small object mem_cons_self data encoded) ready unreadEq
    have delivered := deliver_object txs blocks encoded hashEq
    have afterReady := deliver_ready node object.msgType data middleReady
    have once : handleTcpMsgLoop node conn = .again (deliver node object.msgType data middle) := by
      simp [handleTcpMsgLoop,frameEq]
    rw [delivered] at afterReady once
    obtain ⟨last,reaches,lastReady,lastContinues,lastUnread,lastPool,lastEnqueued⟩ :=
      ih (fun later member => small later (mem_cons_of_mem _ member)) afterReady
        (by simpa using middleUnread)
    refine ⟨last,(Reaches.single once).trans reaches,lastReady,
      continues.trans (by simpa using lastContinues),lastUnread,?_,?_⟩
    · rw [lastPool,RelayNode.receive,← poolEq,← addrEq]
      cases node.has object middle.pool with
      | mk known pool => cases known <;> rfl
    · rw [lastEnqueued,RelayNode.receive,← poolEq,← addrEq,← enqueuedEq]
      cases node.has object middle.pool with
      | mk known pool => cases known <;> simp [Receiver.handOver,Receiver.call]

end PioplatConn

theorem availableBytes_stream (reads : List (List UInt8)) :
    availableBytes .stream (reads.map Arrival.data) = reads.flatten := by
  induction reads with
  | nil => rfl
  | cons bytes reads ih => simp [availableBytes,Transport.cut,ih]

/-- However the frames of some objects are split into reads, the TCP loop hands
over exactly those that the node reports unknown when their turn comes, each
once and in order, and ends with nothing left to read. -/
theorem handleTcpMsgLoop_roundTrip (node : RelayNode Pool Tx Block)
    (txs : node.txCodec.Lawful) (blocks : node.blockCodec.Lawful)
    (objects : List (RelayObject Tx Block)) (frames : List (List UInt8))
    (sent : Forall₂ (fun object frame => node.newRelayMsg object = some frame)
      objects frames)
    (small : ∀ object ∈ objects, ∀ data, node.encode object = some data →
      data.length < 2 ^ 24 - 4)
    (reads : List (List UInt8)) (split : reads.flatten = frames.flatten)
    (pool : Pool) (addr : String) :
    ∃ last final,
      Reaches (handleTcpMsgLoop node)
        (.start ⟨.stream,reads.map .data⟩ pool addr) last ∧
      handleTcpMsgLoop node last = .finished final ∧
      final.pool = (node.receive addr objects pool).1 ∧
      final.enqueued = (node.receive addr objects pool).2 ∧
      final.reader = ⟨[], ⟨.stream, []⟩⟩ := by
  let conn : PioplatConn Pool Tx Block := .start ⟨.stream,reads.map .data⟩ pool addr
  have unreadEq : conn.reader.unread = frames.flatten :=
    (availableBytes_stream reads).trans split
  obtain ⟨last,reaches,lastReady,continues,lastUnread,poolEq,enqueuedEq⟩ :=
    reaches_end txs blocks sent small
      (start_ready (reads.map .data) pool addr) unreadEq
  have noFailure : Arrival.failure ∉ last.reader.socket.arrivals := by
    intro failing
    have member := continues.failures failing
    simp [start,BufferedReader.ofSocket] at member
  obtain ⟨status,⟨buffered,transport,arrivals⟩,recvBuf,frameEq,cutOff,lastContinues⟩ :=
    handleFrame_without_header node lastReady (by simp [lastUnread,headerSize])
  refine ⟨last,{ last with
      reader := ⟨buffered,transport,arrivals⟩, recvBuf := recvBuf, close := true },
    reaches,by simp [handleTcpMsgLoop,frameEq],poolEq,?_,?_⟩
  · simpa [start] using enqueuedEq
  · have streaming : transport = .stream := lastContinues.transport.trans lastReady.streaming
    rcases cutOff with ⟨-,failing⟩ | ⟨-,bufferedEq,arrivalsEq⟩
    · exact absurd failing noFailure
    · dsimp only at bufferedEq arrivalsEq
      rw [bufferedEq,arrivalsEq,streaming]

/-- Three frames in two reads, the last for a transaction already handed over. -/
theorem handleTcpMsgLoop_roundTrip_three :
    let crc := checksumIEEE
    let transaction := newMsg crc transactionMsg (byte.hash 7) [7]
    let block := newMsg crc blockMsg (byte.hash 9) [9]
    ∃ last final,
      Reaches (handleTcpMsgLoop (.ofBytes crc))
        (.start ⟨.stream, [.data (transaction ++ block.take 5),
          .data (block.drop 5 ++ transaction)]⟩ [] "peer") last ∧
      handleTcpMsgLoop (.ofBytes crc) last = .finished final ∧
      final.pool = [byte.hash 9, byte.hash 7] ∧
      final.enqueued = [.transactions ":" [7] false, .block "peer" 9] ∧
      final.reader = ⟨[], ⟨.stream, []⟩⟩ := by
  intro crc transaction block
  refine handleTcpMsgLoop_roundTrip (.ofBytes crc) byte_lawful
    byte_lawful [.transaction 7, .block 9, .transaction 7]
    [transaction, block, transaction] (.cons rfl (.cons rfl (.cons rfl .nil))) ?_
    [transaction ++ block.take 5, block.drop 5 ++ transaction] ?_ [] "peer"
  · intro object member data encoded
    have single : data.length = 1 := by
      cases object <;> cases encoded <;> rfl
    omega
  · have joined := take_append_drop 5 block
    simp only [flatten_cons,flatten_nil,append_nil,append_assoc]
    rw [← append_assoc (block.take 5), joined]

end PioplatRelay
