import PioplatRelay.DisguiseClient

/-!
# Requests and responses in step

The full node answers every request with one frame.  A call that reads its whole
frame leaves nothing behind, however the frame was cut into pieces.  A length above
the limit is an error that leaves the payload on the connection, so that the next
call takes some of its bytes for a length.
-/

namespace PioplatRelay

open List LittleEndian BufferedReader UInt32 Nat

namespace DisguiseClient

def frame (payload : List UInt8) : List UInt8 := putUint32 (UInt32.ofNat payload.length) ++ payload

/-- A request and its answer: one frame, in any pieces. -/
structure Exchange where
  request : Request
  payload : List UInt8
  pieces : List (List UInt8)
  payload_lt : payload.length < 2 ^ 32
  whole : pieces.flatten = frame payload

variable {Header Receipts : Type} (codec : ReplyCodec Header Receipts)

def perform (exchange : Exchange) (dc : DisguiseClient) :
    Reply Header Receipts × DisguiseClient :=
  request codec exchange.request (some exchange.pieces) dc

/-- No call finds bytes of an earlier response on the connection, and each uses
its own payload or fails. -/
def InStep : List Exchange → DisguiseClient → Prop
  | [], _ => True
  | exchange :: later, dc =>
    dc.conn.available = [] ∧
      ((dc.perform codec exchange).1 = exchange.request.reply codec (some (.ok exchange.payload)) ∨
        ∃ err, (dc.perform codec exchange).1 = exchange.request.reply codec (some (.error err))) ∧
      InStep later (dc.perform codec exchange).2

structure Connected (dc : DisguiseClient) : Prop where
  streaming : dc.conn.transport = .stream
  reliable : Arrival.failure ∉ dc.conn.arrivals
  notConnecting : dc.connecting = false

variable {codec} {dc : DisguiseClient}

theorem Connected.reader (connected : dc.Connected) {rdr : BufferedReader}
    (continues : (ofSocket dc.conn).Continues rdr) :
    Connected { dc with conn := rdr.socket } :=
  ⟨continues.transport.trans connected.streaming,
    fun failing => connected.reliable (continues.failures failing),connected.notConnecting⟩

theorem Connected.deliver (connected : dc.Connected) (pieces : List (List UInt8))
    (message : List UInt8) :
    Connected { dc with
      conn := dc.conn.deliver pieces, written := dc.written ++ [message] } :=
  ⟨connected.streaming,Socket.deliver_failures connected.reliable pieces,connected.notConnecting⟩

theorem Connected.fits (connected : dc.Connected) {rdr : BufferedReader}
    (continues : (ofSocket dc.conn).Continues rdr) (length : Nat) : rdr.Fits length := by
  intro datagram
  rw [(continues.transport.trans connected.streaming : rdr.socket.transport = _)] at datagram
  cases datagram

variable {payload : List UInt8} {exchange : Exchange}

theorem readFull_frame (connected : dc.Connected) (there : dc.conn.available = frame payload) :
    ∃ rdr, (ofSocket dc.conn).readFull lengthSize =
        (putUint32 (UInt32.ofNat payload.length), .filled, rdr) ∧
      rdr.unread = payload ∧ (ofSocket dc.conn).Continues rdr := by
  have unreadEq : (ofSocket dc.conn).unread = frame payload := there
  have headLength : (putUint32 (UInt32.ofNat payload.length)).length = lengthSize :=
    putUint32_length _
  obtain ⟨rdr,readEq,restEq,continues⟩ := readFull_filled
    (connected.fits (.refl _) lengthSize)
    (by rw [unreadEq,frame,length_append,headLength]; omega)
  rw [unreadEq,frame] at readEq restEq
  refine ⟨rdr,?_,?_,continues⟩
  · rw [readEq,← headLength,take_left]
  · rw [restEq,← headLength,drop_left]

theorem payload_uint32 (payload : List UInt8) (payloadLt : payload.length < 2 ^ 32) :
    (uint32 (putUint32 (UInt32.ofNat payload.length))).toNat = payload.length := by
  rw [uint32_putUint32,toNat_ofNat',mod_eq_of_lt payloadLt]

theorem readLengthBytes_within (connected : dc.Connected)
    (there : dc.conn.available = frame payload) (within : payload.length ≤ lenLimit) :
    ∃ conn, dc.readLengthBytes = (.ok payload, { dc with conn := conn }) ∧
      Connected { dc with conn := conn } ∧ conn.available = [] := by
  have limit : lenLimit = 102400 := rfl
  obtain ⟨rdr,headEq,restEq,continues⟩ := readFull_frame connected there
  have lengthEq := payload_uint32 payload (by omega)
  have notOver : ¬ lenLimit < payload.length := by omega
  unfold readLengthBytes
  rw [headEq]
  dsimp only
  rw [lengthEq,if_neg notOver]
  by_cases empty : payload = []
  · have zero : uint32 (putUint32 (UInt32.ofNat payload.length)) = 0 := by
      rw [empty]
      decide
    rw [if_pos zero]
    rw [empty] at restEq
    have drained := append_eq_nil_iff.mp restEq
    exact ⟨rdr.socket,by rw [empty],connected.reader continues,drained.2⟩
  · have notZero :
        uint32 (putUint32 (UInt32.ofNat payload.length)) ≠ 0 := by
      intro zero
      rw [zero,UInt32.toNat_zero] at lengthEq
      exact empty (eq_nil_of_length_eq_zero lengthEq.symm)
    rw [if_neg notZero]
    obtain ⟨last,dataEq,lastEq,lastContinues⟩ := readFull_filled
      (connected.fits continues payload.length) (restEq.symm ▸ le_refl _)
    rw [restEq] at dataEq lastEq
    rw [dataEq,take_length]
    rw [drop_length] at lastEq
    have drained := append_eq_nil_iff.mp lastEq
    exact ⟨last.socket,rfl,connected.reader (continues.trans lastContinues),drained.2⟩

/-- A frame above the limit stays on the connection, up to what the reader had
buffered. -/
theorem readLengthBytes_over (connected : dc.Connected) (there : dc.conn.available = frame payload)
    (payloadLt : payload.length < 2 ^ 32) (above : lenLimit < payload.length) :
    ∃ conn lost, dc.readLengthBytes =
        (.error (.invalidLength (UInt32.ofNat payload.length)), { dc with conn := conn }) ∧
      Connected { dc with conn := conn } ∧ payload = lost ++ conn.available ∧
        lost.length ≤ readerBufferSize := by
  obtain ⟨rdr,headEq,restEq,continues⟩ := readFull_frame connected there
  have lengthEq := payload_uint32 payload payloadLt
  refine ⟨rdr.socket,rdr.buffered,?_,connected.reader continues,restEq.symm,
    continues.buffer (zero_le _)⟩
  unfold readLengthBytes
  rw [headEq]
  dsimp only
  rw [lengthEq,if_pos above,uint32_putUint32]

variable (codec)

section

variable (connected : dc.Connected)

include connected

/-- A call on a connected client reads what the network delivers after what is
still there. -/
theorem perform_eq (exchange : Exchange) :
    dc.perform codec exchange =
      let read := readLengthBytes { dc with
        conn := dc.conn.deliver exchange.pieces
        written := dc.written ++ [exchange.request.message] }
      (exchange.request.reply codec (some read.1), read.2) := by
  simp [perform,request,DisguiseClient.exchange,connected.notConnecting]

theorem available_of_exchange (drained : dc.conn.available = [])
    (exchange : Exchange) :
    (dc.conn.deliver exchange.pieces).available = frame exchange.payload := by
  rw [Socket.available_deliver connected.streaming connected.reliable,drained,exchange.whole,
    nil_append]

theorem perform_within (drained : dc.conn.available = [])
    (within : exchange.payload.length ≤ lenLimit) :
    (dc.perform codec exchange).1 = exchange.request.reply codec (some (.ok exchange.payload)) ∧
      (dc.perform codec exchange).2.Connected ∧
        (dc.perform codec exchange).2.conn.available = [] := by
  obtain ⟨conn,readEq,after,empty⟩ := readLengthBytes_within
    (connected.deliver exchange.pieces exchange.request.message)
    (available_of_exchange connected drained exchange) within
  rw [perform_eq codec connected,readEq]
  exact ⟨rfl,after,empty⟩

theorem perform_over (drained : dc.conn.available = [])
    (above : lenLimit < exchange.payload.length) :
    (∃ err, (dc.perform codec exchange).1 = exchange.request.reply codec (some (.error err))) ∧
      (dc.perform codec exchange).2.Connected ∧
        ∃ lost, exchange.payload = lost ++ (dc.perform codec exchange).2.conn.available ∧
          lost.length ≤ readerBufferSize := by
  obtain ⟨conn,lost,readEq,after,leftover,few⟩ := readLengthBytes_over
    (connected.deliver exchange.pieces exchange.request.message)
    (available_of_exchange connected drained exchange) exchange.payload_lt above
  rw [perform_eq codec connected,readEq]
  exact ⟨⟨_,rfl⟩,after,lost,leftover,few⟩

end

theorem leftover_ne_nil {lost leftover : List UInt8} (above : lenLimit < payload.length)
    (payloadEq : payload = lost ++ leftover) (few : lost.length ≤ readerBufferSize) :
    leftover ≠ [] := by
  have limit : lenLimit = 102400 := rfl
  have size : readerBufferSize = 4096 := rfl
  rintro rfl
  rw [payloadEq,append_nil] at above
  omega

/-- Requests on a new connection stay in step just where no response but the
last is above the limit. -/
theorem inStep_iff (connected : dc.Connected) (drained : dc.conn.available = [])
    (exchanges : List Exchange) : InStep codec exchanges dc ↔
      ∀ exchange ∈ exchanges.dropLast, exchange.payload.length ≤ lenLimit := by
  induction exchanges generalizing dc with
  | nil => simp [InStep]
  | cons exchange later ih =>
    by_cases within : exchange.payload.length ≤ lenLimit
    · obtain ⟨used,after,empty⟩ := perform_within codec connected drained within
      rw [InStep,ih after empty]
      cases later with
      | nil => simp [drained,used]
      | cons next later => simp [drained,used,within]
    · obtain ⟨failed,after,lost,leftover,few⟩ :=
        perform_over codec connected drained (Nat.lt_of_not_le within)
      rw [InStep]
      cases later with
      | nil => simp [InStep,drained,failed]
      | cons next later =>
        apply iff_of_false
        · rintro ⟨-,-,empty,-⟩
          exact leftover_ne_nil (Nat.lt_of_not_le within) leftover few empty
        · intro all
          exact within (all exchange mem_cons_self)

def onNewConnection : DisguiseClient := ⟨⟨.stream, []⟩, [], false⟩

theorem onNewConnection_connected : onNewConnection.Connected := ⟨rfl,not_mem_nil,rfl⟩

def unitCodec : ReplyCodec Unit Unit := ⟨fun _ => ((), false), ()⟩

def Exchange.ofPayload (request : Request) (payload : List UInt8)
    (payloadLt : payload.length < 2 ^ 32) : Exchange :=
  ⟨request, payload, [frame payload], payloadLt, append_nil _⟩

/-- A body of nine bytes and an unknown header stay in step. -/
theorem inStep_body_then_header : InStep unitCodec
      [.ofPayload (.blockBodyRLP .zero) (replicate 9 1) (by decide),
        .ofPayload (.headerByNumber 7) [] (by decide)] onNewConnection :=
  (inStep_iff unitCodec onNewConnection_connected rfl _).mpr (by
    intro exchange member
    rw [dropLast_cons_of_ne_nil (cons_ne_nil _ _),dropLast_singleton,mem_singleton] at member
    rw [member]
    decide)

theorem readLengthBytes_zeros {count : Nat} {after : List UInt8} (connected : dc.Connected)
    (zeros : dc.conn.available = replicate (4 + count) 0 ++ after) :
    (dc.readLengthBytes).1 = .ok [] := by
  have unreadEq : (ofSocket dc.conn).unread = replicate 4 0 ++ (replicate count 0 ++ after) := by
    rw [← append_assoc,← replicate_add]
    exact zeros
  obtain ⟨rdr,readEq,-,-⟩ := readFull_filled
    (connected.fits (.refl _) lengthSize)
    (by rw [unreadEq,length_append,length_replicate]; exact le_add_right _ _)
  rw [unreadEq,lengthSize,take_left' length_replicate] at readEq
  unfold readLengthBytes
  rw [lengthSize,readEq]
  rfl

/-- A response of zeros above the limit: the next call takes four of them for its
length, whatever its own response is. -/
theorem perform_after_zeros {next : Exchange} {count : Nat} (connected : dc.Connected)
    (drained : dc.conn.available = []) (zeros : exchange.payload = replicate count 0)
    (above : lenLimit < count) : ((dc.perform codec exchange).2.perform codec next).1 =
      next.request.reply codec (some (.ok [])) := by
  have limit : lenLimit = 102400 := rfl
  have size : readerBufferSize = 4096 := rfl
  have lengthEq : exchange.payload.length = count := by rw [zeros,length_replicate]
  obtain ⟨-,stays,lost,leftover,few⟩ := perform_over codec connected drained
    (by omega : lenLimit < exchange.payload.length)
  obtain ⟨lengths,-,left⟩ := append_eq_replicate_iff.mp (leftover.symm.trans zeros)
  have enough : (dc.perform codec exchange).2.conn.available.length =
      4 + ((dc.perform codec exchange).2.conn.available.length - 4) := by
    omega
  rw [enough] at left
  rw [perform_eq codec stays]
  dsimp only
  rw [readLengthBytes_zeros (stays.deliver _ _)
    (by rw [Socket.available_deliver stays.streaming stays.reliable,left])]

def oversizedNode : Exchange :=
  .ofPayload (.trieNodeByHash .zero) (replicate (lenLimit + 1) 0)
    (by rw [length_replicate]; decide)

/-- After that node, the next call reports that there is no body. -/
theorem oversized_node_hides_body :
    let dc := (onNewConnection.perform unitCodec oversizedNode).2
    (dc.perform unitCodec (.ofPayload (.blockBodyRLP .zero) (replicate 9 1)
      (by decide))).1 = .bytes none none :=
  perform_after_zeros unitCodec onNewConnection_connected rfl rfl (lt_succ_self lenLimit)

end DisguiseClient

end PioplatRelay
