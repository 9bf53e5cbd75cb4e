import PioplatRelay.DisguiseSteps
import PioplatRelay.HeaderCodec

/-!
# Headers and receipts in replies

The request functions for headers and receipts log that a payload cannot be decoded
and then return the object they decoded into, without an error.  Receipts are not
even passed by a pointer, so that they are never decoded.
-/

namespace PioplatRelay

open Rlp PioplatRelay.Types Vector Header

namespace Types

def Header.EncodesTo (header : Header) (bytes : List UInt8) : Prop :=
  (writeHeader header).toBytes = .ok bytes

variable {header : Header} {bytes : List UInt8} {data : List UInt8}

theorem Header.encodesTo_iff :
    header.EncodesTo bytes ↔ header.NoNegative ∧ encodeHeader header.values = bytes := by
  unfold EncodesTo
  by_cases valid : header.NoNegative
  · rw [(header_writes header).toBytes_eq valid]
    constructor
    · intro same
      exact ⟨valid,Except.ok.inj same⟩
    · rintro ⟨_,same⟩
      rw [same]
  · rw [(header_writes header).toBytes_refused valid]
    constructor
    · intro same
      cases same
    · rintro ⟨isValid,_⟩
      exact absurd isValid valid

def decodeHeaderBytes (data : List UInt8) : Except DecodeErr Header :=
  decodeBytes "types.Header" decodeHeader data

theorem Header.encodesTo_of_decoded
    (decoded : decodeHeaderBytes data = .ok header) : header.EncodesTo data := by
  obtain ⟨valid,_,encoded⟩ := header_codec.of_decodeBytes decoded
  exact encodesTo_iff.mpr ⟨valid,encoded⟩

theorem Header.EncodesTo.decoded
    (encodes : header.EncodesTo data) (bounded : data.length < 2 ^ 64) :
    decodeHeaderBytes data = .ok header.normal := by
  obtain ⟨valid,rfl⟩ := encodesTo_iff.mp encodes
  exact header_codec.decodeBytes_encode "types.Header" valid bounded

def ReceiptsEncodeTo {Receipt : Type} (writeReceipt : Receipt → TypeWriter)
    (receipts : List Receipt) (bytes : List UInt8) : Prop :=
  (writeSlice writeReceipt receipts).toBytes = .ok bytes

theorem receiptsEncodeTo_nil {Receipt : Type} (writeReceipt : Receipt → TypeWriter) :
    ReceiptsEncodeTo writeReceipt [] bytes ↔ bytes = [0xC0] := by
  have writes : (writeSlice writeReceipt []).toBytes = .ok [0xC0] := rfl
  rw [ReceiptsEncodeTo,writes]
  constructor
  · intro same
    exact (Except.ok.inj same).symm
  · intro same
    rw [same]

end Types

namespace DisguiseClient

variable {Receipt : Type}

/-- The decoding of replies.  A header that cannot be decoded keeps the fields before
the failure, here any header; receipts are left as they were made. -/
def replyCodec (leftOver : List UInt8 → Header) :
    ReplyCodec Header (List Receipt) where
  decodeHeader data :=
    match decodeHeaderBytes data with
    | .ok header => (header, true)
    | .error _ => (leftOver data, false)
  noReceipts := []

/-- The object of a reply is what the payload encodes, and there is none for a payload
that encodes nothing. -/
structure Faithful {Object : Type} (EncodesTo : Object → List UInt8 → Prop)
    (payload : List UInt8) (value : Option Object) (err : Option DisguiseError) : Prop where
  same : ∀ object, value = some object → err = none → EncodesTo object payload
  refused : (∀ object, ¬ EncodesTo object payload) → value = none ∨ err ≠ none
  decoded : 8 < payload.length → (∃ object, EncodesTo object payload) →
    ∃ object, value = some object ∧ err = none ∧ EncodesTo object payload

def FaithfulHeader (payload : List UInt8) (reply : Reply Header (List Receipt)) : Prop :=
  ∃ value err, reply = .header value err ∧ Faithful EncodesTo payload value err

def FaithfulReceipts (writeReceipt : Receipt → TypeWriter) (payload : List UInt8)
    (reply : Reply Header (List Receipt)) : Prop :=
  ∃ value err, reply = .receipts value err ∧
    Faithful (ReceiptsEncodeTo writeReceipt) payload value err

/-- The client is connected, its message is written, and `readLengthBytes` then gives
the payload. -/
def Answered (dc : DisguiseClient) (answer : Option (List (List UInt8)))
    (payload : List UInt8) : Prop :=
  dc.connecting = false ∧ ∃ pieces, answer = some pieces ∧
    (readLengthBytes { dc with conn := dc.conn.deliver pieces }).1 = .ok payload

/-! ### Replies to payloads -/

section Faithful

variable {Object : Type} {EncodesTo : Object → List UInt8 → Prop} {payload : List UInt8}

theorem faithful_nothing (short : payload.length ≤ 8) : Faithful EncodesTo payload none none where
  same := by
    intro object isSome
    cases isSome
  refused := fun _ => .inl rfl
  decoded := by
    intro long
    omega

theorem faithful_some_iff {object : Object} :
    Faithful EncodesTo payload (some object) none ↔ EncodesTo object payload := by
  constructor
  · intro faithful
    exact faithful.same object rfl rfl
  · intro encodes
    constructor
    · intro other otherEq _
      cases otherEq
      exact encodes
    · intro nothing
      exact absurd encodes (nothing object)
    · intro _ _
      exact ⟨object,rfl,rfl,encodes⟩

end Faithful

variable {payload : List UInt8}

theorem headerReply_faithful_iff (leftOver : List UInt8 → Header)
    (bounded : payload.length < 2 ^ 64) : FaithfulHeader payload
        (headerReply (replyCodec leftOver : ReplyCodec _ (List Receipt)) (some (.ok payload))) ↔
      payload.length ≤ 8 ∨ ∃ header : Header, header.EncodesTo payload := by
  rw [headerReply]
  by_cases long : 8 < payload.length
  · rw [if_pos long]
    have decodedIff : (replyCodec leftOver : ReplyCodec _ (List Receipt)).decodeHeader payload
        |>.1.EncodesTo payload ↔ ∃ header : Header, header.EncodesTo payload := by
      constructor
      · intro encodes
        exact ⟨_,encodes⟩
      · rintro ⟨header,encodes⟩
        have decoded := encodes.decoded bounded
        have taken : (replyCodec leftOver : ReplyCodec _ (List Receipt)).decodeHeader payload =
            (header.normal, true) := by
          rw [replyCodec]
          dsimp only
          rw [decoded]
        rw [taken]
        exact encodesTo_of_decoded decoded
    constructor
    · rintro ⟨value,err,replyEq,faithful⟩
      cases replyEq
      exact .inr (decodedIff.mp (faithful_some_iff.mp faithful))
    · rintro (short | encoded)
      · omega
      · exact ⟨_,_,rfl,faithful_some_iff.mpr (decodedIff.mpr encoded)⟩
  · rw [if_neg long]
    have short : payload.length ≤ 8 := Nat.le_of_not_lt long
    constructor
    · intro _
      exact .inl short
    · intro _
      exact ⟨none,none,rfl,faithful_nothing short⟩

variable (writeReceipt : Receipt → TypeWriter) (leftOver : List UInt8 → Header)

theorem receiptsReply_faithful_iff : FaithfulReceipts writeReceipt payload
        (receiptsReply (replyCodec leftOver) (some (.ok payload))) ↔ payload.length ≤ 8 := by
  rw [receiptsReply]
  by_cases long : 8 < payload.length
  · rw [if_pos long]
    constructor
    · rintro ⟨value,err,replyEq,faithful⟩
      cases replyEq
      have single := (receiptsEncodeTo_nil writeReceipt).mp (faithful_some_iff.mp faithful)
      rw [single]
      decide
    · intro short
      omega
  · rw [if_neg long]
    have short : payload.length ≤ 8 := Nat.le_of_not_lt long
    constructor
    · intro _
      exact short
    · intro _
      exact ⟨none,none,rfl,faithful_nothing short⟩

/-! ### Calls -/

theorem readLengthBytes_result_written (dc : DisguiseClient) (written : List (List UInt8)) :
    (readLengthBytes { dc with written := written }).1 = dc.readLengthBytes.1 := by
  unfold readLengthBytes
  dsimp only
  split
  · split
    · rfl
    · split
      · rfl
      · split <;> rfl
  · rfl

theorem readLengthBytes_length_le {dc : DisguiseClient}
    (read : dc.readLengthBytes.1 = .ok payload) : payload.length ≤ lenLimit := by
  unfold readLengthBytes at read
  split at read
  · rename_i length rdr _
    dsimp only at read
    split at read
    · cases read
    · rename_i notOver
      split at read
      · cases read
        exact Nat.zero_le _
      · split at read
        · rename_i data last readEq
          cases read
          have fits := BufferedReader.length_readFull_le (LittleEndian.uint32 length).toNat rdr
          rw [readEq] at fits
          exact fits.trans (Nat.le_of_not_lt notOver)
        · cases read
  · cases read

namespace Answered

variable {dc : DisguiseClient} {answer : Option (List (List UInt8))} {payload : List UInt8}

theorem exchange_eq (answered : dc.Answered answer payload) (message : List UInt8) :
    (dc.exchange message answer).1 = some (.ok payload) := by
  obtain ⟨connected,pieces,rfl,read⟩ := answered
  rw [← readLengthBytes_result_written _ (dc.written ++ [message])] at read
  rw [exchange,if_neg (by rw [connected]; exact Bool.false_ne_true)]
  exact congrArg some read

theorem bounded (answered : dc.Answered answer payload) : payload.length < 2 ^ 64 := by
  obtain ⟨_,pieces,_,read⟩ := answered
  have fits := readLengthBytes_length_le read
  have limit : lenLimit = 102400 := rfl
  omega

theorem request_eq {Header Receipts : Type} (codec : ReplyCodec Header Receipts)
    (answered : dc.Answered answer payload) (call : Request) :
    (request codec call answer dc).1 = call.reply codec (some (.ok payload)) := by
  rw [request]
  dsimp only
  rw [answered.exchange_eq]

end Answered

theorem answered_frame (within : payload.length ≤ lenLimit) :
    onNewConnection.Answered (some [frame payload]) payload := by
  obtain ⟨conn,read,-⟩ := readLengthBytes_within
    (onNewConnection_connected.deliver [frame payload] [])
    (Socket.available_deliver rfl List.not_mem_nil _ |>.trans (List.append_nil _)) within
  exact ⟨rfl,_,rfl,(readLengthBytes_result_written _ _).symm.trans (congrArg Prod.fst read)⟩

/-- A header is what its payload encodes if the payload encodes a header or is too
short to be looked at; receipts are only if it is too short. -/
theorem replies_faithful_iff {dc : DisguiseClient}
    {answer : Option (List (List UInt8))} {payload : List UInt8}
    (answered : dc.Answered answer payload) (hash : Hash) (number : UInt64) :
    let codec : ReplyCodec Header (List Receipt) := replyCodec leftOver
    let encoded := payload.length ≤ 8 ∨ ∃ header : Header, header.EncodesTo payload
    (FaithfulHeader payload (requestHeaderByHash codec hash answer dc).1 ↔ encoded) ∧
    (FaithfulHeader payload (requestHeaderByHashAndNumber codec hash number answer dc).1 ↔
      encoded) ∧
    (FaithfulHeader payload (requestHeaderByNumber codec number answer dc).1 ↔ encoded) ∧
    (FaithfulReceipts writeReceipt payload (requestReceiptsByHash codec hash answer dc).1 ↔
      payload.length ≤ 8) := by
  intro codec encoded
  have headers : FaithfulHeader payload (headerReply codec (some (.ok payload))) ↔ encoded :=
    headerReply_faithful_iff leftOver answered.bounded
  rw [requestHeaderByHash,requestHeaderByHashAndNumber,requestHeaderByNumber,requestReceiptsByHash,
    answered.request_eq,answered.request_eq,answered.request_eq,answered.request_eq]
  exact ⟨headers,headers,headers,receiptsReply_faithful_iff writeReceipt leftOver⟩

def emptyHeader : Header where
  parentHash := replicate 32 0
  uncleHash := replicate 32 0
  coinbase := replicate 20 0
  root := replicate 32 0
  txHash := replicate 32 0
  receiptHash := replicate 32 0
  bloom := replicate 256 0
  difficulty := none
  number := none
  gasLimit := 0
  gasUsed := 0
  time := 0
  extra := []
  mixDigest := replicate 32 0
  nonce := replicate 8 0
  baseFee := none

def numberedHeader : Header :=
  { emptyHeader with number := some 7, gasLimit := 30000000, extra := [1, 2], baseFee := some 5 }

/-- The encoding of that header is answered with a header that encodes to it. -/
theorem replies_faithful_numberedHeader :
    let payload := encodeHeader numberedHeader.values
    let codec : ReplyCodec Header (List Unit) := replyCodec fun _ => emptyHeader
    8 < payload.length ∧
      FaithfulHeader payload
        (requestHeaderByHash codec .zero (some [frame payload]) onNewConnection).1 := by
  intro payload codec
  have valid : numberedHeader.NoNegative := ⟨trivial,Int.natCast_nonneg 7,Int.natCast_nonneg 5⟩
  have within : payload.length ≤ lenLimit := by decide +kernel
  refine ⟨by decide +kernel,?_⟩
  apply (replies_faithful_iff (fun _ : Unit => writeUint 0) (fun _ => emptyHeader)
    (answered_frame within) .zero 0).1.mpr
  exact .inr ⟨numberedHeader,encodesTo_iff.mpr ⟨valid,rfl⟩⟩

/-- Nine zeros are no encoding, but are answered with a header and with receipts, and
without an error. -/
theorem undecodable_answered :
    let payload := List.replicate 9 (0 : UInt8)
    let codec : ReplyCodec Header (List Unit) := replyCodec fun _ => emptyHeader
    let answer := some [frame payload]
    (∃ err, decodeHeaderBytes payload = .error err) ∧
      (requestHeaderByHash codec .zero answer onNewConnection).1 = .header (some emptyHeader) none ∧
      (requestReceiptsByHash codec .zero answer onNewConnection).1 = .receipts (some []) none ∧
      ¬ emptyHeader.EncodesTo payload ∧
      ¬ ReceiptsEncodeTo (fun _ : Unit => writeUint 0) [] payload := by
  intro payload codec answer
  have answered : onNewConnection.Answered answer payload := answered_frame (by decide)
  refine ⟨⟨_,rfl⟩,answered.request_eq codec _,answered.request_eq codec _,
    fun encodes => ?_,fun encodes => ?_⟩
  · obtain ⟨-,same⟩ := encodesTo_iff.mp encodes
    have lengths := congrArg List.length same
    revert lengths
    decide +kernel
  · have single := (receiptsEncodeTo_nil _).mp encodes
    revert single
    decide

end DisguiseClient

end PioplatRelay
