import Mathlib.Data.List.Basic

/-!
# Sockets behind a buffered reader

A socket hands out the bytes that the network delivers, one arrival at a time.
A stream socket keeps what a short read leaves over and reports the end of the
stream; a datagram socket discards it and waits.  On top of the socket stand
the buffered reader of `bufio` with the loop of `io.ReadFull`, and the loop of
`io.ReadAtLeast` without a buffer.  A read that succeeds takes a prefix of the
`unread` bytes, whatever the arrivals and the buffer did.
-/

namespace PioplatRelay

open List Nat

/-- What one `Read` of a socket will find. -/
inductive Arrival
  | data (bytes : List UInt8)
  | failure
  deriving DecidableEq, Repr

inductive Transport
  | stream
  | datagram
  deriving DecidableEq, Repr

structure Socket where
  transport : Transport
  arrivals : List Arrival
  deriving DecidableEq, Repr

/-- Outcome of a `Read` call.  `drained` is the end of a stream, and a wait
without end on a datagram socket. -/
inductive ReadResult
  | data (bytes : List UInt8)
  | failure
  | drained
  deriving DecidableEq, Repr

namespace Socket

def read (capacity : Nat) (socket : Socket) : ReadResult × Socket :=
  match socket.arrivals with
  | [] => (.drained, socket)
  | .failure :: rest => (.failure, { socket with arrivals := rest })
  | .data bytes :: rest =>
    if socket.transport = .stream ∧ capacity < bytes.length then
      (.data (bytes.take capacity),
        { socket with arrivals := .data (bytes.drop capacity) :: rest })
    else (.data (bytes.take capacity), { socket with arrivals := rest })

end Socket

def readerBufferSize : Nat := 4096

/-- A `bufio.Reader`: bytes already taken from the socket, and the socket. -/
structure BufferedReader where
  buffered : List UInt8
  socket : Socket
  deriving DecidableEq, Repr

inductive FullRead
  | filled
  | failed
  | drained
  deriving DecidableEq, Repr

namespace BufferedReader

def ofSocket (socket : Socket) : BufferedReader := ⟨[], socket⟩

/-- `(*bufio.Reader).Read` with a non-empty buffer of `length` bytes.  A large
read of an empty buffer bypasses it. -/
def read (length : Nat) (reader : BufferedReader) :
    ReadResult × BufferedReader :=
  if reader.buffered = [] then
    if readerBufferSize ≤ length then
      ((reader.socket.read length).1, ⟨[], (reader.socket.read length).2⟩)
    else
      match reader.socket.read readerBufferSize with
      | (.data bytes, socket) => (.data (bytes.take length), ⟨bytes.drop length,socket⟩)
      | (other, socket) => (other, ⟨[], socket⟩)
  else
    (.data (reader.buffered.take length),
      ⟨reader.buffered.drop length,reader.socket⟩)

end BufferedReader

def Transport.cut : Transport → List UInt8 → List UInt8
  | .stream, bytes => bytes
  | .datagram, bytes => bytes.take readerBufferSize

/-- The bytes that arrivals yield before the next failure or their end. -/
def availableBytes (transport : Transport) : List Arrival → List UInt8
  | [] => []
  | .failure :: _ => []
  | .data bytes :: rest => transport.cut bytes ++ availableBytes transport rest

namespace Socket

def available (socket : Socket) : List UInt8 := availableBytes socket.transport socket.arrivals

def deliver (socket : Socket) (pieces : List (List UInt8)) : Socket :=
  { socket with arrivals := socket.arrivals ++ pieces.map .data }

variable {socket after : Socket} {capacity : Nat} {bytes : List UInt8}

theorem deliver_failures (reliable : Arrival.failure ∉ socket.arrivals)
    (pieces : List (List UInt8)) : Arrival.failure ∉ (socket.deliver pieces).arrivals := by
  simp [deliver,reliable]

theorem available_deliver (streaming : socket.transport = .stream)
    (reliable : Arrival.failure ∉ socket.arrivals) (pieces : List (List UInt8)) :
    (socket.deliver pieces).available = socket.available ++ pieces.flatten := by
  obtain ⟨transport,arrivals⟩ := socket
  subst streaming
  simp only [deliver,available]
  induction arrivals with
  | nil =>
    induction pieces with
    | nil => rfl
    | cons piece pieces ih =>
      simp only [nil_append] at ih
      simp [availableBytes,Transport.cut,ih]
  | cons arrival arrivals ih =>
    cases arrival with
    | failure => exact absurd mem_cons_self reliable
    | data bytes =>
      have rest := ih fun failing => reliable (mem_cons_of_mem _ failing)
      simp [availableBytes,rest]

/-- Datagram reads are made with exactly the reader's buffer size, stream
reads with any buffer. -/
def Whole (socket : Socket) (capacity : Nat) : Prop :=
  socket.transport = .datagram → capacity = readerBufferSize

theorem read_transport (capacity : Nat) (socket : Socket) :
    (socket.read capacity).2.transport = socket.transport := by
  unfold read
  split
  · rfl
  · rfl
  · split <;> rfl

theorem read_failures (failing : Arrival.failure ∈ (socket.read capacity).2.arrivals) :
    Arrival.failure ∈ socket.arrivals := by
  obtain ⟨transport,arrivals⟩ := socket
  match arrivals with
  | [] => exact failing
  | .failure :: rest => exact mem_cons_self
  | .data bytes :: rest =>
    apply mem_cons_of_mem
    unfold read at failing
    dsimp only at failing
    split at failing
    · simpa using failing
    · exact failing

/-- Everything a read that delivers bytes can have done. -/
theorem read_data_cases (result : socket.read capacity = (.data bytes, after)) :
    ∃ arrived rest, socket.arrivals = .data arrived :: rest ∧
      bytes = arrived.take capacity ∧ ((socket.transport = .stream ∧ capacity < arrived.length ∧
          after = ⟨socket.transport, .data (arrived.drop capacity) :: rest⟩) ∨
        (¬ (socket.transport = .stream ∧ capacity < arrived.length) ∧
          after = ⟨socket.transport,rest⟩)) := by
  obtain ⟨transport,arrivals⟩ := socket
  match arrivals with
  | [] => simp [read] at result
  | .failure :: rest => simp [read] at result
  | .data arrived :: rest =>
    refine ⟨arrived,rest,rfl,?_⟩
    by_cases keeps : transport = .stream ∧ capacity < arrived.length
    · simp only [read,if_pos keeps,Prod.mk.injEq,ReadResult.data.injEq] at result
      exact ⟨result.1.symm,Or.inl ⟨keeps.1,keeps.2,result.2.symm⟩⟩
    · simp only [read,if_neg keeps,Prod.mk.injEq,ReadResult.data.injEq] at result
      exact ⟨result.1.symm,Or.inr ⟨keeps,result.2.symm⟩⟩

theorem available_of_read_data (whole : socket.Whole capacity)
    (result : socket.read capacity = (.data bytes, after)) :
    socket.available = bytes ++ after.available := by
  obtain ⟨transport,arrivals⟩ := socket
  obtain ⟨arrived,rest,arrivalsEq,rfl,kept | consumed⟩ := read_data_cases result
  · obtain ⟨streaming,-,rfl⟩ := kept
    subst arrivalsEq streaming
    simp [available,availableBytes,Transport.cut,← append_assoc]
  · obtain ⟨notKept,rfl⟩ := consumed
    subst arrivalsEq
    cases transport with
    | stream =>
      have short : arrived.length ≤ capacity := by simpa using notKept
      simp [available,availableBytes,Transport.cut,take_of_length_le short]
    | datagram =>
      have capacityEq : capacity = readerBufferSize := whole rfl
      simp [available,availableBytes,Transport.cut,capacityEq]

theorem length_of_read_data {capacity : Nat} {socket after : Socket}
    {bytes : List UInt8} (result : socket.read capacity = (.data bytes, after)) :
    bytes.length ≤ capacity := by
  obtain ⟨arrived,rest,-,rfl,-⟩ := read_data_cases result
  simp only [length_take]
  omega

/-- An empty read uses up an arrival; no read adds one. -/
theorem arrivals_of_read_data (positive : 0 < capacity)
    (result : socket.read capacity = (.data bytes, after)) :
    after.arrivals.length ≤ socket.arrivals.length ∧
      (bytes = [] → after.arrivals.length < socket.arrivals.length) := by
  obtain ⟨arrived,rest,arrivalsEq,rfl,kept | consumed⟩ := read_data_cases result
  · obtain ⟨-,long,rfl⟩ := kept
    refine ⟨by simp [arrivalsEq],fun empty => ?_⟩
    have lengthZero := congrArg length empty
    simp only [length_take,length_nil] at lengthZero
    omega
  · obtain ⟨-,rfl⟩ := consumed
    simp [arrivalsEq]

/-- A read that delivers nothing met a failure or the end of the arrivals. -/
theorem available_of_read_failure (result : socket.read capacity = (.failure, after)) :
    ∃ rest, socket.arrivals = .failure :: rest ∧ after = ⟨socket.transport,rest⟩ := by
  obtain ⟨transport,arrivals⟩ := socket
  match arrivals with
  | [] => simp [read] at result
  | .failure :: rest =>
    simp only [read,Prod.mk.injEq,true_and] at result
    exact ⟨rest,rfl,result.symm⟩
  | .data arrived :: rest =>
    simp only [read] at result
    split at result <;> simp at result

theorem arrivals_of_read_drained (result : socket.read capacity = (.drained, after)) :
    socket.arrivals = [] ∧ after = socket := by
  obtain ⟨transport,arrivals⟩ := socket
  match arrivals with
  | [] =>
    simp only [read,Prod.mk.injEq,true_and] at result
    exact ⟨rfl,result.symm⟩
  | .failure :: rest => simp [read] at result
  | .data arrived :: rest =>
    simp only [read] at result
    split at result <;> simp at result

end Socket

namespace BufferedReader

def unread (reader : BufferedReader) : List UInt8 := reader.buffered ++ reader.socket.available

/-- A read length at which no datagram is cut short of the buffer size. -/
def Fits (reader : BufferedReader) (length : Nat) : Prop :=
  reader.socket.transport = .datagram → length ≤ readerBufferSize

/-- One reader is a later state of another, on the same socket. -/
structure Continues (before after : BufferedReader) : Prop where
  transport : after.socket.transport = before.socket.transport
  failures : Arrival.failure ∈ after.socket.arrivals →
    Arrival.failure ∈ before.socket.arrivals
  buffer : before.buffered.length ≤ readerBufferSize →
    after.buffered.length ≤ readerBufferSize

theorem Continues.refl (reader : BufferedReader) : reader.Continues reader := ⟨rfl,id,id⟩

theorem Continues.trans {first middle last : BufferedReader}
    (begins : first.Continues middle) (ends : middle.Continues last) : first.Continues last :=
  ⟨ends.transport.trans begins.transport,begins.failures ∘ ends.failures,
    ends.buffer ∘ begins.buffer⟩

/-- Everything a buffered read can have done. -/
inductive Reads (length : Nat) (reader : BufferedReader) : ReadResult → BufferedReader → Prop
  | buffered (some : reader.buffered ≠ []) : Reads length reader
      (.data (reader.buffered.take length)) ⟨reader.buffered.drop length,reader.socket⟩
  | direct {result : ReadResult} {socket : Socket} (empty : reader.buffered = [])
      (large : readerBufferSize ≤ length) (readEq : reader.socket.read length = (result, socket)) :
      Reads length reader result ⟨[], socket⟩
  | filled {bytes : List UInt8} {socket : Socket} (empty : reader.buffered = [])
      (readEq : reader.socket.read readerBufferSize = (.data bytes, socket)) :
      Reads length reader (.data (bytes.take length)) ⟨bytes.drop length,socket⟩
  | stopped {result : ReadResult} {socket : Socket} (empty : reader.buffered = [])
      (notData : ∀ bytes, result ≠ .data bytes)
      (readEq : reader.socket.read readerBufferSize = (result, socket)) :
      Reads length reader result ⟨[], socket⟩

variable {reader after : BufferedReader} {length : Nat} {bytes : List UInt8}

theorem Reads.of_read {result : ReadResult}
    (readEq : reader.read length = (result, after)) : Reads length reader result after := by
  unfold read at readEq
  split at readEq
  · split at readEq
    · cases readEq
      exact .direct ‹_› ‹_› rfl
    · split at readEq <;> cases readEq
      · exact .filled ‹_› ‹_›
      · exact .stopped ‹_› (by assumption) ‹_›
  · cases readEq
    exact .buffered ‹_›

theorem read_continues (length : Nat) (reader : BufferedReader) :
    reader.Continues (reader.read length).2 := by
  have socketContinues {capacity : Nat} {result : ReadResult} {buffered : List UInt8}
      {socket : Socket} (readEq : reader.socket.read capacity = (result, socket))
      (short : buffered.length ≤ readerBufferSize) : reader.Continues ⟨buffered,socket⟩ := by
    have transport := Socket.read_transport capacity reader.socket
    have failures := @Socket.read_failures reader.socket capacity
    rw [readEq] at transport failures
    exact ⟨transport,failures,fun _ => short⟩
  rcases outcome : reader.read length with ⟨result,after⟩
  cases Reads.of_read outcome with
  | direct _ _ readEq | stopped _ _ readEq => exact socketContinues readEq (zero_le _)
  | filled _ readEq =>
    have short := Socket.length_of_read_data readEq
    exact socketContinues readEq (by rw [length_drop]; omega)
  | buffered =>
    refine ⟨rfl,id,fun short => ?_⟩
    rw [length_drop]
    omega

variable {length fuel need : Nat} {reader after : BufferedReader}

/-- Everything a buffered read that delivers bytes can have done to the
reader: it takes a prefix of the unread bytes, and an empty one only by using
up an arrival. -/
theorem read_data_spec (positive : 0 < length) (fits : reader.Fits length)
    (result : reader.read length = (.data bytes, after)) :
    reader.unread = bytes ++ after.unread ∧ bytes.length ≤ length ∧
      after.socket.arrivals.length ≤ reader.socket.arrivals.length ∧ (bytes = [] →
        after.socket.arrivals.length < reader.socket.arrivals.length) := by
  cases Reads.of_read result with
  | direct empty large readEq =>
    have whole : reader.socket.Whole length := fun datagram =>
      Nat.le_antisymm (fits datagram) large
    have shrinks := Socket.arrivals_of_read_data positive readEq
    have available := Socket.available_of_read_data whole readEq
    exact ⟨by simpa [unread,empty] using available,Socket.length_of_read_data readEq,shrinks⟩
  | filled empty readEq =>
    have shrinks := Socket.arrivals_of_read_data (by decide) readEq
    have available := Socket.available_of_read_data (fun _ => rfl) readEq
    refine ⟨?_,length_take_le _ _,shrinks.1,fun none => shrinks.2 ?_⟩
    · simp [unread,empty,available,← append_assoc]
    · simpa [Nat.ne_of_gt positive] using none
  | stopped _ notData _ => exact absurd rfl (notData bytes)
  | buffered some =>
    refine ⟨by simp [unread,← append_assoc],length_take_le _ _,Nat.le_refl _,
      fun none => ?_⟩
    simp [some,Nat.ne_of_gt positive] at none

theorem read_failure_spec (result : reader.read length = (.failure, after)) :
    reader.unread = [] ∧ ∃ rest, reader.socket.arrivals = .failure :: rest ∧
      after = ⟨[], ⟨reader.socket.transport,rest⟩⟩ := by
  cases Reads.of_read result with
  | direct empty _ readEq | stopped empty _ readEq =>
    obtain ⟨rest,arrivalsEq,rfl⟩ := Socket.available_of_read_failure readEq
    exact ⟨by simp [unread,Socket.available,availableBytes,empty,arrivalsEq],rest,arrivalsEq,rfl⟩

theorem read_drained_spec (result : reader.read length = (.drained, after)) :
    reader.buffered = [] ∧ reader.socket.arrivals = [] ∧ after = reader := by
  cases Reads.of_read result with
  | direct empty _ readEq | stopped empty _ readEq =>
    obtain ⟨arrivalsEq,rfl⟩ := Socket.arrivals_of_read_drained readEq
    exact ⟨empty,arrivalsEq,by rw [← empty]⟩

/-- The rounds `io.ReadFull` may still need: one for every missing byte and
one for every arrival that turns out empty. -/
def rounds (need : Nat) (reader : BufferedReader) : Nat := need + reader.socket.arrivals.length

/-- The loop of `io.ReadFull`: read until `need` bytes are there or a read
fails.  The bytes read before a failure are returned with it. -/
def readFullLoop : Nat → Nat → BufferedReader → List UInt8 × FullRead × BufferedReader
  | _, 0, reader => ([], .filled, reader)
  | 0, _ + 1, reader => ([], .drained, reader)
  | fuel + 1, need + 1, reader =>
    match reader.read (need + 1) with
    | (.data bytes, after) =>
      let remaining := readFullLoop fuel (need + 1 - bytes.length) after
      (bytes ++ remaining.1, remaining.2)
    | (.failure, after) => ([], .failed, after)
    | (.drained, after) => ([], .drained, after)

def readFull (need : Nat) (reader : BufferedReader) :
    List UInt8 × FullRead × BufferedReader :=
  readFullLoop (rounds need reader) need reader

theorem readFullLoop_continues (fuel need : Nat) (reader : BufferedReader) :
    reader.Continues (readFullLoop fuel need reader).2.2 := by
  induction fuel generalizing need reader with
  | zero => cases need <;> exact Continues.refl reader
  | succ fuel ih =>
    cases need with
    | zero => exact Continues.refl reader
    | succ need =>
      have continues := read_continues (need + 1) reader
      unfold readFullLoop
      split
      · rename_i bytes after readEq
        rw [readEq] at continues
        exact continues.trans (ih (need + 1 - bytes.length) after)
      · rename_i after readEq
        rwa [readEq] at continues
      · rename_i after readEq
        rwa [readEq] at continues

theorem readFull_continues (need : Nat) (reader : BufferedReader) :
    reader.Continues (readFull need reader).2.2 :=
  readFullLoop_continues _ need reader

theorem length_of_read_data (result : reader.read length = (.data bytes, after)) :
    bytes.length ≤ length := by
  cases Reads.of_read result with
  | direct _ _ readEq => exact Socket.length_of_read_data readEq
  | stopped _ notData _ => exact absurd rfl (notData bytes)
  | filled | buffered => exact length_take_le _ _

theorem length_readFullLoop_le (fuel need : Nat) (reader : BufferedReader) :
    (readFullLoop fuel need reader).1.length ≤ need := by
  induction fuel generalizing need reader with
  | zero => cases need <;> exact zero_le _
  | succ fuel ih =>
    cases need with
    | zero => exact zero_le _
    | succ need =>
      unfold readFullLoop
      split
      · rename_i bytes after readEq
        have fits := length_of_read_data readEq
        have later := ih (need + 1 - bytes.length) after
        rw [length_append]
        omega
      · exact zero_le _
      · exact zero_le _

theorem length_readFull_le (need : Nat) (reader : BufferedReader) :
    (readFull need reader).1.length ≤ need :=
  length_readFullLoop_le _ need reader

theorem rounds_of_read_data (enough : rounds (need + 1) reader ≤ fuel + 1)
    (fits : reader.Fits (need + 1)) (result : reader.read (need + 1) = (.data bytes, after)) :
    rounds (need + 1 - bytes.length) after ≤ fuel ∧ after.Fits (need + 1 - bytes.length) := by
  obtain ⟨-,short,arrivalsLe,emptyShrinks⟩ :=
    read_data_spec (succ_pos need) fits result
  have transport := (read_continues (need + 1) reader).transport
  rw [result] at transport
  constructor
  · unfold rounds at enough ⊢
    rcases bytes with _ | ⟨byte,bytes⟩
    · have shrunk := emptyShrinks rfl
      omega
    · simp only [length_cons] at short ⊢
      omega
  · intro datagram
    exact Nat.le_trans (sub_le _ _) (fits (transport ▸ datagram))

/-- How a read ends that does not get all its bytes: at a failure on the way,
or with nothing left on the socket. -/
def CutOff (reader : BufferedReader) (status : FullRead) (after : BufferedReader) : Prop :=
  (status = .failed ∧ Arrival.failure ∈ reader.socket.arrivals) ∨
    (status = .drained ∧ after.buffered = [] ∧ after.socket.arrivals = [])

theorem CutOff.not_filled {status : FullRead} (cutOff : reader.CutOff status after) :
    status ≠ .filled := by
  rcases cutOff with ⟨rfl,-⟩ | ⟨rfl,-⟩ <;> simp

theorem readFullLoop_spec (enough : rounds need reader ≤ fuel) (fits : reader.Fits need) :
    ∃ status after, readFullLoop fuel need reader = (reader.unread.take need, status, after) ∧
      (need ≤ reader.unread.length → status = .filled ∧ after.unread = reader.unread.drop need) ∧
      (reader.unread.length < need → reader.CutOff status after) := by
  induction fuel generalizing need reader with
  | zero =>
    have needZero : need = 0 := by
      unfold rounds at enough
      omega
    subst needZero
    exact ⟨.filled,reader,by simp [readFullLoop],by simp,by simp⟩
  | succ fuel ih =>
    cases need with
    | zero => exact ⟨.filled,reader,by simp [readFullLoop],by simp,by simp⟩
    | succ need =>
      have continues := read_continues (need + 1) reader
      cases readEq : reader.read (need + 1) with
      | mk result after =>
        rw [readEq] at continues
        cases result with
        | data bytes =>
          obtain ⟨unreadEq,short,-,-⟩ := read_data_spec (succ_pos need) fits readEq
          obtain ⟨progress,fitsAfter⟩ := rounds_of_read_data enough fits readEq
          obtain ⟨status,last,loopEq,whenThere,whenMissing⟩ := ih progress fitsAfter
          refine ⟨status,last,?_,?_,?_⟩
          · simp only [readFullLoop,readEq,loopEq]
            rw [unreadEq,take_append,take_of_length_le short]
          · rw [unreadEq,length_append,drop_append,drop_of_length_le short,nil_append]
            exact fun there => whenThere (by omega)
          · rw [unreadEq,length_append]
            exact fun missing => (whenMissing (by omega)).imp_left
              fun ⟨failed,member⟩ => ⟨failed,continues.failures member⟩
        | failure =>
          obtain ⟨none,rest,arrivalsEq,-⟩ := read_failure_spec readEq
          exact ⟨.failed,after,by simp [readFullLoop,readEq,none],by simp [none],
            fun _ => .inl ⟨rfl,by simp [arrivalsEq]⟩⟩
        | drained =>
          obtain ⟨bufferedEq,arrivalsEq,rfl⟩ := read_drained_spec readEq
          have none : after.unread = [] := by
            simp [unread,Socket.available,availableBytes,bufferedEq,arrivalsEq]
          exact ⟨.drained,after,by simp [readFullLoop,readEq,none],by simp [none],
            fun _ => .inr ⟨rfl,bufferedEq,arrivalsEq⟩⟩

theorem readFull_spec (fits : reader.Fits need) :
    ∃ status after, readFull need reader = (reader.unread.take need, status, after) ∧
      (need ≤ reader.unread.length → status = .filled ∧ after.unread = reader.unread.drop need) ∧
      (reader.unread.length < need → reader.CutOff status after) ∧ reader.Continues after := by
  obtain ⟨status,after,readEq,there,missing⟩ := readFullLoop_spec (Nat.le_refl _) fits
  have continues := readFull_continues need reader
  rw [readFull,readEq] at continues
  exact ⟨status,after,readEq,there,missing,continues⟩

/-- `io.ReadFull` succeeds when enough bytes are unread, and takes exactly the
first of them. -/
theorem readFull_filled (fits : reader.Fits need) (there : need ≤ reader.unread.length) :
    ∃ after, readFull need reader = (reader.unread.take need, .filled, after) ∧
      after.unread = reader.unread.drop need ∧ reader.Continues after := by
  obtain ⟨status,after,readEq,filled,-,continues⟩ := readFull_spec fits
  obtain ⟨rfl,unreadEq⟩ := filled there
  exact ⟨after,readEq,unreadEq,continues⟩

theorem readFull_short (fits : reader.Fits need) (missing : reader.unread.length < need) :
    ∃ status after, readFull need reader = (reader.unread, status, after) ∧
      reader.CutOff status after ∧ reader.Continues after := by
  obtain ⟨status,after,readEq,-,cutOff,continues⟩ := readFull_spec fits
  rw [take_of_length_le (Nat.le_of_lt missing)] at readEq
  exact ⟨status,after,readEq,cutOff missing,continues⟩

end BufferedReader

namespace Socket

/-! ### `io.ReadAtLeast` -/

/-- The loop of `io.ReadAtLeast`: read into the room that is left until `need` bytes
are there or a read fails. -/
def readAtLeastLoop : Nat → Nat → Nat → Socket → List UInt8 × FullRead × Socket
  | _, 0, _, socket => ([], .filled, socket)
  | 0, _ + 1, _, socket => ([], .drained, socket)
  | fuel + 1, need + 1, room, socket =>
    match socket.read room with
    | (.data bytes, after) =>
      let remaining :=
        readAtLeastLoop fuel (need + 1 - bytes.length) (room - bytes.length) after
      (bytes ++ remaining.1, remaining.2)
    | (.failure, after) => ([], .failed, after)
    | (.drained, after) => ([], .drained, after)

def readAtLeast (need room : Nat) (socket : Socket) : List UInt8 × FullRead × Socket :=
  readAtLeastLoop (need + socket.arrivals.length) need room socket

variable {socket : Socket} {fuel need room : Nat}

theorem whole_of_stream (streaming : socket.transport = .stream) (capacity : Nat) :
    socket.Whole capacity := by
  intro datagram
  rw [streaming] at datagram
  cases datagram

theorem stream_of_read {after : Socket} {result : ReadResult} {capacity : Nat}
    (streaming : socket.transport = .stream) (readEq : socket.read capacity = (result, after)) :
    after.transport = .stream := by
  have transport := read_transport capacity socket
  rw [readEq] at transport
  exact transport.trans streaming

theorem fewer_rounds {after : Socket} {bytes : List UInt8}
    (enough : need + 1 + socket.arrivals.length ≤ fuel + 1) (fits : need + 1 ≤ room)
    (readEq : socket.read room = (.data bytes, after)) :
    need + 1 - bytes.length + after.arrivals.length ≤ fuel := by
  obtain ⟨arrivalsLe,emptyShrinks⟩ :=
    arrivals_of_read_data (Nat.lt_of_lt_of_le (succ_pos need) fits) readEq
  cases bytes with
  | nil =>
    have shrunk := emptyShrinks rfl
    omega
  | cons byte bytes =>
    simp only [length_cons]
    omega

theorem readAtLeastLoop_filled (enough : need + socket.arrivals.length ≤ fuel)
    (streaming : socket.transport = .stream) (fits : need ≤ room)
    (there : need ≤ socket.available.length) :
    ∃ bytes after, readAtLeastLoop fuel need room socket = (bytes, .filled, after) ∧
      socket.available = bytes ++ after.available ∧ need ≤ bytes.length ∧ bytes.length ≤ room ∧
      after.transport = .stream := by
  induction fuel generalizing need room socket with
  | zero =>
    have needZero : need = 0 := by omega
    subst needZero
    exact ⟨[],socket,by simp [readAtLeastLoop],rfl,zero_le _,zero_le _,streaming⟩
  | succ fuel ih =>
    cases need with
    | zero => exact ⟨[],socket,by simp [readAtLeastLoop],rfl,zero_le _,zero_le _,streaming⟩
    | succ need =>
      cases readEq : socket.read room with
      | mk result after =>
        have streamAfter := stream_of_read streaming readEq
        cases result with
        | data bytes =>
          have split := available_of_read_data (whole_of_stream streaming room) readEq
          have short := length_of_read_data readEq
          have rounds := fewer_rounds enough fits readEq
          have thereAfter : need + 1 - bytes.length ≤ after.available.length := by
            rw [split,length_append] at there
            omega
          obtain ⟨more,last,loopEq,splitAfter,enoughRead,roomLeft,streamLast⟩ :=
            ih rounds streamAfter (Nat.sub_le_sub_right fits _) thereAfter
          refine ⟨bytes ++ more,last,?_,?_,?_,?_,streamLast⟩
          · simp [readAtLeastLoop,readEq,loopEq]
          · rw [split,splitAfter,append_assoc]
          · rw [length_append]
            omega
          · rw [length_append]
            omega
        | failure =>
          obtain ⟨rest,arrivalsEq,_⟩ := available_of_read_failure readEq
          simp [available,arrivalsEq,availableBytes] at there
        | drained =>
          obtain ⟨arrivalsEq,_⟩ := arrivals_of_read_drained readEq
          simp [available,arrivalsEq,availableBytes] at there

/-- `io.ReadAtLeast` succeeds when enough bytes are going to arrive: it takes at
least as many of them as were asked for, and no more than there is room for. -/
theorem readAtLeast_filled (streaming : socket.transport = .stream) (fits : need ≤ room)
    (there : need ≤ socket.available.length) :
    ∃ bytes after, socket.readAtLeast need room = (bytes, .filled, after) ∧
      socket.available = bytes ++ after.available ∧ need ≤ bytes.length ∧ bytes.length ≤ room ∧
      after.transport = .stream :=
  readAtLeastLoop_filled (Nat.le_refl _) streaming fits there

theorem readAtLeastLoop_nothing (positive : 0 < need) (fits : need ≤ room)
    (enough : need + socket.arrivals.length ≤ fuel) (streaming : socket.transport = .stream)
    (nothing : socket.available = []) :
    ∃ status after, readAtLeastLoop fuel need room socket = ([], status, after) ∧
      status ≠ .filled := by
  obtain ⟨less,rfl⟩ : ∃ less, need = less + 1 := ⟨need - 1,by omega⟩
  induction fuel generalizing socket with
  | zero => omega
  | succ fuel ih =>
    cases readEq : socket.read room with
    | mk result after =>
      cases result with
      | data bytes =>
        have split := available_of_read_data (whole_of_stream streaming room) readEq
        rw [nothing] at split
        obtain ⟨bytesNil,restNil⟩ := append_eq_nil_iff.mp split.symm
        subst bytesNil
        have rounds := fewer_rounds enough fits readEq
        obtain ⟨status,last,loopEq,notFilled⟩ :=
          ih (stream_of_read streaming readEq) restNil rounds
        refine ⟨status,last,?_,notFilled⟩
        simp only [readAtLeastLoop,readEq]
        exact congrArg (fun result => ([] ++ result.1, result.2)) loopEq
      | failure =>
        refine ⟨.failed,after,?_,by simp⟩
        simp [readAtLeastLoop,readEq]
      | drained =>
        refine ⟨.drained,after,?_,by simp⟩
        simp [readAtLeastLoop,readEq]

theorem readAtLeast_nothing (positive : 0 < need) (fits : need ≤ room)
    (streaming : socket.transport = .stream) (nothing : socket.available = []) :
    ∃ status after, socket.readAtLeast need room = ([], status, after) ∧ status ≠ .filled :=
  readAtLeastLoop_nothing positive fits (Nat.le_refl _) streaming nothing

end Socket

end PioplatRelay
