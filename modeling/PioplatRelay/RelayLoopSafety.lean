import PioplatRelay.RelayTcpLoop
import PioplatRelay.RelayUdpLoop

/-!
# When the relay loops stay in range

The checksums keep noise out of the relay loops, not a sender.  Both loops trust the
length of an intact header.  They are in range along a whole run exactly when no state
at the loop head has an intact header ahead whose length the loop cannot handle.
-/

namespace PioplatRelay

open Loop Receiver PioplatConn BufferedReader

variable {Pool Tx Block : Type}

/-- Whatever arrives on a connection and on the relay port, the two loops never
panic if and only if no header that they accept declares a body shorter than
its checksum, and none on the port a body longer than the port's buffer. -/
theorem relayLoops_neverPanic_iff (node : RelayNode Pool Tx Block)
    (stream datagrams : List Arrival) (pool : Pool) (addr : String) :
    NeverPanics (handleTcpMsgLoop node) (.start ⟨.stream,stream⟩ pool addr) ∧
        NeverPanics (handleUdpMsgLoop node) (.udpStart datagrams pool) ↔
      (∀ conn, Reaches (handleTcpMsgLoop node) (.start ⟨.stream,stream⟩ pool addr) conn →
        ¬ FrameUndersized node.crc conn.reader.unread) ∧
      ∀ receiver, Reaches (handleUdpMsgLoop node) (.udpStart datagrams pool) receiver →
        ¬ DatagramOverrun node.crc receiver.reader.unread := by
  apply and_congr
  · exact neverPanics_iff (start_ready stream pool addr)
      (fun _ _ ready once => handleTcpMsgLoop_ready ready once)
      (fun _ ready => handleTcpMsgLoop_panicked_iff ready)
  · exact neverPanics_iff (udpStart_ready datagrams pool)
      (fun _ _ ready once => handleUdpMsgLoop_ready ready once)
      (fun _ ready => handleUdpMsgLoop_panicked_iff ready)

/-- The forty bytes of a frame header that declares an empty body stop either
loop, and one that declares five thousand bytes stops the loop of the port. -/
theorem relayLoops_panic_on_lone_headers :
    handleTcpMsgLoop (.ofBytes checksumIEEE)
        (.start ⟨.stream, [.data (frameHeader checksumIEEE 0 transactionMsg .zero)]⟩ [] "") =
          .panicked ∧
      handleUdpMsgLoop (.ofBytes checksumIEEE)
        (.udpStart [.data (frameHeader checksumIEEE 0 transactionMsg .zero)] []) = .panicked ∧
      handleUdpMsgLoop (.ofBytes checksumIEEE)
        (.udpStart [.data (frameHeader checksumIEEE 5000 transactionMsg .zero)] []) =
          .panicked := by
  generalize checksumIEEE = crc
  have streamed (arrived : List UInt8) : (start ⟨.stream,[.data arrived]⟩ [] "" :
        PioplatConn (List Hash) UInt8 UInt8).reader.unread = arrived ++ [] := by
    simp [start,ofSocket,unread,Socket.available,availableBytes,Transport.cut]
  have received (length : Nat) :
      (udpStart [.data (frameHeader crc length transactionMsg .zero)] [] :
        Receiver (List Hash) UInt8 UInt8).reader.unread =
          frameHeader crc length transactionMsg .zero ++ [] := by
    have short : (frameHeader crc length transactionMsg .zero).length ≤ readerBufferSize := by
      simp [readerBufferSize]
    simp [udpStart,ofSocket,unread,
      Socket.available,availableBytes,Transport.cut,List.take_of_length_le short]
  have ahead (length : Nat) :
      TransactionAhead crc (frameHeader crc length transactionMsg .zero ++ []) :=
    ⟨headerIntact_frameHeader ..,declaredType_frameHeader ..⟩
  refine ⟨(handleTcpMsgLoop_panicked_iff (start_ready _ _ _)).mpr ?_,
    (handleUdpMsgLoop_panicked_iff (udpStart_ready _ _)).mpr ?_,
    (handleUdpMsgLoop_panicked_iff (udpStart_ready _ _)).mpr ?_⟩
  · rw [streamed]
    have lengthEq := declaredLength_frameHeader (by decide : 0 < 2 ^ 24) crc transactionMsg
      .zero []
    exact ⟨by simp [headerSize],(ahead 0).1,by rw [lengthEq]; decide,
      by rw [lengthEq]; simp [headerSize]⟩
  · rw [received]
    have lengthEq := declaredLength_frameHeader (by decide : 0 < 2 ^ 24) crc transactionMsg
      .zero []
    exact ⟨by simp [headerSize],ahead 0,Or.inr (by rw [lengthEq]; simp [headerSize,crc32Size])⟩
  · rw [received]
    have lengthEq := declaredLength_frameHeader (by decide : 5000 < 2 ^ 24) crc
      transactionMsg .zero []
    exact ⟨by simp [headerSize],ahead 5000,Or.inl (by rw [lengthEq]; decide)⟩

end PioplatRelay
