import Mathlib.Data.Finmap
import PioplatRelay.RelayFrames
import PioplatRelay.StepRuns

/-!
# How the server sends its broadcasts

`run` takes one frame after the other and starts a goroutine for every registered
peer, which writes the frame to the peer's UDP address or to its TCP connection.  The
type of the object is in a variable that `run` overwrites with every frame it takes,
and a goroutine whose TCP write fails deletes its peer from the map that `run` may be
ranging over.  This file says exactly which runs are not affected.
-/

namespace PioplatRelay

open List

/-- The checksum and the two encodings that a frame is made with. -/
structure RelayFormat (Block Tx : Type*) where
  crc : Checksum
  blocks : ObjectCodec Block
  txs : ObjectCodec Tx

variable {Block Tx : Type*}

def RelayFormat.hash (format : RelayFormat Block Tx) : Block ⊕ Tx → Hash
  | .inl block => format.blocks.hash block
  | .inr tx => format.txs.hash tx

def RelayFormat.frame (format : RelayFormat Block Tx) : Block ⊕ Tx → Option (List UInt8)
  | .inl block => newBlockMsg format.crc format.blocks block
  | .inr tx => newTransactionMsg format.crc format.txs tx

structure RelayMsg (format : RelayFormat Block Tx) where
  object : Block ⊕ Tx
  bytes : List UInt8
  framed : format.frame object = some bytes

inductive RelayChannel
  | tcp
  | udp
  deriving DecidableEq

/-- The choice that a sender makes with the type it reads. -/
def chosenChannel (msgType : UInt8) (msg : List UInt8) : RelayChannel :=
  if msgType = transactionMsg ∧ msg.length ≤ 1472 then .udp else .tcp

namespace RelayMsg

variable {format : RelayFormat Block Tx} (msg : RelayMsg format)

def kind : UInt8 :=
  match msg.object with
  | .inl _ => blockMsg
  | .inr _ => transactionMsg

def intended : RelayChannel :=
  match msg.object with
  | .inl _ => .tcp
  | .inr _ => if msg.bytes.length ≤ 1472 then .udp else .tcp

theorem bytes_eq :
    ∃ data, msg.bytes = newMsg format.crc msg.kind (format.hash msg.object) data := by
  rcases msg with ⟨object,bytes,framed⟩
  cases object with
  | inl block =>
    rcases Option.map_eq_some_iff.mp framed with ⟨data,-,rfl⟩
    exact ⟨data,rfl⟩
  | inr tx =>
    rcases Option.map_eq_some_iff.mp framed with ⟨data,-,rfl⟩
    exact ⟨data,rfl⟩

theorem long : 3 < msg.bytes.length := by
  rcases msg.bytes_eq with ⟨data,bytesEq⟩
  rw [bytesEq,newMsg_length,headerSize]
  omega

def msgType : UInt8 := msg.bytes.get ⟨3,msg.long⟩

theorem msgType_eq : msg.msgType = msg.kind := by
  rcases msg.bytes_eq with ⟨data,bytesEq⟩
  have declared : msg.msgType = declaredType msg.bytes := by
    rw [msgType,declaredType,getD_eq_getElem _ _ msg.long]
    rfl
  rw [declared,bytesEq,newMsg_eq,declaredType_frameHeader]

theorem chosenChannel_msgType : chosenChannel msg.msgType msg.bytes = msg.intended := by
  rw [msgType_eq]
  rcases msg with ⟨object,bytes,framed⟩
  cases object with
  | inl block => simp [chosenChannel,kind,intended,blockMsg,transactionMsg]
  | inr tx => simp [chosenChannel,kind,intended]

end RelayMsg

structure RelayTarget where
  tcpRW : Nat
  addr : String
  udpAddr : String
  deriving DecidableEq

/-- The range over the peers for one frame, with the addresses it has given. -/
structure RangeLoop (format : RelayFormat Block Tx) where
  number : Nat
  msg : RelayMsg format
  visited : Finset String

structure SenderRoutine (format : RelayFormat Block Tx) where
  number : Nat
  msg : RelayMsg format
  addr : String
  conn : RelayTarget

structure RelayWrite where
  number : Nat
  addr : String
  conn : RelayTarget
  via : RelayChannel
  bytes : List UInt8

/-- The server as far as its broadcasts go.  Frames are numbered as `run` takes
them; `received` has each one with the peers of that moment. -/
structure PioplatServer (format : RelayFormat Block Tx) where
  hashSent : Finset Hash := ∅
  /-- The goroutines that are about to send on `broadcastOp`. -/
  broadcastOp : List (RelayMsg format) := []
  peers : Finmap (fun _ : String => RelayTarget) := ∅
  msgType : UInt8 := 0
  range : Option (RangeLoop format) := none
  senders : List (SenderRoutine format) := []
  /-- The senders whose TCP write has failed. -/
  failed : List (String × RelayTarget) := []
  closed : Finset RelayTarget := ∅
  received : List (RelayMsg format × Finmap fun _ : String => RelayTarget) := []
  written : List RelayWrite := []

inductive ServerAction (Block Tx : Type*)
  | broadcastBlock (block : Block)
  | broadcastTransaction (tx : Tx)
  | cleanHashSent
  | addPeer (conn : RelayTarget)
  /-- `run` takes the frame of one of the waiting goroutines. -/
  | receive (i : Nat)
  /-- The range gives an address; a map gives its keys in any order. -/
  | spawn (addr : String)
  | endRange
  | send (i : Nat) (succeeds : Bool)
  | remove (i : Nat)

namespace PioplatServer

variable {format : RelayFormat Block Tx}

/-- The common body of `BroadcastBlock` and `BroadcastTransaction`. -/
def broadcast (object : Block ⊕ Tx) (server : PioplatServer format) : PioplatServer format :=
  if format.hash object ∈ server.hashSent then server
  else
    let hashSent := insert (format.hash object) server.hashSent
    match framed : format.frame object with
    | none => { server with hashSent }
    | some bytes =>
      { server with hashSent, broadcastOp := server.broadcastOp ++ [⟨object,bytes,framed⟩] }

def step (action : ServerAction Block Tx) (server : PioplatServer format) :
    Option (PioplatServer format) :=
  match action with
  | .broadcastBlock block => some (server.broadcast (.inl block))
  | .broadcastTransaction tx => some (server.broadcast (.inr tx))
  | .cleanHashSent => some { server with hashSent := ∅ }
  | .addPeer conn =>
    match server.range with
    | none => some { server with peers := server.peers.insert conn.addr conn }
    | some _ => none
  | .receive i =>
    match server.range, server.broadcastOp[i]? with
    | none, some msg =>
      some { server with
        broadcastOp := server.broadcastOp.eraseIdx i
        msgType := msg.msgType
        range := some ⟨server.received.length,msg,∅⟩
        received := server.received ++ [(msg, server.peers)] }
    | _, _ => none
  | .spawn addr =>
    match server.range, server.peers.lookup addr with
    | some loop, some conn =>
      if addr ∈ loop.visited then none
      else
        some { server with
          range := some { loop with visited := insert addr loop.visited }
          senders := server.senders ++ [⟨loop.number,loop.msg,addr,conn⟩] }
    | _, _ => none
  | .endRange =>
    match server.range with
    | some loop =>
      if server.peers.keys ⊆ loop.visited then some { server with range := none } else none
    | none => none
  | .send i succeeds =>
    match server.senders[i]? with
    | some sender =>
      -- The type is that of the frame `run` has taken last.
      let via := chosenChannel server.msgType sender.msg.bytes
      some { server with
        senders := server.senders.eraseIdx i
        written := server.written ++
          [⟨sender.number,sender.addr,sender.conn,via,sender.msg.bytes⟩]
        failed :=
          if via = .tcp ∧ succeeds = false then server.failed ++ [(sender.addr, sender.conn)]
          else server.failed }
    | none => none
  | .remove i =>
    match server.failed[i]? with
    | some (addr, conn) =>
      some { server with
        failed := server.failed.eraseIdx i
        closed := insert conn server.closed
        peers := server.peers.erase addr }
    | none => none

def writes (written : List RelayWrite) (number : Nat) (addr : String) : Nat :=
  written.countP fun write => write.number = number ∧ write.addr = addr

def pending (senders : List (SenderRoutine format)) (number : Nat) (addr : String) : Nat :=
  senders.countP fun sender => sender.number = number ∧ sender.addr = addr

def unvisited (range : Option (RangeLoop format)) (peers : Finmap fun _ : String => RelayTarget)
    (number : Nat) (addr : String) : Nat :=
  match range with
  | some loop => if loop.number = number ∧ addr ∉ loop.visited ∧ addr ∈ peers then 1 else 0
  | none => 0

def due (server : PioplatServer format) (number : Nat) (addr : String) : Nat :=
  writes server.written number addr + pending server.senders number addr +
    unvisited server.range server.peers number addr

/-- Every write is one of a frame, whole and over its own transport, to a peer
registered when it was taken; and for each such peer there is exactly one,
made or still to come. -/
structure Faithful (server : PioplatServer format) : Prop where
  own : ∀ write ∈ server.written, ∃ msg registered,
    server.received[write.number]? = some (msg, registered) ∧
    registered.lookup write.addr = some write.conn ∧
    write.via = msg.intended ∧ write.bytes = msg.bytes
  once : ∀ number msg registered, server.received[number]? = some (msg, registered) →
    ∀ addr ∈ registered, server.due number addr = 1
  finished : server.range = none → server.senders = [] → ∀ number msg registered,
    server.received[number]? = some (msg, registered) →
    ∀ addr ∈ registered, writes server.written number addr = 1

/-- A sender runs while the variable has a type that gives its frame the same
choice as its own, and a peer is deleted only where the range is past it. -/
def Undisturbed (server : PioplatServer format) : ServerAction Block Tx → Prop
  | .send i _ => ∀ sender, server.senders[i]? = some sender →
      (server.msgType = transactionMsg ↔ sender.msg.msgType = transactionMsg) ∨
        1472 < sender.msg.bytes.length
  | .remove i => ∀ addr conn, server.failed[i]? = some (addr, conn) →
      ∀ loop, server.range = some loop → addr ∈ loop.visited ∨ addr ∉ server.peers
  | _ => True

structure Kept (server : PioplatServer format) : Prop where
  own : ∀ write ∈ server.written, ∃ msg registered,
    server.received[write.number]? = some (msg, registered) ∧
    registered.lookup write.addr = some write.conn ∧
    write.via = msg.intended ∧ write.bytes = msg.bytes
  once : ∀ number msg registered, server.received[number]? = some (msg, registered) →
    ∀ addr ∈ registered, server.due number addr = 1
  started : ∀ sender ∈ server.senders, ∃ registered,
    server.received[sender.number]? = some (sender.msg, registered) ∧
    registered.lookup sender.addr = some sender.conn
  ranging : ∀ loop, server.range = some loop → ∃ registered,
    server.received[loop.number]? = some (loop.msg, registered) ∧
    ∀ addr conn, server.peers.lookup addr = some conn → registered.lookup addr = some conn

variable {server next : PioplatServer format}

theorem Kept.faithful (kept : Kept server) : Faithful server where
  own := kept.own
  once := kept.once
  finished idle noSenders number msg registered taken addr member := by
    have counted := kept.once number msg registered taken addr member
    simpa [due,pending,unvisited,idle,noSenders] using counted

theorem initial_kept : Kept ({} : PioplatServer format) where
  own := by simp
  once := by simp
  started := by simp
  ranging := by simp

theorem broadcast_kept (kept : Kept server) (object : Block ⊕ Tx) :
    Kept (server.broadcast object) := by
  rw [broadcast]
  split
  · exact kept
  · dsimp only
    split
    · exact { kept with }
    · exact { kept with }

theorem addPeer_kept (kept : Kept server) (idle : server.range = none) (conn : RelayTarget) :
    Kept { server with peers := server.peers.insert conn.addr conn } where
  own := kept.own
  once number msg registered taken addr member := by
    have counted := kept.once number msg registered taken addr member
    simp only [due,idle] at counted ⊢
    exact counted
  started := kept.started
  ranging loop running := by
    change server.range = some loop at running
    rw [idle] at running
    cases running

variable {entry : RelayMsg format × Finmap fun _ : String => RelayTarget} {number : Nat}
  {sender : SenderRoutine format}

theorem lt_of_taken
    (taken : server.received[number]? = some entry) : number < server.received.length :=
  (List.getElem?_eq_some_iff.mp taken).1

theorem taken_append (taken : server.received[number]? = some entry)
    (new : RelayMsg format × Finmap fun _ : String => RelayTarget) :
    (server.received ++ [new])[number]? = some entry := by
  rw [List.getElem?_append_left (lt_of_taken taken),taken]

/-- Nothing has been sent of a frame that is only now taken. -/
theorem Kept.writes_new (kept : Kept server) (addr : String) :
    writes server.written server.received.length addr = 0 := by
  rw [writes,countP_eq_zero]
  intro write written
  rcases kept.own write written with ⟨_,_,before,-⟩
  simp [Nat.ne_of_lt (lt_of_taken before)]

theorem Kept.pending_new (kept : Kept server) (addr : String) :
    pending server.senders server.received.length addr = 0 := by
  rw [pending,countP_eq_zero]
  intro sender started
  rcases kept.started sender started with ⟨_,before,-⟩
  simp [Nat.ne_of_lt (lt_of_taken before)]

theorem receive_kept (kept : Kept server) (idle : server.range = none) (msg : RelayMsg format)
    (left : List (RelayMsg format)) :
    Kept { server with
      broadcastOp := left
      msgType := msg.msgType
      range := some ⟨server.received.length,msg,∅⟩
      received := server.received ++ [(msg, server.peers)] } where
  own write member := by
    rcases kept.own write member with ⟨own,registered,taken,rest⟩
    exact ⟨own,registered,taken_append taken _,rest⟩
  once number own registered taken addr member := by
    change (server.received ++ [(msg, server.peers)])[number]? = some (own, registered) at taken
    by_cases earlier : number < server.received.length
    · rw [List.getElem?_append_left earlier] at taken
      have counted := kept.once number own registered taken addr member
      simp only [due,idle] at counted
      simpa [due,unvisited,Nat.ne_of_gt earlier] using counted
    · rw [List.getElem?_append_right (not_lt.mp earlier),List.getElem?_singleton] at taken
      split at taken
      · rename_i isLast
        cases taken
        obtain rfl : number = server.received.length := by omega
        simp only [due,unvisited,kept.writes_new,kept.pending_new]
        simp [member]
      · cases taken
  started sender member := by
    rcases kept.started sender member with ⟨registered,taken,rest⟩
    exact ⟨registered,taken_append taken _,rest⟩
  ranging loop running := by
    cases running
    exact ⟨server.peers,by simp,fun _ _ found => found⟩

theorem pending_append (senders : List (SenderRoutine format)) (sender : SenderRoutine format)
    (number : Nat) (addr : String) : pending (senders ++ [sender]) number addr =
      pending senders number addr +
        if sender.number = number ∧ sender.addr = addr then 1 else 0 := by
  simp [pending]

variable {loop : RangeLoop format} {addr : String} {i : Nat}

theorem unvisited_insert {peers : Finmap fun _ : String => RelayTarget}
    (fresh : addr ∉ loop.visited) (there : addr ∈ peers) (number : Nat) (other : String) :
    unvisited (some { loop with visited := insert addr loop.visited }) peers number other +
        (if loop.number = number ∧ addr = other then 1 else 0) =
      unvisited (some loop) peers number other := by
  by_cases same : addr = other
  · subst same
    by_cases own : loop.number = number
    · simp [unvisited,fresh,there]
    · simp [unvisited,own]
  · simp [unvisited,same,Ne.symm same]

theorem spawn_kept (kept : Kept server) {conn : RelayTarget} (running : server.range = some loop)
    (found : server.peers.lookup addr = some conn) (fresh : addr ∉ loop.visited) :
    Kept { server with
      range := some { loop with visited := insert addr loop.visited }
      senders := server.senders ++ [⟨loop.number,loop.msg,addr,conn⟩] } where
  own := kept.own
  once number msg registered taken other member := by
    have counted := kept.once number msg registered taken other member
    have there : addr ∈ server.peers := Finmap.mem_of_lookup_eq_some found
    have moved := unvisited_insert fresh there number other
    rw [due,running] at counted
    simp only [due,pending_append]
    omega
  started sender member := by
    rcases mem_append.mp member with before | new
    · exact kept.started sender before
    · rcases kept.ranging loop running with ⟨registered,taken,inside⟩
      rw [mem_singleton] at new
      subst new
      exact ⟨registered,taken,inside addr conn found⟩
  ranging other running' := by
    cases running'
    exact kept.ranging loop running

theorem endRange_kept (kept : Kept server) (running : server.range = some loop)
    (all : server.peers.keys ⊆ loop.visited) :
    Kept { server with range := none } where
  own := kept.own
  once number msg registered taken addr member := by
    have counted := kept.once number msg registered taken addr member
    have passed : unvisited (some loop) server.peers number addr = 0 := by
      rw [unvisited,if_neg]
      rintro ⟨-,fresh,there⟩
      exact fresh (all (Finmap.mem_keys.mpr there))
    rw [due,running,passed] at counted
    exact counted
  started := kept.started
  ranging loop running := by cases running

/-- The guard of a sender in terms of its choice. -/
theorem chosenChannel_eq_intended_iff (msgType : UInt8) (msg : RelayMsg format) :
    chosenChannel msgType msg.bytes = msg.intended ↔
      ((msgType = transactionMsg ↔ msg.msgType = transactionMsg) ∨ 1472 < msg.bytes.length) := by
  rw [← msg.chosenChannel_msgType,chosenChannel,chosenChannel]
  by_cases short : msg.bytes.length ≤ 1472
  · have notLong : ¬ 1472 < msg.bytes.length := not_lt.mpr short
    by_cases isTx : msgType = transactionMsg
    · by_cases ownTx : msg.msgType = transactionMsg
      · simp [isTx,ownTx]
      · simp [ownTx,notLong]
    · by_cases ownTx : msg.msgType = transactionMsg
      · simp [ownTx,short]
      · simp [isTx,ownTx]
  · simp [short,not_le.mp short]

theorem pending_eraseIdx {senders : List (SenderRoutine format)}
    (there : senders[i]? = some sender) (number : Nat) (addr : String) :
    pending (senders.eraseIdx i) number addr +
        (if sender.number = number ∧ sender.addr = addr then 1 else 0) =
      pending senders number addr := by
  rcases List.getElem?_eq_some_iff.mp there with ⟨inside,rfl⟩
  have perm := getElem_cons_eraseIdx_perm inside
  simp only [pending]
  rw [← perm.countP_eq,countP_cons]
  simp

theorem send_kept (kept : Kept server) (there : server.senders[i]? = some sender)
    (same : chosenChannel server.msgType sender.msg.bytes = sender.msg.intended)
    (failed : List (String × RelayTarget)) :
    Kept { server with
      senders := server.senders.eraseIdx i
      written := server.written ++ [⟨sender.number, sender.addr, sender.conn,
        chosenChannel server.msgType sender.msg.bytes, sender.msg.bytes⟩]
      failed } where
  own write member := by
    rcases mem_append.mp member with before | new
    · exact kept.own write before
    · rcases kept.started sender (mem_of_getElem? there) with ⟨registered,taken,found⟩
      rw [mem_singleton] at new
      subst new
      exact ⟨sender.msg,registered,taken,found,same,rfl⟩
  once number msg registered taken addr member := by
    have counted := kept.once number msg registered taken addr member
    have moved := pending_eraseIdx there number addr
    simp only [due,writes,countP_append,countP_singleton] at counted ⊢
    simp only [decide_eq_true_eq]
    omega
  started other member := kept.started other (mem_of_mem_eraseIdx member)
  ranging := kept.ranging

theorem remove_kept (kept : Kept server)
    (past : ∀ loop, server.range = some loop → addr ∈ loop.visited ∨ addr ∉ server.peers)
    (failed : List (String × RelayTarget)) (closed : Finset RelayTarget) :
    Kept { server with failed, closed, peers := server.peers.erase addr } where
  own := kept.own
  once number msg registered taken other member := by
    have counted := kept.once number msg registered taken other member
    have same : unvisited server.range (server.peers.erase addr) number other =
        unvisited server.range server.peers number other := by
      cases rangeEq : server.range with
      | none => rfl
      | some loop =>
        by_cases here : other = addr
        · subst here
          rcases past loop rangeEq with visited | absent
          · simp [unvisited,visited]
          · simp [unvisited,absent]
        · simp [unvisited,here]
    rw [due] at counted ⊢
    rw [same]
    exact counted
  started := kept.started
  ranging loop running := by
    rcases kept.ranging loop running with ⟨registered,taken,inside⟩
    refine ⟨registered,taken,fun other conn found => inside other conn ?_⟩
    by_cases here : other = addr
    · subst here
      simp at found
    · simpa [Finmap.lookup_erase_ne here] using found

variable {action : ServerAction Block Tx}

theorem step_kept (kept : Kept server) (undisturbed : Undisturbed server action)
    (stepped : step action server = some next) : Kept next := by
  cases action with
  | broadcastBlock block =>
    cases stepped
    exact broadcast_kept kept (.inl block)
  | broadcastTransaction tx =>
    cases stepped
    exact broadcast_kept kept (.inr tx)
  | cleanHashSent =>
    cases stepped
    exact { kept with }
  | addPeer conn =>
    simp only [step] at stepped
    split at stepped
    · rename_i idle
      cases stepped
      exact addPeer_kept kept idle conn
    · cases stepped
  | receive i =>
    simp only [step] at stepped
    split at stepped
    · rename_i msg idle waiting
      cases stepped
      exact receive_kept kept idle msg _
    · cases stepped
  | spawn addr =>
    simp only [step] at stepped
    split at stepped
    · rename_i loop conn running found
      split at stepped
      · cases stepped
      · rename_i fresh
        cases stepped
        exact spawn_kept kept running found fresh
    · cases stepped
  | endRange =>
    simp only [step] at stepped
    split at stepped
    · rename_i loop running
      split at stepped
      · rename_i all
        cases stepped
        exact endRange_kept kept running all
      · cases stepped
    · cases stepped
  | send i succeeds =>
    simp only [step] at stepped
    split at stepped
    · rename_i sender there
      cases stepped
      have same := (chosenChannel_eq_intended_iff _ _).mpr (undisturbed sender there)
      exact send_kept kept there same _
    · cases stepped
  | remove i =>
    simp only [step] at stepped
    split at stepped
    · rename_i addr conn there
      cases stepped
      exact remove_kept kept (undisturbed addr conn there) _ _
    · cases stepped

theorem send_disturbed (kept : Kept server) {succeeds : Bool}
    (disturbed : ¬ Undisturbed server (.send i succeeds))
    (stepped : step (.send i succeeds) server = some next) : ¬ Faithful next := by
  intro faithful
  simp only [Undisturbed,not_forall] at disturbed
  rcases disturbed with ⟨sender,there,differs⟩
  have wrong : chosenChannel server.msgType sender.msg.bytes ≠ sender.msg.intended := by
    rw [Ne,chosenChannel_eq_intended_iff]
    exact differs
  simp only [step,there] at stepped
  cases stepped
  rcases faithful.own _ (mem_append_right _ (mem_singleton_self _)) with
    ⟨msg,registered,taken,-,same,-⟩
  rcases kept.started sender (mem_of_getElem? there) with ⟨before,takenBefore,-⟩
  cases takenBefore.symm.trans taken
  exact wrong same

theorem remove_disturbed (kept : Kept server) (disturbed : ¬ Undisturbed server (.remove i))
    (stepped : step (.remove i) server = some next) : ¬ Faithful next := by
  intro faithful
  rw [Undisturbed] at disturbed
  push Not at disturbed
  rcases disturbed with ⟨addr,conn,there,loop,running,fresh,present⟩
  rcases kept.ranging loop running with ⟨registered,taken,inside⟩
  have member : addr ∈ registered := by
    rcases Finmap.mem_iff.mp present with ⟨other,found⟩
    exact Finmap.mem_of_lookup_eq_some (inside addr other found)
  have before := kept.once loop.number loop.msg registered taken addr member
  simp only [step,there] at stepped
  cases stepped
  have after := faithful.once loop.number loop.msg registered taken addr member
  -- The peer counts as unvisited before the step, and no longer after it.
  simp [due,unvisited,running,fresh,present] at before after
  omega

theorem step_disturbed (kept : Kept server) (disturbed : ¬ Undisturbed server action)
    (stepped : step action server = some next) : ¬ Faithful next := by
  cases action with
  | send i succeeds => exact send_disturbed kept disturbed stepped
  | remove i => exact remove_disturbed kept disturbed stepped
  | _ => exact absurd trivial disturbed

/-- In every order of the broadcasts, the registrations and the senders, the
frames go out as they should exactly as long as the steps are undisturbed. -/
theorem faithful_iff_undisturbed (format : RelayFormat Block Tx)
    (schedule : List (ServerAction Block Tx)) :
    Always step Faithful ({} : PioplatServer format) schedule ↔
      Guarded step Undisturbed ({} : PioplatServer format) schedule :=
  always_iff_guarded (fun _ _ _ => step_kept) (fun _ => Kept.faithful)
    (fun _ _ _ => step_disturbed) initial_kept

def byteFormat : RelayFormat UInt8 UInt8 := ⟨checksumIEEE,.byte,.byte⟩

/-- A transaction is taken before the sender of a block runs: the block goes out
over UDP. -/
theorem block_sent_by_udp : ∃ last : PioplatServer byteFormat,
    runAll step {} [.addPeer ⟨3, "10.0.0.2:30305", "10.0.0.2:30300"⟩, .broadcastBlock 1,
      .receive 0, .spawn "10.0.0.2:30305", .endRange, .broadcastTransaction 2, .receive 0,
      .send 0 true] = some last ∧
    last.received.map (fun taken => taken.1.object) = [.inl 1, .inr 2] ∧
    last.written.map (fun write => (write.number, write.via)) = [(0, .udp)] ∧
    ¬ Faithful last := by
  refine ⟨_,rfl,by decide +kernel,by decide +kernel,fun faithful => ?_⟩
  rcases faithful.own _ (mem_singleton_self _) with ⟨msg,registered,taken,-,same,-⟩
  cases taken
  revert same
  decide +kernel

end PioplatServer

end PioplatRelay
