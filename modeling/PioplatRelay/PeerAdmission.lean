import PioplatRelay.CounterMaps
import PioplatRelay.ProtocolMatching
import PioplatRelay.StepRuns

/-!
# Admission of peers

The main loop of the server admits connections to its peer map, drops them again
and changes the trust in nodes.  A connection is checked after each of its two
handshakes, and the map, the trust and the flags of connections change between
the checks.  The inbound peers are counted beside the map.
-/

namespace PioplatRelay.Admission

open Option Finset

open Multiplexing (Cap Protocol)

variable {Id Name : Type} [DecidableEq Id] [DecidableEq Name]

inductive ConnFlag where
  | dynDialedConn
  | staticDialedConn
  | inboundConn
  | trustedConn
  | verifyConn
  deriving DecidableEq

/-- A connection past the encryption handshake.  The capabilities are those that the
protocol handshake will bring. -/
structure Conn (Id Name : Type) where
  node : Id
  flags : Finset ConnFlag
  caps : List (Cap Name)

namespace Conn

variable (conn : Conn Id Name)

def is (flag : ConnFlag) : Bool := decide (flag ∈ conn.flags)

def set (flag : ConnFlag) (val : Bool) : Conn Id Name :=
  { conn with flags := if val then insert flag conn.flags else conn.flags.erase flag }

section

omit [DecidableEq Id] [DecidableEq Name]

@[simp]
theorem node_set (flag : ConnFlag) (val : Bool) : (conn.set flag val).node = conn.node := rfl

theorem is_set_of_ne {flag other : ConnFlag} (differ : other ≠ flag)
    (val : Bool) : (conn.set flag val).is other = conn.is other := by
  cases val <;> simp [is,set,differ]

end

end Conn

/-- The configuration that the checks read.  `MaxPeers` "must be greater than zero". -/
structure Server (Id Name : Type) where
  localnode : Id
  maxPeers : Int
  maxPeers_nonneg : 0 ≤ maxPeers
  dialRatio : Int
  noDial : Bool
  protocols : List (Protocol Name)

def defaultDialRatio : Int := 3

def Server.maxDialedConns (server : Server Id Name) : Int :=
  if server.noDial ∨ server.maxPeers = 0 then 0
  else
    let limit := if server.dialRatio = 0 then server.maxPeers.tdiv defaultDialRatio
      else server.maxPeers.tdiv server.dialRatio
    if limit = 0 then 1 else limit

def Server.maxInboundConns (server : Server Id Name) : Int :=
  server.maxPeers - server.maxDialedConns

inductive DiscReason where
  | tooManyPeers
  | alreadyConnected
  | self
  | uselessPeer
  deriving DecidableEq

/-- A launched peer: its number, the connection it runs on, and whether the connection
was trusted when it was admitted. -/
structure Peer where
  number : Nat
  rw : Nat
  admittedTrusted : Bool
  deriving DecidableEq

/-- The variables of the loop; the connections, which other goroutines only read; the
launched peers that have not announced their end; and the answers of the checks. -/
structure State (Id Name : Type) where
  peers : Finmap fun _ : Id => Peer
  inboundCount : Int
  trusted : Finset Id
  conns : Nat → Conn Id Name
  alive : Finset Peer
  launched : Nat
  answers : List (Nat × Option DiscReason)

/-- What the loop receives.  Connections are given by their place in memory. -/
inductive Event (Id : Type) where
  | addtrusted (node : Id)
  | removetrusted (node : Id)
  | checkpointPostHandshake (conn : Nat)
  | checkpointAddPeer (conn : Nat)
  | delpeer (peer : Peer)

def Server.postHandshakeChecks (server : Server Id Name) (peers : Finmap fun _ : Id => Peer)
    (inboundCount : Int) (conn : Conn Id Name) : Option DiscReason :=
  if !conn.is .trustedConn ∧ server.maxPeers ≤ peers.keys.card then some .tooManyPeers
  else if !conn.is .trustedConn ∧ conn.is .inboundConn ∧ server.maxInboundConns ≤ inboundCount then
    some .tooManyPeers
  else if (peers.lookup conn.node).isSome then some .alreadyConnected
  else if conn.node = server.localnode then some .self
  else none

def countMatchingProtocols (protocols : List (Protocol Name)) (caps : List (Cap Name)) : Nat :=
  (caps.map fun cap => protocols.countP fun proto =>
    decide (proto.name = cap.name ∧ proto.version = cap.version)).sum

def Server.addPeerChecks (server : Server Id Name) (peers : Finmap fun _ : Id => Peer)
    (inboundCount : Int) (conn : Conn Id Name) : Option DiscReason :=
  if 0 < server.protocols.length ∧ countMatchingProtocols server.protocols conn.caps = 0 then
    some .uselessPeer
  else server.postHandshakeChecks peers inboundCount conn

namespace State

def setTrusted (state : State Id Name) (conn : Nat) (val : Bool) : State Id Name :=
  { state with
    conns := Function.update state.conns conn ((state.conns conn).set .trustedConn val) }

/-- The peer of a node, if there is one, follows a change of the trust. -/
def trustPeer (state : State Id Name) (node : Id) (val : Bool) : State Id Name :=
  match state.peers.lookup node with
  | none => state
  | some peer => state.setTrusted peer.rw val

def answer (state : State Id Name) (conn : Nat) (reason : Option DiscReason) : State Id Name :=
  { state with answers := state.answers ++ [(conn, reason)] }

def inbound (state : State Id Name) (peer : Peer) : Bool := (state.conns peer.rw).is .inboundConn

def launchPeer (state : State Id Name) (conn : Nat) : Peer :=
  ⟨state.launched, conn, (state.conns conn).is .trustedConn⟩

/-- What the loop does with a connection that has passed all checks. -/
def addPeer (state : State Id Name) (conn : Nat) : State Id Name :=
  let peer := state.launchPeer conn
  { state with
    peers := state.peers.insert (state.conns conn).node peer
    inboundCount := if state.inbound peer then state.inboundCount + 1 else state.inboundCount
    alive := insert peer state.alive
    launched := state.launched + 1 }

def delPeer (state : State Id Name) (peer : Peer) : State Id Name :=
  { state with
    peers := state.peers.erase (state.conns peer.rw).node
    inboundCount := if state.inbound peer then state.inboundCount - 1 else state.inboundCount
    alive := state.alive.erase peer }

/-- One round of the loop.  A peer announces its end once. -/
def step (server : Server Id Name) (event : Event Id) (state : State Id Name) :
    Option (State Id Name) :=
  match event with
  | .addtrusted node =>
    some ({ state with trusted := insert node state.trusted }.trustPeer node true)
  | .removetrusted node =>
    some ({ state with trusted := state.trusted.erase node }.trustPeer node false)
  | .checkpointPostHandshake conn =>
    let checked := if (state.conns conn).node ∈ state.trusted then state.setTrusted conn true
      else state
    some (checked.answer conn
      (server.postHandshakeChecks checked.peers checked.inboundCount (checked.conns conn)))
  | .checkpointAddPeer conn =>
    match server.addPeerChecks state.peers state.inboundCount (state.conns conn) with
    | none => some ((state.addPeer conn).answer conn none)
    | some reason => some (state.answer conn (some reason))
  | .delpeer peer => if peer ∈ state.alive then some (state.delPeer peer) else none

def start (conns : Nat → Conn Id Name) (trustedNodes : List Id) : State Id Name where
  peers := ∅
  inboundCount := 0
  trusted := trustedNodes.toFinset
  conns := conns
  alive := ∅
  launched := 0
  answers := []

def inboundPeers (state : State Id Name) : Nat := entryCount state.peers state.inbound

def trustedPeers (state : State Id Name) : Nat := entryCount state.peers Peer.admittedTrusted

section

omit [DecidableEq Id] [DecidableEq Name]

@[simp]
theorem node_setTrusted (state : State Id Name) (conn other : Nat) (val : Bool) :
    ((state.setTrusted conn val).conns other).node = (state.conns other).node := by
  simp only [setTrusted,Function.update_apply]
  split
  · case isTrue same => rw [same,Conn.node_set]
  · rfl

@[simp]
theorem inbound_setTrusted (state : State Id Name) (conn : Nat) (val : Bool) (peer : Peer) :
    (state.setTrusted conn val).inbound peer = state.inbound peer := by
  simp only [inbound,setTrusted,Function.update_apply]
  split
  · case isTrue same => rw [same, Conn.is_set_of_ne _ (by decide)]
  · rfl

end

structure Sound (server : Server Id Name) (state : State Id Name) : Prop where
  lookup_iff : ∀ node peer, state.peers.lookup node = some peer ↔
    peer ∈ state.alive ∧ (state.conns peer.rw).node = node
  numbered : ∀ peer ∈ state.alive, peer.number < state.launched
  notSelf : ∀ peer ∈ state.alive, (state.conns peer.rw).node ≠ server.localnode
  inboundCount_eq : state.inboundCount = state.inboundPeers
  untrusted_le : (entryCount state.peers (fun peer => !peer.admittedTrusted) : Int) ≤
    server.maxPeers

end State

open State

variable {server : Server Id Name} {state : State Id Name}

structure Passes (server : Server Id Name) (state : State Id Name) (conn : Conn Id Name) :
    Prop where
  absent : state.peers.lookup conn.node = none
  notSelf : conn.node ≠ server.localnode
  card_lt : conn.is .trustedConn = false → (state.peers.keys.card : Int) < server.maxPeers
  inbound_lt : conn.is .trustedConn = false → conn.is .inboundConn = true →
    state.inboundCount < server.maxInboundConns

omit [DecidableEq Name] in
theorem passes_of_postHandshakeChecks {conn : Conn Id Name}
    (passed : server.postHandshakeChecks state.peers state.inboundCount conn = none) :
    Passes server state conn := by
  rw [Server.postHandshakeChecks] at passed
  split_ifs at passed with full inboundFull present isSelf
  refine ⟨not_isSome_iff_eq_none.mp present,isSelf,fun untrusted => ?_,
    fun untrusted inbound => ?_⟩
  · exact Int.not_le.mp fun le => full ⟨by simp [untrusted],le⟩
  · exact Int.not_le.mp fun le => inboundFull ⟨by simp [untrusted],inbound,le⟩

theorem passes_of_addPeerChecks {conn : Conn Id Name}
    (passed : server.addPeerChecks state.peers state.inboundCount conn = none) :
    Passes server state conn := by
  rw [Server.addPeerChecks] at passed
  split at passed
  · cases passed
  · exact passes_of_postHandshakeChecks passed

namespace State.Sound

omit [DecidableEq Name]

section

variable (sound : state.Sound server)

include sound

theorem setTrusted (conn : Nat) (val : Bool) : (state.setTrusted conn val).Sound server where
  lookup_iff node peer := by
    rw [node_setTrusted]
    exact sound.lookup_iff node peer
  numbered := sound.numbered
  notSelf peer member := by
    rw [node_setTrusted]
    exact sound.notSelf peer member
  inboundCount_eq := by
    rw [inboundPeers,entryCount_congr fun _ peer _ => inbound_setTrusted state conn val peer]
    exact sound.inboundCount_eq
  untrusted_le := sound.untrusted_le

theorem trustPeer (node : Id) (val : Bool) : (state.trustPeer node val).Sound server := by
  rw [State.trustPeer]
  split
  · exact sound
  · exact sound.setTrusted _ _

theorem addPeer {conn : Nat} (passes : Passes server state (state.conns conn)) :
    (state.addPeer conn).Sound server where
  lookup_iff node peer := by
    simp only [State.addPeer,lookup_insert_ite,mem_insert]
    split
    · case isTrue same =>
        subst same
        rw [some.injEq]
        constructor
        · rintro rfl
          exact ⟨.inl rfl,rfl⟩
        · rintro ⟨rfl | member,nodeEq⟩
          · rfl
          · have found := (sound.lookup_iff _ _).mpr ⟨member,nodeEq⟩
            rw [passes.absent] at found
            cases found
    · case isFalse differ =>
        rw [sound.lookup_iff]
        constructor
        · rintro ⟨member,nodeEq⟩
          exact ⟨.inr member,nodeEq⟩
        · rintro ⟨rfl | member,nodeEq⟩
          · exact absurd nodeEq.symm differ
          · exact ⟨member,nodeEq⟩
  numbered peer member := by
    rcases mem_insert.mp member with rfl | earlier
    · exact Nat.lt_succ_self _
    · exact Nat.lt_succ_of_lt (sound.numbered peer earlier)
  notSelf peer member := by
    rcases mem_insert.mp member with rfl | earlier
    · exact passes.notSelf
    · exact sound.notSelf peer earlier
  inboundCount_eq := by
    have counted := sound.inboundCount_eq
    have added : entryCount (state.peers.insert (state.conns conn).node (state.launchPeer conn))
        state.inbound = state.inboundPeers +
          if state.inbound (state.launchPeer conn) then 1 else 0 :=
      entryCount_insert passes.absent
    change (if state.inbound (state.launchPeer conn) then state.inboundCount + 1
      else state.inboundCount) = (entryCount (state.peers.insert (state.conns conn).node
        (state.launchPeer conn)) state.inbound : Nat)
    rw [added]
    split <;> omega
  untrusted_le := by
    have bounded := sound.untrusted_le
    have most : entryCount state.peers (fun peer => !peer.admittedTrusted) ≤
        state.peers.keys.card :=
      card_filter_le _ _
    simp only [State.addPeer,entryCount_insert passes.absent,State.launchPeer]
    cases trusted : (state.conns conn).is .trustedConn with
    | true => simpa using bounded
    | false =>
      have room := passes.card_lt trusted
      simp only [Bool.not_false,if_true]
      omega

theorem delPeer {peer : Peer} (member : peer ∈ state.alive) :
    (state.delPeer peer).Sound server := by
  have present : state.peers.lookup (state.conns peer.rw).node = some peer :=
    (sound.lookup_iff _ _).mpr ⟨member,rfl⟩
  refine ⟨fun node other => ?_,fun other mem => ?_,fun other mem => ?_,?_,?_⟩
  · simp only [State.delPeer,lookup_erase_ite,mem_erase]
    split
    · case isTrue same =>
        subst same
        constructor
        · intro found
          cases found
        · rintro ⟨⟨differ,otherMem⟩,nodeEq⟩
          have found := (sound.lookup_iff _ _).mpr ⟨otherMem,nodeEq⟩
          rw [present] at found
          exact absurd (some.inj found).symm differ
    · case isFalse differ =>
        rw [sound.lookup_iff]
        refine and_congr_left fun nodeEq => ⟨fun otherMem => ⟨?_,otherMem⟩,And.right⟩
        rintro rfl
        exact differ nodeEq.symm
  · exact sound.numbered other (mem_of_mem_erase mem)
  · exact sound.notSelf other (mem_of_mem_erase mem)
  · have counted := sound.inboundCount_eq
    have fewer : state.inboundPeers =
        entryCount (state.peers.erase (state.conns peer.rw).node) state.inbound +
          if state.inbound peer then 1 else 0 :=
      entryCount_erase present
    change (if state.inbound peer then state.inboundCount - 1 else state.inboundCount) =
      (entryCount (state.peers.erase (state.conns peer.rw).node) state.inbound : Nat)
    rw [counted,fewer]
    split <;> omega
  · have bounded := sound.untrusted_le
    rw [entryCount_erase present] at bounded
    change (entryCount (state.peers.erase (state.conns peer.rw).node)
      (fun peer => !peer.admittedTrusted) : Int) ≤ _
    omega

end

end State.Sound

/-- What one round can do to the peers. -/
theorem step_cases {event : Event Id} {after : State Id Name}
    (stepped : state.step server event = some after) :
    (∃ trusted node val, after = { state with trusted := trusted }.trustPeer node val) ∨
    (∃ conn reason, after = state.answer conn reason ∨
      after = (state.setTrusted conn true).answer conn reason) ∨
    (∃ conn, event = .checkpointAddPeer conn ∧ Passes server state (state.conns conn) ∧
      after = (state.addPeer conn).answer conn none) ∨
    ∃ peer ∈ state.alive, after = state.delPeer peer := by
  cases event with
  | addtrusted node => exact .inl ⟨_,node,true,(some.inj stepped).symm⟩
  | removetrusted node => exact .inl ⟨_,node,false,(some.inj stepped).symm⟩
  | checkpointPostHandshake conn =>
    have afterEq := (some.inj stepped).symm
    by_cases isTrusted : (state.conns conn).node ∈ state.trusted
    · simp only [if_pos isTrusted] at afterEq
      exact .inr (.inl ⟨conn,_,.inr afterEq⟩)
    · simp only [if_neg isTrusted] at afterEq
      exact .inr (.inl ⟨conn,_,.inl afterEq⟩)
  | checkpointAddPeer conn =>
    rw [State.step] at stepped
    split at stepped
    · case h_1 passed =>
        exact .inr (.inr (.inl ⟨conn,rfl,passes_of_addPeerChecks passed,(some.inj stepped).symm⟩))
    · exact .inr (.inl ⟨conn,_,.inl (some.inj stepped).symm⟩)
  | delpeer peer =>
    rw [State.step,ite_none_right_eq_some] at stepped
    exact .inr (.inr (.inr ⟨peer,stepped.1,(some.inj stepped.2).symm⟩))

theorem State.Sound.step (sound : state.Sound server) {event : Event Id}
    {after : State Id Name} (stepped : state.step server event = some after) :
    after.Sound server := by
  -- the trusted set and the answers are not part of the invariant
  have ignores (trusted : Finset Id) (answers : List (Nat × Option DiscReason))
      {state : State Id Name} (sound : state.Sound server) :
      { state with trusted := trusted, answers := answers }.Sound server :=
    { sound with }
  rcases step_cases stepped with ⟨trusted,node,val,rfl⟩ | ⟨conn,reason,rfl | rfl⟩ |
    ⟨conn,-,passes,rfl⟩ | ⟨peer,member,rfl⟩
  · exact (ignores trusted state.answers sound).trustPeer node val
  · exact ignores _ _ sound
  · exact ignores _ _ (sound.setTrusted conn true)
  · exact ignores _ _ (sound.addPeer passes)
  · exact sound.delPeer member

omit [DecidableEq Name] in
theorem sound_start (server : Server Id Name) (conns : Nat → Conn Id Name)
    (trustedNodes : List Id) : (start conns trustedNodes).Sound server where
  lookup_iff node peer := by simp [start]
  numbered peer member := absurd member (notMem_empty peer)
  notSelf peer member := absurd member (notMem_empty peer)
  inboundCount_eq := rfl
  untrusted_le := server.maxPeers_nonneg

/-- The limits of the peer map between two rounds of the loop. -/
structure WithinLimits (server : Server Id Name) (state : State Id Name) : Prop where
  inboundCount_eq : state.inboundCount = state.inboundPeers
  lookup_iff : ∀ node peer, state.peers.lookup node = some peer ↔
    peer ∈ state.alive ∧ (state.conns peer.rw).node = node
  distinct : ∀ first ∈ state.alive, ∀ second ∈ state.alive,
    (state.conns first.rw).node = (state.conns second.rw).node → first = second
  notSelf : ∀ peer ∈ state.alive, (state.conns peer.rw).node ≠ server.localnode
  /-- Whatever the next round admits without trust finds room. -/
  admitted : ∀ event after, state.step server event = some after →
    ∀ peer ∈ after.alive, peer ∉ state.alive →
      (state.conns peer.rw).is .trustedConn = false →
        (state.peers.keys.card : Int) < server.maxPeers ∧
        ((state.conns peer.rw).is .inboundConn = true →
          (state.inboundPeers : Int) < server.maxInboundConns)
  card_le : (state.peers.keys.card : Int) ≤ server.maxPeers + state.trustedPeers

theorem State.Sound.withinLimits (sound : state.Sound server) : WithinLimits server state where
  inboundCount_eq := sound.inboundCount_eq
  lookup_iff := sound.lookup_iff
  notSelf := sound.notSelf
  distinct first firstMem second secondMem same := by
    have found := (sound.lookup_iff _ _).mpr ⟨firstMem,same⟩
    rw [(sound.lookup_iff _ _).mpr ⟨secondMem,rfl⟩] at found
    exact (some.inj found).symm
  admitted event after stepped peer member new untrusted := by
    have unchanged (trusted : Finset Id) (node : Id) (val : Bool) :
        ({ state with trusted := trusted }.trustPeer node val).alive = state.alive := by
      rw [State.trustPeer]
      split <;> rfl
    rcases step_cases stepped with ⟨trusted,node,val,rfl⟩ | ⟨conn,reason,rfl | rfl⟩ |
      ⟨conn,-,passes,rfl⟩ | ⟨gone,-,rfl⟩
    · exact absurd (unchanged trusted node val ▸ member) new
    · exact absurd member new
    · exact absurd member new
    · rcases mem_insert.mp member with rfl | earlier
      · refine ⟨passes.card_lt untrusted,fun inbound => ?_⟩
        rw [← sound.inboundCount_eq]
        exact passes.inbound_lt untrusted inbound
      · exact absurd earlier new
    · exact absurd (mem_of_mem_erase member) new
  card_le := by
    have split := card_keys_eq_entryCount_add state.peers Peer.admittedTrusted
    have bounded := sound.untrusted_le
    rw [trustedPeers]
    omega

/-- The limits hold in every run of the loop. -/
theorem always_withinLimits (server : Server Id Name) (conns : Nat → Conn Id Name)
    (trustedNodes : List Id) (events : List (Event Id)) :
    Always (State.step server) (WithinLimits server) (start conns trustedNodes) events :=
  always_of_kept (fun _ _ _ sound stepped => State.Sound.step sound stepped)
    (fun _ sound => sound.withinLimits) (sound_start server conns trustedNodes)

def pairServer : Server Nat Nat := ⟨0, 2, by decide, 0, false, []⟩

def inboundConns (place : Nat) : Conn Nat Nat := ⟨place + 1, {.inboundConn}, []⟩

def inboundEvents : List (Event Nat) :=
  [.checkpointPostHandshake 0, .checkpointPostHandshake 1, .checkpointAddPeer 0,
    .checkpointAddPeer 1]

/-- Of two inbound connections one is admitted, as there is a slot for a dialed peer. -/
theorem withinLimits_pairServer : ∃ state,
    runAll (State.step pairServer) (start inboundConns []) inboundEvents = some state ∧
    state.answers = [(0, none), (1, none), (0, none), (1, some .tooManyPeers)] ∧
    WithinLimits pairServer state := by
  obtain ⟨state,ran,answers⟩ := map_eq_some_iff.mp (rfl :
    (runAll (State.step pairServer) (start inboundConns []) inboundEvents).map State.answers =
      some _)
  exact ⟨state,ran,answers.trans rfl,always_withinLimits _ _ _ _ _ List.prefix_rfl _ ran⟩

end PioplatRelay.Admission
