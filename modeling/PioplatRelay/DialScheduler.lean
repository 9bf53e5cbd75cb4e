import PioplatRelay.PeerAdmission
import PioplatRelay.SwapPools

/-!
# The dial scheduler

The scheduler keeps a task for every static node and starts dials to them, and to the
candidates of discovery, while there are free slots.  A node must not be dialed while
a dial to it is running, while it is connected, or shortly after its last dial; the
static tasks that may be dialed wait in a pool, and each event of the loop has to move
the tasks it concerns in or out of it.
-/

namespace PioplatRelay.Dialing

open Finmap Function Option Nat List BinaryHeap

open Admission (ConnFlag)

variable {Id Addr : Type} [DecidableEq Id]

/-- What the scheduler reads of a node record. -/
structure Node (Id Addr : Type) where
  id : Id
  ip : Option Addr
  tcp : Nat

structure DialTask (Id Addr : Type) where
  flags : ConnFlag
  dest : Node Id Addr

structure ExpItem (Id : Type) where
  item : Id
  exp : Int

def defaultMaxPendingPeers : Int := 50

structure DialConfig (Id Addr : Type) where
  self : Id
  maxDialPeers : Int
  maxPendingPeers : Int
  /-- The list of permitted networks, if there is one. -/
  netRestrict : Option (Option Addr → Bool)

def DialConfig.maxActiveDials (config : DialConfig Id Addr) : Int :=
  if config.maxPendingPeers = 0 then defaultMaxPendingPeers else config.maxPendingPeers

inductive DialError where
  | self
  | noPort
  | alreadyDialing
  | alreadyConnected
  | netRestrict
  | recentlyDialed
  deriving DecidableEq

/-- A started dial, with what the scheduler knew when it started. -/
structure DialStart (Id : Type) where
  id : Id
  peers : Finset Id
  dialing : Finset Id

/-- The variables of the loop, and around them: the tasks in memory, the goroutines of
the dials, the connections the server has announced, and the dials started so far. -/
structure Scheduler (Id Addr : Type) where
  dialing : Finmap fun _ : Id => Nat
  peers : Finset Id
  dialPeers : Int
  static : Finmap fun _ : Id => Nat
  staticPool : SwapPool Nat
  history : List (ExpItem Id)
  nodesOpen : Bool
  tasks : Nat → DialTask Id Addr
  allocated : Nat
  running : Finset Nat
  connected : Finmap fun _ : Id => Finset ConnFlag
  starts : List (DialStart Id)

def dialHistoryExpiration : Int := 35 * 10 ^ 9

def dialed (flags : Finset ConnFlag) : Bool :=
  decide (ConnFlag.dynDialedConn ∈ flags) || decide (ConnFlag.staticDialedConn ∈ flags)

namespace Scheduler

section

variable (config : DialConfig Id Addr) (s : Scheduler Id Addr)

def recentlyDialed (id : Id) : Bool :=
  s.history.any fun entry => decide (entry.item = id)

def checkDial (node : Node Id Addr) : Option DialError :=
  if node.id = config.self then some .self
  else if node.ip.isSome ∧ node.tcp = 0 then some .noPort
  else if (s.dialing.lookup node.id).isSome then some .alreadyDialing
  else if node.id ∈ s.peers then some .alreadyConnected
  else if config.netRestrict.any fun contains => !contains node.ip then some .netRestrict
  else if s.recentlyDialed node.id then some .recentlyDialed
  else none

def freeDialSlots : Int :=
  min ((config.maxDialPeers - s.dialPeers) * 2) config.maxActiveDials - s.dialing.keys.card

/-- The new task is `s.allocated`. -/
def newDialTask (dest : Node Id Addr) (flags : ConnFlag) : Scheduler Id Addr :=
  { s with
    tasks := Function.update s.tasks s.allocated ⟨flags,dest⟩
    staticPool := s.staticPool.register s.allocated
    allocated := s.allocated + 1 }

def startDial (task : Nat) (now : Int) : Scheduler Id Addr :=
  let id := (s.tasks task).dest.id
  { s with
    history := push ExpItem.exp s.history ⟨id,now + dialHistoryExpiration⟩
    dialing := s.dialing.insert id task
    running := insert task s.running
    starts := s.starts ++ [⟨id,s.peers,s.dialing.keys⟩] }

/-- The panic is `none`, here and below. -/
def addToStaticPool (task : Nat) : Option (Scheduler Id Addr) :=
  (s.staticPool.add task).map fun pool => { s with staticPool := pool }

def removeFromStaticPool (idx : Nat) : Option (Scheduler Id Addr) :=
  (s.staticPool.remove idx).map fun pool => { s with staticPool := pool }

def dropFromStaticPool (task : Nat) : Option (Scheduler Id Addr) :=
  (s.staticPool.discard task).map fun pool => { s with staticPool := pool }

def updateStaticPool (id : Id) : Option (Scheduler Id Addr) :=
  match s.static.lookup id with
  | none => some s
  | some task =>
    if s.staticPool.index task < 0 ∧ s.checkDial config (s.tasks task).dest = none then
      s.addToStaticPool task
    else some s

/-- The loop of `startStaticDials`, which has started `started` dials.  The values drawn
are the random numbers and the readings of the clock. -/
def startStaticDials (draws : Nat → Nat × Int) :
    Nat → Nat → Scheduler Id Addr → Option (Nat × Scheduler Id Addr)
  | 0, started, s => some (started, s)
  | n + 1, started, s =>
    if s.staticPool.slots.length = 0 then some (started, s)
    else
      let idx := (draws started).1 % s.staticPool.slots.length
      match s.staticPool.slots[idx]? with
      | none => none
      | some task =>
        ((s.startDial task (draws started).2).removeFromStaticPool idx).bind
          (startStaticDials draws n (started + 1))

/-- The loop of `expire`, which pops at most as many items as the history has. -/
def expire (now : Int) : Nat → Scheduler Id Addr → Option (Scheduler Id Addr)
  | 0, s => some s
  | n + 1, s =>
    match s.history.head?, pop ExpItem.exp s.history with
    | some next, some (entry, rest) =>
      if next.exp < now then
        ({ s with history := rest }.updateStaticPool config entry.item).bind
          (expire now n)
      else some s
    | _, _ => some s

def newStaticTask (node : Node Id Addr) : Scheduler Id Addr :=
  { s.newDialTask node .staticDialedConn with
    static := s.static.insert node.id s.allocated }

inductive Event (Id Addr : Type) where
  | candidate (node : Node Id Addr) (now : Int)
  | done (task : Nat)
  | addPeer (node : Id) (flags : Finset ConnFlag)
  | remPeer (node : Id)
  | addStatic (node : Node Id Addr)
  | remStatic (node : Node Id Addr)
  | historyExp (now : Int)

/-- Candidates are read while `nodesCh` is set; a goroutine reports its task once; the
server announces that a node is gone after it has announced the node, and not twice. -/
def Enabled : Event Id Addr → Prop
  | .candidate _ _ => s.nodesOpen = true
  | .done task => task ∈ s.running
  | .addPeer node _ => s.connected.lookup node = none
  | .remPeer node => (s.connected.lookup node).isSome
  | .addStatic _ | .remStatic _ | .historyExp _ => True

instance : DecidablePred s.Enabled
  | .candidate _ _ => inferInstanceAs (Decidable (s.nodesOpen = true))
  | .done task => inferInstanceAs (Decidable (task ∈ s.running))
  | .addPeer node _ => inferInstanceAs (Decidable (s.connected.lookup node = none))
  | .remPeer node => inferInstanceAs (Decidable ((s.connected.lookup node).isSome = true))
  | .addStatic _ => inferInstanceAs (Decidable True)
  | .remStatic _ => inferInstanceAs (Decidable True)
  | .historyExp _ => inferInstanceAs (Decidable True)

def receive : Event Id Addr → Option (Scheduler Id Addr)
  | .candidate node now =>
    if (s.checkDial config node).isSome then some s
    else some ((s.newDialTask node .dynDialedConn).startDial s.allocated now)
  | .done task =>
    let id := (s.tasks task).dest.id
    { s with
      dialing := s.dialing.erase id
      running := s.running.erase task }.updateStaticPool config id
  | .addPeer node flags =>
    let added := { s with
      dialPeers := if dialed flags then s.dialPeers + 1 else s.dialPeers
      peers := insert node s.peers
      connected := s.connected.insert node flags }
    match s.static.lookup node with
    | none => some added
    | some task => added.dropFromStaticPool task
  | .remPeer node =>
    let flags := (s.connected.lookup node).getD ∅
    { s with
      dialPeers := if dialed flags then s.dialPeers - 1 else s.dialPeers
      peers := s.peers.erase node
      connected := s.connected.erase node }.updateStaticPool config node
  | .addStatic node =>
    if (s.static.lookup node.id).isSome then some s
    else if (s.newStaticTask node).checkDial config node = none then
      (s.newStaticTask node).addToStaticPool s.allocated
    else some (s.newStaticTask node)
  | .remStatic node =>
    match s.static.lookup node.id with
    | none => some s
    | some task => { s with static := s.static.erase node.id }.dropFromStaticPool task
  | .historyExp now => s.expire config now s.history.length

end

/-- The loop from its head to the select. -/
def launch (config : DialConfig Id Addr) (draws : Nat → Nat × Int) (s : Scheduler Id Addr) :
    Option (Scheduler Id Addr) :=
  (startStaticDials draws (s.freeDialSlots config).toNat 0 s).map fun result =>
    { result.2 with nodesOpen := decide (0 < s.freeDialSlots config - result.1) }

/-- A round of the loop, or a running task that finds a newer record of its node. -/
inductive Action (Id Addr : Type) where
  | round (event : Event Id Addr) (draws : Nat → Nat × Int)
  | resolve (task : Nat) (dest : Node Id Addr)

def step (config : DialConfig Id Addr) (action : Action Id Addr) :
    Option (Scheduler Id Addr) → Option (Option (Scheduler Id Addr))
  | none => none
  | some s =>
    match action with
    | .round event draws =>
      if s.Enabled event then some ((s.receive config event).bind (launch config draws))
      else none
    | .resolve task dest =>
      if task ∈ s.running ∧ dest.id = (s.tasks task).dest.id then
        some (some { s with
          tasks := Function.update s.tasks task { s.tasks task with dest := dest } })
      else none

def newDialScheduler (tasks : Nat → DialTask Id Addr) : Scheduler Id Addr where
  dialing := ∅
  peers := ∅
  dialPeers := 0
  static := ∅
  staticPool := .empty
  history := []
  nodesOpen := false
  tasks := tasks
  allocated := 0
  running := ∅
  connected := ∅
  starts := []

/-! ## The pool -/

def dest (s : Scheduler Id Addr) (task : Nat) : Node Id Addr := (s.tasks task).dest

/-- What `checkDial` asks of the node alone. -/
def Dialable (config : DialConfig Id Addr) (node : Node Id Addr) : Prop :=
  node.id ≠ config.self ∧ ¬(node.ip.isSome ∧ node.tcp = 0) ∧
    ¬(config.netRestrict.any fun contains => !contains node.ip)

def Blocked (s : Scheduler Id Addr) (id : Id) : Prop :=
  (s.dialing.lookup id).isSome ∨ id ∈ s.peers ∨ s.recentlyDialed id

theorem checkDial_eq_none_iff {config : DialConfig Id Addr} {s : Scheduler Id Addr}
    {node : Node Id Addr} :
    s.checkDial config node = none ↔ Dialable config node ∧ ¬s.Blocked node.id := by
  rw [checkDial,Dialable,Blocked]
  split_ifs <;> simp_all

/-- The pool holds the static tasks that may be dialed, where some nodes are blocked. -/
structure Pooled (config : DialConfig Id Addr) (static : Finmap fun _ : Id => Nat)
    (dest : Nat → Node Id Addr) (blocked : Id → Prop) (pool : SwapPool Nat) : Prop where
  indexed : pool.Indexed
  mem_iff : ∀ task, task ∈ pool.slots ↔
    ∃ id, static.lookup id = some task ∧ Dialable config (dest task) ∧ ¬blocked id

namespace Pooled

variable {config : DialConfig Id Addr} {static : Finmap fun _ : Id => Nat}
  {dest : Nat → Node Id Addr} {blocked after : Id → Prop} {pool next : SwapPool Nat} {id : Id}

section

variable (pooled : Pooled config static dest blocked pool)

include pooled

theorem congr {other : Nat → Node Id Addr}
    (same : ∀ id task, static.lookup id = some task → ¬blocked id → other task = dest task) :
    Pooled config static other blocked pool where
  indexed := pooled.indexed
  mem_iff task := by
    rw [pooled.mem_iff]
    refine exists_congr fun id => and_congr_right fun found => and_congr_left fun free => ?_
    rw [same id task found free]

theorem of_empty (empty : pool.slots = [])
    (more : ∀ id, blocked id → after id) : Pooled config static dest after pool where
  indexed := pooled.indexed
  mem_iff task := by
    refine iff_of_false (by simp [empty]) ?_
    rintro ⟨id,found,dialable,free⟩
    have member := (pooled.mem_iff task).mpr ⟨id,found,dialable,fun was => free (more id was)⟩
    rw [empty] at member
    cases member

/-- A node is no longer blocked, or still is, and its task enters the pool if it may. -/
theorem unblock
    (others : ∀ other, other ≠ id → (after other ↔ blocked other)) (isBlocked : blocked id)
    (indexed : next.Indexed) (mem_next : ∀ task, task ∈ next.slots ↔ task ∈ pool.slots ∨
      static.lookup id = some task ∧ Dialable config (dest task) ∧ ¬after id) :
    Pooled config static dest after next where
  indexed := indexed
  mem_iff task := by
    rw [mem_next,pooled.mem_iff]
    constructor
    · rintro (⟨other,found,dialable,free⟩ | ⟨found,dialable,free⟩)
      · have differ : other ≠ id := fun same => free (same ▸ isBlocked)
        exact ⟨other,found,dialable,mt (others other differ).mp free⟩
      · exact ⟨id,found,dialable,free⟩
    · rintro ⟨other,found,dialable,free⟩
      by_cases same : other = id
      · subst same
        exact .inr ⟨found,dialable,free⟩
      · exact .inl ⟨other,found,dialable,mt (others other same).mpr free⟩

/-- A static task for a node that has none, in the pool if it may be dialed. -/
theorem insert {task : Nat} (absent : static.lookup id = none) (indexed : next.Indexed)
    (mem_next : ∀ other, other ∈ next.slots ↔ other ∈ pool.slots ∨
      other = task ∧ Dialable config (dest task) ∧ ¬blocked id) :
    Pooled config (static.insert id task) dest blocked next where
  indexed := indexed
  mem_iff other := by
    rw [mem_next,pooled.mem_iff]
    constructor
    · rintro (⟨otherId,found,dialable,free⟩ | ⟨rfl,dialable,free⟩)
      · have differ : otherId ≠ id := by
          rintro rfl
          rw [absent] at found
          cases found
        exact ⟨otherId,by rwa [lookup_insert_of_ne _ differ],dialable,free⟩
      · exact ⟨id,lookup_insert _,dialable,free⟩
    · rintro ⟨otherId,found,dialable,free⟩
      rw [lookup_insert_ite] at found
      split at found
      · case isTrue same =>
          subst same
          cases found
          exact .inr ⟨rfl,dialable,free⟩
      · exact .inl ⟨otherId,found,dialable,free⟩

end

variable (keys : ∀ id task, static.lookup id = some task → (dest task).id = id)
include keys

section

variable (pooled : Pooled config static dest blocked pool)

include pooled

theorem erase {task : Nat} (present : static.lookup id = some task) (indexed : next.Indexed)
    (mem_next : ∀ other, other ∈ next.slots ↔ other ∈ pool.slots ∧ other ≠ task) :
    Pooled config (static.erase id) dest blocked next where
  indexed := indexed
  mem_iff other := by
    rw [mem_next,pooled.mem_iff]
    constructor
    · rintro ⟨⟨otherId,found,dialable,free⟩,differ⟩
      refine ⟨otherId,?_,dialable,free⟩
      rw [lookup_erase_ne,found]
      rintro rfl
      rw [present] at found
      exact differ (some.inj found).symm
    · rintro ⟨otherId,found,dialable,free⟩
      rw [lookup_erase_ite] at found
      split at found
      · cases found
      · case isFalse differ =>
          refine ⟨⟨otherId,found,dialable,free⟩,fun same => differ ?_⟩
          rw [← keys otherId other found,same,keys id task present]

theorem block (blocks : ∀ other, after other ↔ blocked other ∨ other = id) (indexed : next.Indexed)
    (mem_next : ∀ task, task ∈ next.slots ↔ task ∈ pool.slots ∧ static.lookup id ≠ some task) :
    Pooled config static dest after next where
  indexed := indexed
  mem_iff task := by
    rw [mem_next,pooled.mem_iff]
    constructor
    · rintro ⟨⟨other,found,dialable,free⟩,differ⟩
      refine ⟨other,found,dialable,fun now => ?_⟩
      rcases (blocks other).mp now with was | rfl
      · exact free was
      · exact differ found
    · rintro ⟨other,found,dialable,free⟩
      rw [blocks,not_or] at free
      refine ⟨⟨other,found,dialable,free.1⟩,fun same => free.2 ?_⟩
      rw [← keys other task found,keys id task same]

theorem notMem_of_blocked {task : Nat}
    (found : static.lookup id = some task) (isBlocked : blocked id) : task ∉ pool.slots := by
  intro member
  obtain ⟨other,otherFound,-,free⟩ := (pooled.mem_iff task).mp member
  rw [← keys other task otherFound,keys id task found] at free
  exact free isBlocked

end

end Pooled

section UpdateStaticPool

variable {config : DialConfig Id Addr} {s : Scheduler Id Addr} {id : Id} {blocked : Id → Prop}
  (keys : ∀ id task, s.static.lookup id = some task → (s.dest task).id = id)
include keys

theorem exists_updateStaticPool (pooled : Pooled config s.static s.dest blocked s.staticPool)
    (others : ∀ other, other ≠ id → (s.Blocked other ↔ blocked other)) (isBlocked : blocked id) :
    ∃ pool, s.updateStaticPool config id = some { s with staticPool := pool } ∧
      Pooled config s.static s.dest s.Blocked pool := by
  cases found : s.static.lookup id with
  | none =>
    refine ⟨s.staticPool,by rw [updateStaticPool,found],?_⟩
    exact pooled.unblock others isBlocked pooled.indexed fun task => by simp [found]
  | some task =>
    have outside := pooled.notMem_of_blocked keys found isBlocked
    have noPlace : s.staticPool.index task < 0 :=
      Int.not_le.mp (mt pooled.indexed.mem_iff.mpr outside)
    have destEq : (s.tasks task).dest.id = id := keys id task found
    by_cases passes : s.checkDial config (s.tasks task).dest = none
    · obtain ⟨pool,addEq,indexed,mem_pool⟩ := pooled.indexed.add outside
      refine ⟨pool,?_,pooled.unblock others isBlocked indexed fun other => ?_⟩
      · rw [updateStaticPool,found]
        simp [if_pos (And.intro noPlace passes),addToStaticPool,addEq]
      · rw [checkDial_eq_none_iff,destEq] at passes
        rw [mem_pool,found,some.injEq]
        refine or_congr_right ⟨?_,fun same => same.1.symm⟩
        rintro rfl
        exact ⟨rfl,passes⟩
    · refine ⟨s.staticPool,?_,pooled.unblock others isBlocked pooled.indexed fun other => ?_⟩
      · rw [updateStaticPool,found]
        simp only [if_neg fun both : _ ∧ _ => passes both.2]
      · rw [checkDial_eq_none_iff,destEq] at passes
        rw [found,some.injEq]
        refine ⟨.inl,?_⟩
        rintro (member | ⟨rfl,free⟩)
        · exact member
        · exact absurd free passes

end UpdateStaticPool

/-! ## The other variables -/

/-- What the loop keeps up beside the pool. -/
structure Tracked (config : DialConfig Id Addr) (s : Scheduler Id Addr) : Prop where
  static_dest : ∀ id task, s.static.lookup id = some task → (s.dest task).id = id
  static_lt : ∀ id task, s.static.lookup id = some task → task < s.allocated
  running_lt : ∀ task ∈ s.running, task < s.allocated
  dialing_iff : ∀ id task, s.dialing.lookup id = some task ↔
    task ∈ s.running ∧ (s.dest task).id = id
  dialing_le : s.dialing.keys.card ≤ config.maxActiveDials.toNat
  peers_eq : s.peers = s.connected.keys
  dialPeers_eq : s.dialPeers = entryCount s.connected dialed
  started : ∀ start ∈ s.starts, start.id ∉ start.peers ∧ start.id ∉ start.dialing

structure Sound (config : DialConfig Id Addr) (s : Scheduler Id Addr) : Prop where
  tracked : Tracked config s
  pooled : Pooled config s.static s.dest s.Blocked s.staticPool

section Keeping

variable {config : DialConfig Id Addr} {s : Scheduler Id Addr}

theorem Tracked.withPool (tracked : Tracked config s) (pool : SwapPool Nat) :
    Tracked config { s with staticPool := pool } :=
  { tracked with }

/-- An update of the pool after a change to a node that was blocked before. -/
theorem Tracked.exists_sound (tracked : Tracked config s) (id : Id) {blocked : Id → Prop}
    (pooled : Pooled config s.static s.dest blocked s.staticPool)
    (others : ∀ other, other ≠ id → (s.Blocked other ↔ blocked other)) (isBlocked : blocked id) :
    ∃ after, s.updateStaticPool config id = some after ∧ Sound config after := by
  obtain ⟨pool,updateEq,poolPooled⟩ :=
    exists_updateStaticPool tracked.static_dest pooled others isBlocked
  exact ⟨_,updateEq,tracked.withPool pool,poolPooled⟩

theorem recentlyDialed_iff {id : Id} :
    s.recentlyDialed id = true ↔ ∃ entry ∈ s.history, entry.item = id := by
  simp [recentlyDialed]

theorem blocked_startDial (task : Nat) (now : Int) (id : Id) :
    (s.startDial task now).Blocked id ↔ s.Blocked id ∨ id = (s.dest task).id := by
  have recent : (s.startDial task now).recentlyDialed id = true ↔
      s.recentlyDialed id = true ∨ id = (s.dest task).id := by
    rw [recentlyDialed_iff,recentlyDialed_iff]
    simp only [startDial,(push_perm _ _).mem_iff,mem_cons,exists_eq_or_imp]
    rw [or_comm,eq_comm (a := id)]
    rfl
  rw [Blocked,Blocked,recent]
  simp only [startDial]
  by_cases same : id = (s.dest task).id
  · simp [same]
  · have differ : id ≠ (s.tasks task).dest.id := same
    simp [same,differ]

theorem Tracked.startDial (tracked : Tracked config s) {task : Nat} (allocated : task < s.allocated)
    (free : ¬s.Blocked (s.dest task).id) (room : s.dialing.keys.card < config.maxActiveDials.toNat)
    (now : Int) : Tracked config (s.startDial task now) := { tracked with
  running_lt other member := by
    rcases Finset.mem_insert.mp member with rfl | earlier
    · exact allocated
    · exact tracked.running_lt other earlier
  dialing_iff id other := by
    change (s.dialing.insert (s.dest task).id task).lookup id = some other ↔
      other ∈ insert task s.running ∧ (s.dest other).id = id
    rw [lookup_insert_ite,Finset.mem_insert]
    rw [Blocked,not_or] at free
    split
    · case isTrue same =>
        subst same
        rw [some.injEq]
        constructor
        · rintro rfl
          exact ⟨.inl rfl,rfl⟩
        · rintro ⟨rfl | member,sameId⟩
          · rfl
          · have dialing := (tracked.dialing_iff _ _).mpr ⟨member,sameId⟩
            exact absurd (by rw [dialing]; rfl) free.1
    · case isFalse differ =>
        rw [tracked.dialing_iff]
        refine and_congr_left fun sameId => ⟨.inr,?_⟩
        rintro (rfl | member)
        · exact absurd sameId.symm differ
        · exact member
  dialing_le := by
    change (s.dialing.insert (s.dest task).id task).keys.card ≤ config.maxActiveDials.toNat
    rw [Blocked,not_or,not_isSome_iff_eq_none] at free
    rw [card_keys_insert free.1]
    exact room
  started start member := by
    rcases mem_append.mp member with earlier | isNew
    · exact tracked.started start earlier
    · rw [mem_singleton.mp isNew]
      rw [Blocked,not_or,not_or,lookup_isSome] at free
      exact ⟨free.2.1,mt Finmap.mem_keys.mp free.1⟩ }

section

variable (sound : Sound config s)

include sound

theorem Sound.newDialTask (node : Node Id Addr) (flags : ConnFlag) :
    Sound config (s.newDialTask node flags) := by
  have destEq (task : Nat) (earlier : task < s.allocated) :
      (s.newDialTask node flags).dest task = s.dest task := by
    simp [dest,Scheduler.newDialTask,update_apply,if_neg earlier.ne]
  have outside : s.allocated ∉ s.staticPool.slots := by
    intro member
    obtain ⟨id,found,-⟩ := (sound.pooled.mem_iff _).mp member
    exact (sound.tracked.static_lt id _ found).ne rfl
  have pooled : Pooled config s.static (s.newDialTask node flags).dest s.Blocked s.staticPool :=
    sound.pooled.congr fun id task found _ => destEq task (sound.tracked.static_lt id task found)
  refine ⟨{ sound.tracked with
    static_dest := fun id task found => ?_
    static_lt := fun id task found => ?_
    running_lt := fun task member => ?_
    dialing_iff := fun id task => ?_ },sound.pooled.indexed.register outside,pooled.mem_iff⟩
  · rw [destEq task (sound.tracked.static_lt id task found)]
    exact sound.tracked.static_dest id task found
  · exact lt_succ_of_lt (sound.tracked.static_lt id task found)
  · exact lt_succ_of_lt (sound.tracked.running_lt task member)
  · change s.dialing.lookup id = some task ↔ task ∈ s.running ∧ _
    rw [sound.tracked.dialing_iff]
    refine and_congr_right fun member => ?_
    rw [destEq task (sound.tracked.running_lt task member)]

/-! ## The events -/

/-- A candidate is dialed only when the pool is empty. -/
theorem Sound.candidate (empty : s.staticPool.slots = [])
    (room : s.dialing.keys.card < config.maxActiveDials.toNat) {node : Node Id Addr}
    (passes : s.checkDial config node = none) (now : Int) :
    Sound config ((s.newDialTask node .dynDialedConn).startDial s.allocated now) := by
  have newSound := sound.newDialTask node .dynDialedConn
  have destEq : (s.newDialTask node .dynDialedConn).dest s.allocated = node := by
    simp [dest,Scheduler.newDialTask]
  have free : ¬(s.newDialTask node .dynDialedConn).Blocked
      ((s.newDialTask node .dynDialedConn).dest s.allocated).id := by
    rw [destEq]
    exact (checkDial_eq_none_iff.mp passes).2
  refine ⟨newSound.tracked.startDial (lt_succ_self _) free room now,?_⟩
  exact newSound.pooled.of_empty empty fun id was => (blocked_startDial _ now id).mpr (.inl was)

theorem Sound.done {task : Nat} (member : task ∈ s.running) :
    ∃ after, s.receive config (.done task) = some after ∧ Sound config after := by
  have dialing : s.dialing.lookup (s.dest task).id = some task :=
    (sound.tracked.dialing_iff _ _).mpr ⟨member,rfl⟩
  have tracked : Tracked config { s with
      dialing := s.dialing.erase (s.dest task).id, running := s.running.erase task } := by
    refine { sound.tracked with
      running_lt := fun other mem =>
        sound.tracked.running_lt other (Finset.mem_of_mem_erase mem)
      dialing_iff := fun id other => ?_
      dialing_le := ?_ }
    · simp only [lookup_erase_ite,Finset.mem_erase]
      split
      · case isTrue same =>
          subst same
          refine iff_of_false (by simp) ?_
          rintro ⟨⟨differ,mem⟩,sameId⟩
          have found := (sound.tracked.dialing_iff _ _).mpr ⟨mem,sameId⟩
          rw [dialing] at found
          exact differ (some.inj found).symm
      · case isFalse differ =>
          rw [sound.tracked.dialing_iff]
          refine and_congr_left fun sameId => ⟨fun mem => ⟨?_,mem⟩,And.right⟩
          rintro rfl
          exact differ sameId.symm
    · have bounded := sound.tracked.dialing_le
      rw [card_keys_erase dialing] at bounded
      exact le_of_succ_le bounded
  refine tracked.exists_sound (s.dest task).id sound.pooled (fun other differ => ?_) ?_
  · simp [Blocked,recentlyDialed,lookup_erase_ite,if_neg differ]
  · exact .inl (by rw [dialing]; rfl)

theorem Sound.addPeer {node : Id}
    (absent : s.connected.lookup node = none) (flags : Finset ConnFlag) :
    ∃ after, s.receive config (.addPeer node flags) = some after ∧ Sound config after := by
  have tracked : Tracked config { s with
      dialPeers := if dialed flags then s.dialPeers + 1 else s.dialPeers
      peers := insert node s.peers
      connected := s.connected.insert node flags } := by
    refine { sound.tracked with peers_eq := ?_, dialPeers_eq := ?_ }
    · ext id
      simp [sound.tracked.peers_eq,Finmap.mem_keys]
    · simp only [entryCount_insert absent,sound.tracked.dialPeers_eq]
      split <;> simp
  have blocks (other : Id) : Blocked { s with
      dialPeers := if dialed flags then s.dialPeers + 1 else s.dialPeers
      peers := insert node s.peers
      connected := s.connected.insert node flags } other ↔ s.Blocked other ∨ other = node := by
    simp only [Blocked,Finset.mem_insert]
    tauto
  rw [receive]
  cases found : s.static.lookup node with
  | none =>
    refine ⟨_,rfl,tracked,sound.pooled.block sound.tracked.static_dest blocks
      sound.pooled.indexed fun task => ?_⟩
    simp [found]
  | some task =>
    obtain ⟨pool,discardEq,indexed,mem_pool⟩ := sound.pooled.indexed.discard task
    refine ⟨_,by simp only [dropFromStaticPool,discardEq,map_some],
      tracked.withPool pool,sound.pooled.block sound.tracked.static_dest blocks
      indexed fun other => ?_⟩
    rw [mem_pool,found,Ne,Ne,some.injEq,eq_comm]

theorem Sound.remPeer {node : Id} (present : (s.connected.lookup node).isSome) :
    ∃ after, s.receive config (.remPeer node) = some after ∧ Sound config after := by
  obtain ⟨flags,found⟩ := isSome_iff_exists.mp present
  have tracked : Tracked config { s with
      dialPeers := if dialed ((s.connected.lookup node).getD ∅) then s.dialPeers - 1
        else s.dialPeers
      peers := s.peers.erase node
      connected := s.connected.erase node } := by
    refine { sound.tracked with peers_eq := ?_, dialPeers_eq := ?_ }
    · ext id
      simp [sound.tracked.peers_eq]
    · simp only [found,getD_some,sound.tracked.dialPeers_eq,entryCount_erase found]
      split <;> simp
  refine tracked.exists_sound node sound.pooled (fun other differ => ?_) ?_
  · simp [Blocked,recentlyDialed,differ]
  · refine .inr (.inl ?_)
    rw [sound.tracked.peers_eq,Finmap.mem_keys,← lookup_isSome,found]
    rfl

theorem Sound.addStatic (node : Node Id Addr) :
    ∃ after, s.receive config (.addStatic node) = some after ∧ Sound config after := by
  rw [receive]
  split
  · exact ⟨s,rfl,sound⟩
  · case isFalse absent =>
      rw [not_isSome_iff_eq_none] at absent
      have newSound := sound.newDialTask node .staticDialedConn
      have destEq : (s.newDialTask node .staticDialedConn).dest s.allocated = node := by
        simp [dest,Scheduler.newDialTask]
      have outside : s.allocated ∉ (s.newDialTask node .staticDialedConn).staticPool.slots := by
        intro member
        obtain ⟨id,found,-⟩ := (newSound.pooled.mem_iff _).mp member
        exact (sound.tracked.static_lt id _ found).ne rfl
      have tracked : Tracked config (s.newStaticTask node) := by
        exact { newSound.tracked with
          static_dest := forall_lookup_insert (congrArg Node.id destEq) newSound.tracked.static_dest
          static_lt := forall_lookup_insert (lt_succ_self _) newSound.tracked.static_lt }
      split
      · case isTrue passes =>
          rw [checkDial_eq_none_iff,← destEq] at passes
          obtain ⟨pool,addEq,indexed,mem_pool⟩ := newSound.pooled.indexed.add outside
          have addEq : (s.newStaticTask node).staticPool.add s.allocated = some pool := addEq
          refine ⟨_,by simp only [addToStaticPool,addEq,map_some],
            tracked.withPool pool,newSound.pooled.insert absent indexed fun other => ?_⟩
          rw [mem_pool]
          refine or_congr_right ⟨fun same => ⟨same,passes.1,?_⟩,And.left⟩
          rw [destEq] at passes
          exact passes.2
      · case isFalse fails =>
          rw [checkDial_eq_none_iff,← destEq] at fails
          refine ⟨_,rfl,tracked,newSound.pooled.insert absent newSound.pooled.indexed
            fun other => ⟨.inl,?_⟩⟩
          rintro (member | ⟨rfl,dialable,free⟩)
          · exact member
          · exact absurd ⟨dialable,by rwa [destEq]⟩ fails

theorem Sound.remStatic (node : Node Id Addr) :
    ∃ after, s.receive config (.remStatic node) = some after ∧ Sound config after := by
  rw [receive]
  cases found : s.static.lookup node.id with
  | none => exact ⟨s,rfl,sound⟩
  | some task =>
    have tracked : Tracked config { s with static := s.static.erase node.id } := by
      refine { sound.tracked with
        static_dest := fun id other stays => ?_
        static_lt := fun id other stays => ?_ }
      all_goals
        rw [lookup_erase_ite] at stays
        split at stays
        · cases stays
      · exact sound.tracked.static_dest id other stays
      · exact sound.tracked.static_lt id other stays
    obtain ⟨pool,discardEq,indexed,mem_pool⟩ := sound.pooled.indexed.discard task
    exact ⟨_,by simp only [dropFromStaticPool,discardEq,map_some],tracked.withPool pool,
      sound.pooled.erase sound.tracked.static_dest found indexed mem_pool⟩

theorem Sound.expire (now : Int) (rounds : Nat) :
    ∃ after, s.expire config now rounds = some after ∧ Sound config after := by
  induction rounds generalizing s with
  | zero => exact ⟨s,rfl,sound⟩
  | succ rounds ih =>
    rw [Scheduler.expire]
    split
    · case h_1 next entry rest headEq popEq =>
        split
        · have mem_history (other : ExpItem Id) :
              other ∈ s.history ↔ other = entry ∨ other ∈ rest := by
            rw [← (pop_perm popEq).mem_iff,mem_cons]
          have tracked : Tracked config { s with history := rest } :=
            { sound.tracked with }
          obtain ⟨between,updateEq,betweenSound⟩ :=
            tracked.exists_sound entry.item sound.pooled (fun other differ => by
              simp only [Blocked,recentlyDialed_iff,mem_history,or_and_right,exists_or,
                exists_eq_left,differ.symm,false_or])
              (.inr (.inr (recentlyDialed_iff.mpr
                ⟨entry,(mem_history entry).mpr (.inl rfl),rfl⟩)))
          rw [updateEq]
          exact ih betweenSound
        · exact ⟨s,rfl,sound⟩
    · exact ⟨s,rfl,sound⟩

theorem Sound.receive (waiting : s.nodesOpen = true →
      s.staticPool.slots = [] ∧ s.dialing.keys.card < config.maxActiveDials.toNat)
    {event : Event Id Addr} (enabled : s.Enabled event) :
    ∃ after, s.receive config event = some after ∧ Sound config after := by
  cases event with
  | candidate node now =>
    obtain ⟨empty,room⟩ := waiting enabled
    rw [Scheduler.receive]
    split
    · exact ⟨s,rfl,sound⟩
    · case isFalse passes =>
        rw [not_isSome_iff_eq_none] at passes
        exact ⟨_,rfl,sound.candidate empty room passes now⟩
  | done task => exact sound.done enabled
  | addPeer node flags => exact sound.addPeer enabled flags
  | remPeer node => exact sound.remPeer enabled
  | addStatic node => exact sound.addStatic node
  | remStatic node => exact sound.remStatic node
  | historyExp now => exact sound.expire now _

theorem Sound.startStatic {idx task : Nat} (found : s.staticPool.slots[idx]? = some task)
    (room : s.dialing.keys.card < config.maxActiveDials.toNat) (now : Int) :
    ∃ after, (s.startDial task now).removeFromStaticPool idx = some after ∧
      Sound config after ∧ after.dialing.keys.card = s.dialing.keys.card + 1 := by
  obtain ⟨id,isStatic,-,free⟩ :=
    (sound.pooled.mem_iff task).mp (mem_of_getElem? found)
  obtain rfl := sound.tracked.static_dest id task isStatic
  have notDialing : s.dialing.lookup (s.dest task).id = none :=
    not_isSome_iff_eq_none.mp fun isSome => free (.inl isSome)
  have tracked := sound.tracked.startDial (sound.tracked.static_lt _ task isStatic) free room now
  obtain ⟨pool,removeEq,indexed,mem_pool⟩ := sound.pooled.indexed.remove found
  have removeEq : (s.startDial task now).staticPool.remove idx = some pool := removeEq
  have mem_next (other : Nat) : other ∈ pool.slots ↔
      other ∈ s.staticPool.slots ∧ s.static.lookup (s.dest task).id ≠ some other := by
    rw [mem_pool,isStatic,Ne,Ne,some.injEq,eq_comm]
  exact ⟨_,by simp only [removeFromStaticPool,removeEq,map_some],
    ⟨tracked.withPool pool,sound.pooled.block sound.tracked.static_dest
      (blocked_startDial task now) indexed mem_next⟩,card_keys_insert notDialing⟩

theorem Sound.startStaticDials (draws : Nat → Nat × Int)
    {n : Nat} (room : s.dialing.keys.card + n ≤ config.maxActiveDials.toNat) (started : Nat) :
    ∃ count after, Scheduler.startStaticDials draws n started s = some (started + count, after) ∧
      Sound config after ∧ after.dialing.keys.card = s.dialing.keys.card + count ∧
      (count < n → after.staticPool.slots = []) := by
  induction n generalizing s started with
  | zero => exact ⟨0,s,rfl,sound,rfl,fun less => absurd less (not_lt_zero 0)⟩
  | succ n ih =>
    rw [Scheduler.startStaticDials]
    by_cases empty : s.staticPool.slots.length = 0
    · rw [if_pos empty]
      exact ⟨0,s,rfl,sound,rfl,fun _ => eq_nil_of_length_eq_zero empty⟩
    · rw [if_neg empty]
      have within := mod_lt (draws started).1 (pos_of_ne_zero empty)
      have found := getElem?_eq_getElem within
      obtain ⟨between,startEq,betweenSound,betweenCard⟩ :=
        sound.startStatic found (by omega) (draws started).2
      obtain ⟨count,after,restEq,afterSound,afterCard,isEmpty⟩ :=
        ih betweenSound (by omega) (started + 1)
      refine ⟨count + 1,after,?_,afterSound,by omega,fun less => isEmpty (by omega)⟩
      simp only [found,startEq,bind_some,restEq]
      congr 2
      omega

end

omit [DecidableEq Id] in
theorem freeDialSlots_le (config : DialConfig Id Addr) (s : Scheduler Id Addr) :
    s.freeDialSlots config + s.dialing.keys.card ≤ config.maxActiveDials := by
  rw [freeDialSlots]
  omega

/-- At the select the pool is empty if candidates are read, and there is a free slot. -/
theorem Sound.launch (sound : Sound config s) (draws : Nat → Nat × Int) :
    ∃ after, s.launch config draws = some after ∧ Sound config after ∧ (after.nodesOpen = true →
        after.staticPool.slots = [] ∧ after.dialing.keys.card < config.maxActiveDials.toNat) := by
  have slots := freeDialSlots_le config s
  have bounded := sound.tracked.dialing_le
  obtain ⟨count,after,startEq,afterSound,afterCard,isEmpty⟩ :=
    sound.startStaticDials draws (n := (s.freeDialSlots config).toNat) (by omega) 0
  refine ⟨{ after with nodesOpen := decide (0 < s.freeDialSlots config - (0 + count : Nat)) },
    by rw [Scheduler.launch,startEq,map_some],
    ⟨{ afterSound.tracked with },afterSound.pooled⟩,
    fun isOpen => ?_⟩
  have free := of_decide_eq_true isOpen
  refine ⟨isEmpty (by omega),?_⟩
  change after.dialing.keys.card < config.maxActiveDials.toNat
  omega

/-- A running task is blocked by itself, whatever record it finds. -/
theorem Sound.resolve (sound : Sound config s) {task : Nat} (member : task ∈ s.running)
    {node : Node Id Addr} (sameId : node.id = (s.dest task).id) :
    Sound config { s with
      tasks := Function.update s.tasks task { s.tasks task with dest := node } } := by
  have destId (other : Nat) : (dest { s with
      tasks := Function.update s.tasks task { s.tasks task with dest := node } } other).id =
      (s.dest other).id := by
    simp only [dest,update_apply]
    split
    · case isTrue same => rw [same,sameId,dest]
    · rfl
  refine ⟨{ sound.tracked with
    static_dest := fun id other found => ?_
    dialing_iff := fun id other => ?_ },sound.pooled.congr ?_⟩
  · rw [destId]
    exact sound.tracked.static_dest id other found
  · rw [destId]
    exact sound.tracked.dialing_iff id other
  · intro id other found free
    have differ : other ≠ task := by
      rintro rfl
      refine free (.inl ?_)
      rw [(sound.tracked.dialing_iff id other).mpr
        ⟨member,sound.tracked.static_dest id other found⟩]
      rfl
    simp [dest,update_apply,if_neg differ]

/-! ## Runs -/

structure Waiting (config : DialConfig Id Addr) (s : Scheduler Id Addr) : Prop where
  sound : Sound config s
  open_iff : s.nodesOpen = true →
    s.staticPool.slots = [] ∧ s.dialing.keys.card < config.maxActiveDials.toNat

theorem Waiting.step {action : Action Id Addr} {phase : Option (Scheduler Id Addr)}
    (waiting : ∃ s, phase = some s ∧ Waiting config s) {next : Option (Scheduler Id Addr)}
    (stepped : Scheduler.step config action phase = some next) :
    ∃ s, next = some s ∧ Waiting config s := by
  obtain ⟨s,rfl,waiting⟩ := waiting
  cases action with
  | round event draws =>
    rw [Scheduler.step,ite_none_right_eq_some] at stepped
    obtain ⟨enabled,nextEq⟩ := stepped
    obtain ⟨between,receiveEq,betweenSound⟩ :=
      waiting.sound.receive waiting.open_iff enabled
    obtain ⟨after,launchEq,afterSound,openAfter⟩ := betweenSound.launch draws
    refine ⟨after,?_,afterSound,openAfter⟩
    rw [← some.inj nextEq,receiveEq,bind_some,launchEq]
  | resolve task node =>
    rw [Scheduler.step,ite_none_right_eq_some] at stepped
    obtain ⟨⟨member,sameId⟩,nextEq⟩ := stepped
    exact ⟨_,(some.inj nextEq).symm,waiting.sound.resolve member sameId,waiting.open_iff⟩

theorem sound_newDialScheduler (config : DialConfig Id Addr) (tasks : Nat → DialTask Id Addr) :
    Sound config (newDialScheduler tasks) := by
  refine ⟨⟨?_,?_,?_,?_,?_,rfl,rfl,?_⟩,SwapPool.indexed_empty,?_⟩
  all_goals simp [newDialScheduler,SwapPool.empty]

structure InOrder (config : DialConfig Id Addr) (s : Scheduler Id Addr) : Prop where
  pool_iff : ∀ task, task ∈ s.staticPool.slots ↔
    ∃ id, s.static.lookup id = some task ∧ s.checkDial config (s.tasks task).dest = none
  nodup : s.staticPool.slots.Nodup
  index_iff : ∀ task (place : Nat),
    s.staticPool.index task = place ↔ s.staticPool.slots[place]? = some task
  dialing_iff : ∀ id task, s.dialing.lookup id = some task ↔
    task ∈ s.running ∧ (s.tasks task).dest.id = id
  active : ∀ first ∈ s.running, ∀ second ∈ s.running,
    (s.tasks first).dest.id = (s.tasks second).dest.id → first = second
  /-- No dial was started to a node that was connected or being dialed. -/
  started : ∀ start ∈ s.starts, start.id ∉ start.peers ∧ start.id ∉ start.dialing
  peers_eq : s.peers = s.connected.keys
  dialing_le : s.dialing.keys.card ≤ config.maxActiveDials.toNat
  dialPeers_eq : s.dialPeers = entryCount s.connected dialed

theorem Sound.inOrder (sound : Sound config s) : InOrder config s where
  pool_iff task := by
    rw [sound.pooled.mem_iff]
    refine exists_congr fun id => and_congr_right fun found => ?_
    rw [checkDial_eq_none_iff,← sound.tracked.static_dest id task found]
    rfl
  nodup := sound.pooled.indexed.nodup
  index_iff := sound.pooled.indexed.index_eq_iff
  dialing_iff := sound.tracked.dialing_iff
  active first firstMem second secondMem same := by
    have firstFound := (sound.tracked.dialing_iff _ _).mpr ⟨firstMem,same⟩
    have secondFound := (sound.tracked.dialing_iff _ _).mpr ⟨secondMem,rfl⟩
    exact some.inj (firstFound.symm.trans secondFound)
  started := sound.tracked.started
  peers_eq := sound.tracked.peers_eq
  dialing_le := sound.tracked.dialing_le
  dialPeers_eq := sound.tracked.dialPeers_eq

/-- In every run the scheduler reaches each select in order, and so never panics. -/
theorem always_inOrder (config : DialConfig Id Addr) (tasks : Nat → DialTask Id Addr)
    (draws : Nat → Nat × Int) (actions : List (Action Id Addr)) :
    Always (Scheduler.step config) (fun phase => ∃ s, phase = some s ∧ InOrder config s)
      ((newDialScheduler tasks).launch config draws) actions := by
  refine always_of_kept (fun _ _ _ waiting stepped => Waiting.step waiting stepped) ?_ ?_
  · rintro _ ⟨s,rfl,waiting⟩
    exact ⟨s,rfl,waiting.sound.inOrder⟩
  · obtain ⟨after,launchEq,afterSound,openAfter⟩ :=
      (sound_newDialScheduler config tasks).launch draws
    exact ⟨after,launchEq,afterSound,openAfter⟩

end Keeping

end Scheduler

end PioplatRelay.Dialing
