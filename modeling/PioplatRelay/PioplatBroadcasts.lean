import PioplatRelay.PoolCalls

/-!
# Broadcasting transactions to the pioplat peers

`AddRemotes` first offers the hash of every transaction to the loops of the
connected pioplat peers, and only then puts the transactions into the pool.  A
loop looks each hash up in the pool and skips what it does not find.  As long as
every lookup of a hash finds the transaction, the hash is pending or has been
written, and a loop that is left alone writes it.
-/

namespace PioplatRelay

open List Option

def maxQueuedTxs : Nat := 4096

def maxTxPacketSize : Nat := 100 * 1024

inductive TxTransfer (Tx : Type*)
  | sending (txs : List Tx)
  | closed
  /-- The writer has put an error into the channel `fail`. -/
  | failing
  /-- The loop has taken the error; nobody closes `done` any more. -/
  | abandoned

inductive BroadcastStage (Tx : Type*)
  | top
  | piling (i : Nat) (txs : List Tx) (size : Nat)
  | selecting
  | exited

/-- A peer as far as its transaction broadcasts go, with the hashes that its
loop has received, those it has written, and whether its queue has been cut. -/
structure TxBroadcaster (Tx : Type*) where
  queue : List Hash := []
  done : Option (TxTransfer Tx) := none
  failed : Bool := false
  stage : BroadcastStage Tx := .top
  term : Bool := false
  knownTxs : Finset Hash := ∅
  received : List Hash := []
  sent : List Hash := []
  overflowed : Bool := false

namespace TxBroadcaster

variable {Tx : Type*}

def receive (hashes : List Hash) (peer : TxBroadcaster Tx) : Option (TxBroadcaster Tx) :=
  match peer.stage with
  | .selecting =>
    let received := peer.received ++ hashes
    if peer.failed then some { peer with stage := .top, received }
    else
      let queue := peer.queue ++ hashes
      some { peer with
        stage := .top
        -- The oldest hashes go where there are more than the limit.
        queue := queue.drop (queue.length - maxQueuedTxs)
        received
        overflowed := peer.overflowed || decide (maxQueuedTxs < queue.length) }
  | _ => none

variable (hash : Tx → Hash) (size : Tx → Nat) (get : Hash → Option Tx)

variable (peer : TxBroadcaster Tx)

def advance : Option (TxBroadcaster Tx) :=
  match peer.stage with
  | .top =>
    if peer.done.isNone ∧ peer.queue ≠ [] then some { peer with stage := .piling 0 [] 0 }
    else some { peer with stage := .selecting }
  | .piling i txs total =>
    if more : i < peer.queue.length ∧ total < maxTxPacketSize then
      match get (peer.queue.get ⟨i,more.1⟩) with
      | some tx => some { peer with stage := .piling (i + 1) (txs ++ [tx]) (total + size tx) }
      | none => some { peer with stage := .piling (i + 1) txs total }
    else
      some { peer with
        stage := .selecting
        queue := peer.queue.drop i
        done := if txs.isEmpty then peer.done else some (.sending txs) }
  | .selecting =>
    match peer.done with
    | some .closed => some { peer with done := none, stage := .top }
    | some .failing => some { peer with done := some .abandoned, failed := true, stage := .top }
    | _ => none
  | .exited => none

def write (succeeds : Bool) (peer : TxBroadcaster Tx) : Option (TxBroadcaster Tx) :=
  match peer.done with
  | some (.sending txs) =>
    let knownTxs := peer.knownTxs ∪ (txs.map hash).toFinset
    if succeeds then
      some { peer with done := some .closed, knownTxs, sent := peer.sent ++ txs.map hash }
    else some { peer with done := some .failing, knownTxs }
  | _ => none

def exit : Option (TxBroadcaster Tx) :=
  match peer.stage with
  | .selecting => if peer.term then some { peer with stage := .exited } else none
  | _ => none

/-- The hashes that the loop has received and will still look up, or has looked
up and not written. -/
def pending : List Hash :=
  (match peer.done with
    | some (.sending txs) => txs.map hash
    | _ => []) ++
  match peer.stage with
  | .piling i txs _ => txs.map hash ++ peer.queue.drop i
  | _ => peer.queue

/-- The peer is connected, no write has failed and the queue has not overflowed. -/
structure Intact : Prop where
  connected : peer.term = false
  unfailed : peer.failed = false
  uncut : peer.overflowed = false
  writing : peer.done ≠ some .failing ∧ peer.done ≠ some .abandoned

def AtRest : Prop := peer.stage = .selecting ∧ peer.done.isNone

/-- What holds of a loop all the time. -/
structure Loops : Prop where
  exited : peer.stage = .exited → peer.term = true
  idle : ∀ i txs total, peer.stage = .piling i txs total → peer.done = none
  piled : ∀ i txs total, peer.stage = .piling i txs total →
    (txs = [] → total = 0) ∧ (i = 0 → peer.queue ≠ [] ∧ txs = [])
  emptied : peer.stage = .selecting → peer.done = none → peer.queue = []

/-- Nothing that the loop has received of a hash is lost or written twice. -/
def Accounts (key : Hash) (peer : TxBroadcaster Tx) : Prop :=
  peer.Intact → peer.received.count key = (peer.pending hash).count key + peer.sent.count key

inductive Advances : TxBroadcaster Tx → TxBroadcaster Tx → Prop
  | start (peer : TxBroadcaster Tx) (top : peer.stage = .top) (free : peer.done = none)
      (queued : peer.queue ≠ []) : Advances peer { peer with stage := .piling 0 [] 0 }
  | wait (peer : TxBroadcaster Tx) (top : peer.stage = .top)
      (nothing : peer.done = none → peer.queue = []) :
      Advances peer { peer with stage := .selecting }
  | hit (peer : TxBroadcaster Tx) (i : Nat) (txs : List Tx) (total : Nat)
      (piling : peer.stage = .piling i txs total) (next : Hash) (later : List Hash)
      (rest : peer.queue.drop i = next :: later) (room : total < maxTxPacketSize) (tx : Tx)
      (found : get next = some tx) :
      Advances peer { peer with stage := .piling (i + 1) (txs ++ [tx]) (total + size tx) }
  | miss (peer : TxBroadcaster Tx) (i : Nat) (txs : List Tx) (total : Nat)
      (piling : peer.stage = .piling i txs total) (next : Hash) (later : List Hash)
      (rest : peer.queue.drop i = next :: later) (room : total < maxTxPacketSize)
      (missing : get next = none) :
      Advances peer { peer with stage := .piling (i + 1) txs total }
  | fire (peer : TxBroadcaster Tx) (i : Nat) (txs : List Tx) (total : Nat)
      (piling : peer.stage = .piling i txs total)
      (full : peer.queue.drop i = [] ∨ maxTxPacketSize ≤ total) :
      Advances peer { peer with
        stage := .selecting
        queue := peer.queue.drop i
        done := if txs.isEmpty then peer.done else some (.sending txs) }
  | finish (peer : TxBroadcaster Tx) (selecting : peer.stage = .selecting)
      (closed : peer.done = some .closed) :
      Advances peer { peer with done := none, stage := .top }
  | fail (peer : TxBroadcaster Tx) (selecting : peer.stage = .selecting)
      (failing : peer.done = some .failing) :
      Advances peer { peer with done := some .abandoned, failed := true, stage := .top }

variable {hash size get} {peer next : TxBroadcaster Tx} {key : Hash}

theorem advances_of_advance (advanced : peer.advance size get = some next) :
    Advances size get peer next := by
  rw [advance] at advanced
  cases stageEq : peer.stage with
  | top =>
    simp only [stageEq] at advanced
    split at advanced
    · rename_i both
      cases advanced
      exact .start peer stageEq (isNone_iff_eq_none.mp both.1) both.2
    · rename_i nothing
      cases advanced
      refine .wait peer stageEq fun free => ?_
      by_contra queued
      exact nothing ⟨by simp [free],queued⟩
  | piling i txs total =>
    simp only [stageEq] at advanced
    split at advanced
    · rename_i more
      have rest := drop_eq_getElem_cons more.1
      split at advanced
      · rename_i tx found
        cases advanced
        exact .hit peer i txs total stageEq _ _ rest more.2 tx found
      · rename_i missing
        cases advanced
        exact .miss peer i txs total stageEq _ _ rest more.2 missing
    · rename_i full
      cases advanced
      refine .fire peer i txs total stageEq ?_
      rw [drop_eq_nil_iff]
      omega
  | selecting =>
    simp only [stageEq] at advanced
    split at advanced
    · rename_i closed
      cases advanced
      exact .finish peer stageEq closed
    · rename_i failing
      cases advanced
      exact .fail peer stageEq failing
    · cases advanced
  | exited =>
    simp only [stageEq] at advanced
    cases advanced

/-! ## What the steps of a loop keep -/

theorem loops_of_top (top : peer.stage = .top) : peer.Loops := by
  constructor <;> simp [top]

theorem Loops.used_of_nil (loops : peer.Loops) {i total : Nat}
    (piling : peer.stage = .piling i [] total)
    (full : peer.queue.drop i = [] ∨ maxTxPacketSize ≤ total) : peer.queue.drop i = [] := by
  rcases full with used | heavy
  · exact used
  · rw [(loops.piled i [] total piling).1 rfl] at heavy
    cases heavy

theorem Advances.loops (advances : Advances size get peer next) (loops : peer.Loops) :
    next.Loops := by
  cases advances with
  | start top free queued =>
    constructor
    · rintro ⟨⟩
    · rintro _ _ _ ⟨⟩
      exact free
    · rintro _ _ _ ⟨⟩
      exact ⟨fun _ => rfl,fun _ => ⟨queued,rfl⟩⟩
    · rintro ⟨⟩
  | wait top nothing =>
    constructor
    · rintro ⟨⟩
    · rintro _ _ _ ⟨⟩
    · rintro _ _ _ ⟨⟩
    · exact fun _ => nothing
  | hit i txs total piling key later rest room tx found =>
    constructor
    · rintro ⟨⟩
    · rintro _ _ _ ⟨⟩
      exact loops.idle i txs total piling
    · rintro _ _ _ ⟨⟩
      simp
    · rintro ⟨⟩
  | miss i txs total piling key later rest room missing =>
    constructor
    · rintro ⟨⟩
    · rintro _ _ _ ⟨⟩
      exact loops.idle i txs total piling
    · rintro _ _ _ ⟨⟩
      exact ⟨(loops.piled i txs total piling).1,by simp⟩
    · rintro ⟨⟩
  | fire i txs total piling full =>
    constructor
    · rintro ⟨⟩
    · rintro _ _ _ ⟨⟩
    · rintro _ _ _ ⟨⟩
    · rintro - unstarted
      cases txs with
      | nil => exact loops.used_of_nil piling full
      | cons tx txs => cases unstarted
  | finish selecting closed => exact loops_of_top rfl
  | fail selecting failing => exact loops_of_top rfl

def Finds (get : Hash → Option Tx) (key : Hash) (peer : TxBroadcaster Tx) : Prop :=
  ∀ i txs total, peer.stage = .piling i txs total → total < maxTxPacketSize →
    peer.queue[i]? = some key → (get key).isSome

/-- What the loop looks up next, and what it leaves in the queue for later. -/
theorem looked_up_of_drop {queue later : List Hash} {i : Nat} {looked : Hash}
    (rest : queue.drop i = looked :: later) :
    i < queue.length ∧ queue[i]? = some looked ∧ queue.drop (i + 1) = later := by
  have front : queue[i]? = some looked := by rw [← head?_drop,rest,head?_cons]
  refine ⟨(List.getElem?_eq_some_iff.mp front).1,front,?_⟩
  rw [← tail_drop,rest,tail_cons]

theorem Advances.accounts (advances : Advances size get peer next)
    (keyed : ∀ key tx, get key = some tx → hash tx = key) (loops : peer.Loops)
    (finds : peer.Finds get key) (accounts : peer.Accounts hash key) : next.Accounts hash key := by
  cases advances with
  | start top free queued =>
    intro intact
    have counted := accounts ⟨intact.1,intact.2,intact.3,intact.4⟩
    simpa [pending,top] using counted
  | wait top nothing =>
    intro intact
    have counted := accounts ⟨intact.1,intact.2,intact.3,intact.4⟩
    simpa [pending,top] using counted
  | hit i txs total piling looked later rest room tx found =>
    intro intact
    have counted := accounts ⟨intact.1,intact.2,intact.3,intact.4⟩
    rcases looked_up_of_drop rest with ⟨-,-,laterEq⟩
    rw [pending,piling] at counted
    simpa [pending,rest,laterEq,keyed looked tx found] using counted
  | miss i txs total piling looked later rest room missing =>
    intro intact
    have counted := accounts ⟨intact.1,intact.2,intact.3,intact.4⟩
    rcases looked_up_of_drop rest with ⟨-,front,laterEq⟩
    have other : looked ≠ key := by
      rintro rfl
      have found := finds i txs total piling room front
      rw [missing] at found
      cases found
    rw [pending,piling] at counted
    simpa [pending,rest,laterEq,count_cons_of_ne other] using counted
  | fire i txs total piling full =>
    intro intact
    have free := loops.idle i txs total piling
    have counted := accounts ⟨intact.1,intact.2,intact.3,by simp [free]⟩
    rw [pending,piling,free] at counted
    cases txs with
    | nil => simpa [pending,free] using counted
    | cons tx txs => simpa [pending] using counted
  | finish selecting closed =>
    intro intact
    have counted := accounts ⟨intact.1,intact.2,intact.3,by simp [closed]⟩
    simpa [pending,selecting,closed] using counted
  | fail selecting failing =>
    intro intact
    cases intact.unfailed

variable (hash) in
/-- What other goroutines do to a peer: an offered hash is received and marked
as known, the writer writes, the peer is closed and the loop leaves, or other
handlers change the set of known transactions. -/
inductive Tends : TxBroadcaster Tx → TxBroadcaster Tx → Prop
  | receive (peer taken : TxBroadcaster Tx) (hashes : List Hash) (knownTxs : Finset Hash)
      (received : peer.receive hashes = some taken) : Tends peer { taken with knownTxs }
  | write (peer next : TxBroadcaster Tx) (succeeds : Bool)
      (written : peer.write hash succeeds = some next) : Tends peer next
  | exit (peer next : TxBroadcaster Tx) (left : peer.exit = some next) : Tends peer next
  | close (peer : TxBroadcaster Tx) : Tends peer { peer with term := true }
  | mark (peer : TxBroadcaster Tx) (knownTxs : Finset Hash) : Tends peer { peer with knownTxs }

theorem selecting_of_receive {hashes : List Hash} (received : peer.receive hashes = some next) :
    peer.stage = .selecting ∧ next.stage = .top := by
  rw [receive] at received
  split at received
  · rename_i selecting
    refine ⟨selecting,?_⟩
    split at received
    · rw [← some_inj.mp received]
    · rw [← some_inj.mp received]
  · cases received

theorem receive_accounts {hashes : List Hash} (received : peer.receive hashes = some next)
    (accounts : peer.Accounts hash key) : next.Accounts hash key := by
  intro intact
  have selecting := (selecting_of_receive received).1
  simp only [receive,selecting] at received
  split at received
  · rename_i failed
    cases received
    rw [intact.unfailed] at failed
    cases failed
  · obtain rfl := some_inj.mp received
    have uncut := intact.uncut
    simp only [Bool.or_eq_false_iff,decide_eq_false_iff_not,not_lt] at uncut
    have counted := accounts ⟨intact.connected,intact.unfailed,uncut.1,intact.writing⟩
    have fits : (peer.queue ++ hashes).length - maxQueuedTxs = 0 :=
      Nat.sub_eq_zero_of_le uncut.2
    simp only [pending,selecting,count_append] at counted
    simp only [pending,fits,drop_zero,count_append]
    omega

theorem write_spec {succeeds : Bool} (written : peer.write hash succeeds = some next) :
    ∃ txs, peer.done = some (.sending txs) ∧ next = { peer with
      done := some (if succeeds then .closed else .failing)
      knownTxs := peer.knownTxs ∪ (txs.map hash).toFinset
      sent := peer.sent ++ if succeeds then txs.map hash else [] } := by
  rw [write] at written
  split at written
  · rename_i txs sending
    cases succeeds <;> cases written
    · exact ⟨txs,sending,by simp⟩
    · exact ⟨txs,sending,rfl⟩
  · cases written

theorem write_loops {succeeds : Bool} (written : peer.write hash succeeds = some next)
    (loops : peer.Loops) : next.Loops := by
  obtain ⟨txs,sending,rfl⟩ := write_spec written
  refine ⟨loops.exited,fun i txs total piling => ?_,loops.piled,fun _ unstarted => ?_⟩
  · cases sending.symm.trans (loops.idle i txs total piling)
  · cases unstarted

theorem write_accounts {succeeds : Bool} (written : peer.write hash succeeds = some next)
    (accounts : peer.Accounts hash key) : next.Accounts hash key := by
  intro intact
  obtain ⟨txs,sending,rfl⟩ := write_spec written
  cases succeeds with
  | true =>
    have counted := accounts ⟨intact.1,intact.2,intact.3,by simp [sending]⟩
    simp only [pending,sending,count_append] at counted
    simp only [pending,nil_append,count_append,if_true]
    omega
  | false => exact absurd rfl intact.writing.1

theorem exit_spec (left : peer.exit = some next) :
    peer.term = true ∧ next = { peer with stage := .exited } := by
  rw [exit] at left
  split at left
  · split at left
    · rename_i closed
      cases left
      exact ⟨closed,rfl⟩
    · cases left
  · cases left

theorem Tends.loops (tends : Tends hash peer next) (loops : peer.Loops) : next.Loops := by
  cases tends with
  | receive taken hashes knownTxs received => exact loops_of_top (selecting_of_receive received).2
  | write _ succeeds written => exact write_loops written loops
  | exit _ left =>
    rcases exit_spec left with ⟨closed,rfl⟩
    constructor
    · exact fun _ => closed
    · rintro _ _ _ ⟨⟩
    · rintro _ _ _ ⟨⟩
    · rintro ⟨⟩
  | close => exact { loops with exited := fun _ => rfl }
  | mark knownTxs => exact { loops with }

theorem Tends.accounts (tends : Tends hash peer next) (accounts : peer.Accounts hash key) :
    next.Accounts hash key := by
  cases tends with
  | receive taken hashes knownTxs received =>
    have counted := receive_accounts received accounts
    intro intact
    exact counted ⟨intact.1,intact.2,intact.3,intact.4⟩
  | write _ succeeds written => exact write_accounts written accounts
  | exit _ left =>
    rcases exit_spec left with ⟨closed,rfl⟩
    intro intact
    cases closed.symm.trans intact.connected
  | close =>
    intro intact
    cases intact.connected
  | mark knownTxs =>
    intro intact
    exact accounts ⟨intact.1,intact.2,intact.3,intact.4⟩

/-! ## A loop that is left alone comes to rest -/

/-- How far a loop is from rest: the hashes to look up, the writer and the loop's
own position. -/
def weight (peer : TxBroadcaster Tx) : Nat :=
  (match peer.done with
    | some (.sending _) => 3
    | some _ => 2
    | none => 0) +
  match peer.stage with
  | .top => 5 * peer.queue.length + 1
  | .piling i _ _ => 5 * (peer.queue.length - i) + if i = 0 then 0 else 4
  | _ => 5 * peer.queue.length

theorem Advances.weight_lt (advances : Advances size get peer next) (loops : peer.Loops)
    (intact : peer.Intact) : next.weight < peer.weight := by
  cases advances with
  | start top free queued => simp [weight,top]
  | wait top nothing => simp [weight,top]
  | hit i txs total piling looked later rest room tx found =>
    have inside := (looked_up_of_drop rest).1
    simp only [weight,piling,Nat.succ_ne_zero,if_false]
    omega
  | miss i txs total piling looked later rest room missing =>
    have inside := (looked_up_of_drop rest).1
    simp only [weight,piling,Nat.succ_ne_zero,if_false]
    omega
  | fire i txs total piling full =>
    have free := loops.idle i txs total piling
    have moved : i ≠ 0 := by
      rintro rfl
      rcases (loops.piled 0 txs total piling).2 rfl with ⟨queued,rfl⟩
      exact queued (loops.used_of_nil piling full)
    cases txs with
    | nil => simp [weight,piling,free,moved]
    | cons tx txs =>
      simp only [weight,piling,free,moved,isEmpty_cons,Bool.false_eq_true,if_false,length_drop]
      omega
  | finish selecting closed =>
    simp only [weight,selecting,closed]
    omega
  | fail selecting failing => exact absurd failing intact.writing.1

theorem Advances.intact (advances : Advances size get peer next) (intact : peer.Intact) :
    next.Intact ∧ next.received = peer.received := by
  cases advances with
  | fire i txs total piling full =>
    refine ⟨⟨intact.1,intact.2,intact.3,?_⟩,rfl⟩
    cases txs with
    | nil => exact intact.writing
    | cons tx txs => simp
  | finish selecting closed => exact ⟨⟨intact.1,intact.2,intact.3,by simp⟩,rfl⟩
  | fail selecting failing => exact absurd failing intact.writing.1
  | _ => exact ⟨⟨intact.1,intact.2,intact.3,intact.4⟩,rfl⟩

theorem write_true (written : peer.write hash true = some next) (intact : peer.Intact) :
    next.Intact ∧ next.received = peer.received ∧ next.weight < peer.weight := by
  obtain ⟨txs,sending,rfl⟩ := write_spec written
  exact ⟨⟨intact.1,intact.2,intact.3,by simp⟩,rfl,by simp [weight,sending]⟩

/-- A loop that is not at rest, or else its writer, can take a step. -/
theorem can_advance (loops : peer.Loops) (intact : peer.Intact) (busy : ¬ peer.AtRest) :
    (∃ next, peer.advance size get = some next) ∨ ∃ next, peer.write hash true = some next := by
  cases stageEq : peer.stage with
  | top =>
    left
    simp only [advance,stageEq]
    split <;> simp
  | piling i txs total =>
    left
    simp only [advance,stageEq]
    split
    · split <;> simp
    · simp
  | selecting =>
    cases doneEq : peer.done with
    | none => exact absurd ⟨stageEq,by simp [doneEq]⟩ busy
    | some transfer =>
      cases transfer with
      | sending txs =>
        right
        simp [write,doneEq]
      | closed =>
        left
        simp [advance,stageEq,doneEq]
      | failing => exact absurd doneEq intact.writing.1
      | abandoned => exact absurd doneEq intact.writing.2
  | exited => cases (loops.exited stageEq).symm.trans intact.connected

end TxBroadcaster

end PioplatRelay
