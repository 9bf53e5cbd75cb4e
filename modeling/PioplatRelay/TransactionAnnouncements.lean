import PioplatRelay.StepRuns
import PioplatRelay.TxPool

/-!
# Announcements of added transactions

`AddRemotes` posts the transactions that it added on a channel, and one loop takes them
from there and announces them.  The loop that would send them is commented out.  It also
sleeps for each event, so that the calls come to wait for it once the channel is full.
-/

namespace PioplatRelay

open List

variable {Peer Tx : Type}

/-! ## Which peers are reached -/

section Broadcast

variable [DecidableEq Peer] (knownTxs : Peer → Finset Hash) (hash : Tx → Hash)

def peersWithoutTransaction (order : List Peer) (txHash : Hash) : List Peer :=
  order.filter fun peer => txHash ∉ knownTxs peer

/-- `int(math.Cbrt(float64(len(peers))))`. -/
def numDirect (count : Nat) : Nat := Nat.findGreatest (fun root => root ^ 3 ≤ count) count

def isSampled (txHash : Hash) : Bool := txHash.bytes.getD 31 0 < 4

def appendHash (txHash : Hash) (peers : List Peer) (sets : Peer → List Hash) :
    Peer → List Hash :=
  peers.foldl (fun sets peer => Function.update sets peer (sets peer ++ [txHash])) sets

/-- The first loop of `BroadcastTransactions` with its maps `txset` and `annos`; each
transaction comes with the order in which the map of the peers is walked for it. -/
def collectHashes :
    List (Tx × List Peer) → (Peer → List Hash) × (Peer → List Hash) →
      (Peer → List Hash) × (Peer → List Hash)
  | [], sets => sets
  | (tx, order) :: later, (txset, annos) =>
    if isSampled (hash tx) then
      let peers := peersWithoutTransaction knownTxs order (hash tx)
      collectHashes later (appendHash (hash tx) (peers.take (numDirect peers.length)) txset,
        appendHash (hash tx) (peers.drop (numDirect peers.length)) annos)
    else collectHashes later (txset, annos)

/-- The hashes that `BroadcastTransactions` hands to each peer.  Only `annos` is used. -/
def broadcastTransactions (batch : List (Tx × List Peer)) : Peer → List Hash :=
  (collectHashes knownTxs hash batch (fun _ => [], fun _ => [])).2

/-- Every connected peer that lacks a sampled transaction gets its hash, and nobody gets
a hash twice. -/
def ReachesAll (connected : Finset Peer) (txs : List Tx) (received : Peer → List Hash) : Prop :=
  (∀ tx ∈ txs, isSampled (hash tx) = true → ∀ peer ∈ connected, hash tx ∉ knownTxs peer →
    hash tx ∈ received peer) ∧ ∀ peer, (received peer).Nodup

theorem mem_appendHash {txHash key : Hash} {peers : List Peer} {sets : Peer → List Hash}
    {peer : Peer} : key ∈ appendHash txHash peers sets peer ↔
      key ∈ sets peer ∨ key = txHash ∧ peer ∈ peers := by
  induction peers generalizing sets with
  | nil => simp [appendHash]
  | cons first peers ih =>
    rw [appendHash,foldl_cons]
    refine ih.trans ?_
    by_cases same : peer = first
    · subst same
      simp
      tauto
    · simp [same]

/-- The announcements of a hash go to the peers after the direct ones. -/
theorem mem_annos {batch : List (Tx × List Peer)} {sets : (Peer → List Hash) × (Peer → List Hash)}
    {key : Hash} {peer : Peer} : key ∈ (collectHashes knownTxs hash batch sets).2 peer ↔
      key ∈ sets.2 peer ∨ ∃ walk ∈ batch, isSampled key = true ∧ key = hash walk.1 ∧
        peer ∈ (peersWithoutTransaction knownTxs walk.2 key).drop
          (numDirect (peersWithoutTransaction knownTxs walk.2 key).length) := by
  induction batch generalizing sets with
  | nil => simp [collectHashes]
  | cons walk later ih =>
    obtain ⟨tx,order⟩ := walk
    unfold collectHashes
    split
    · rename_i sampled
      simp only [ih,mem_appendHash,exists_mem_cons_iff,or_assoc]
      refine or_congr_right (or_congr_left ?_)
      constructor
      · rintro ⟨rfl,member⟩
        exact ⟨sampled,rfl,member⟩
      · rintro ⟨-,rfl,member⟩
        exact ⟨rfl,member⟩
    · rename_i unsampled
      simp only [ih,exists_mem_cons_iff]
      refine or_congr_right (iff_or_self.mpr ?_)
      rintro ⟨sampled,rfl,-⟩
      exact absurd sampled unsampled

theorem numDirect_pos {count : Nat} (positive : 0 < count) : 0 < numDirect count :=
  Nat.findGreatest_pos.mpr ⟨1,one_pos,positive,(one_pow 3).trans_le positive⟩

omit [DecidableEq Peer] in
theorem first_not_announced {peer : Peer} {rest : List Peer} {key : Hash}
    (unknown : key ∉ knownTxs peer) (nodup : (peer :: rest).Nodup) :
    peer ∉ (peersWithoutTransaction knownTxs (peer :: rest) key).drop
      (numDirect (peersWithoutTransaction knownTxs (peer :: rest) key).length) := by
  rw [peersWithoutTransaction,List.filter_cons_of_pos (by simpa using unknown)]
  obtain ⟨fewer,countEq⟩ := Nat.exists_eq_succ_of_ne_zero
    (numDirect_pos (Nat.succ_pos (rest.filter fun peer => key ∉ knownTxs peer).length)).ne'
  rw [length_cons,countEq,drop_succ_cons]
  exact fun member => (nodup_cons.mp nodup).1
    (List.mem_of_mem_filter (mem_of_mem_drop member))

/-- In whatever order the peers are walked, all of them are reached only if none of them
lacks a sampled transaction: the first one that does is left out. -/
theorem reachesAll_iff (connected : Finset Peer) (txs : List Tx) :
    (∀ batch : List (Tx × List Peer), batch.map Prod.fst = txs →
      (∀ walk ∈ batch, walk.2.Nodup ∧ ∀ peer, peer ∈ walk.2 ↔ peer ∈ connected) →
      ReachesAll knownTxs hash connected txs (broadcastTransactions knownTxs hash batch)) ↔
    ∀ tx ∈ txs, isSampled (hash tx) = true → ∀ peer ∈ connected, hash tx ∈ knownTxs peer := by
  constructor
  · intro reaches tx member sampled peer isConnected
    by_contra unknown
    have nodup : (peer :: (connected.erase peer).toList).Nodup := by simp [Finset.nodup_toList]
    let batch := txs.map fun tx => (tx, peer :: (connected.erase peer).toList)
    have received := (reaches batch (by simp [batch,Function.comp_def]) ?_).1
      tx member sampled peer isConnected unknown
    · rcases (mem_annos knownTxs hash).mp received with none | ⟨walk,walked,-,-,announced⟩
      · cases none
      · obtain ⟨other,-,rfl⟩ := List.mem_map.mp walked
        exact first_not_announced knownTxs unknown nodup announced
    · rintro walk walked
      obtain ⟨other,-,rfl⟩ := List.mem_map.mp walked
      refine ⟨nodup,fun other => ?_⟩
      by_cases same : other = peer
      · simp [same,isConnected]
      · simp [same]
  · rintro known batch rfl walks
    have nothing (peer : Peer) : broadcastTransactions knownTxs hash batch peer = [] := by
      apply eq_nil_iff_forall_not_mem.mpr
      intro key received
      rcases (mem_annos knownTxs hash).mp received with none | ⟨walk,walked,sampled,rfl,member⟩
      · cases none
      · obtain ⟨there,unknown⟩ := List.mem_filter.mp (mem_of_mem_drop member)
        have isKnown := known walk.1 (List.mem_map_of_mem walked) sampled peer
          (((walks walk walked).2 peer).mp there)
        simp [isKnown] at unknown
    refine ⟨fun tx member sampled peer isConnected unknown => ?_,fun peer => ?_⟩
    · exact absurd (known tx member sampled peer isConnected) unknown
    · rw [nothing]
      exact nodup_nil

end Broadcast

/-- The only peer gets nothing. -/
theorem lone_peer_not_reached : isSampled Hash.zero = true ∧
      broadcastTransactions (fun _ => ∅) (fun _ : Unit => Hash.zero) [((), [()])] () = [] := by
  decide

/-! ## Calls that wait for the loop -/

def txChanSize : Nat := 4096

/-- The sleep at the start of `BroadcastTransactions`, in milliseconds. -/
def broadcastSleep : AbsTime := 1500

/-- The feed of the pool with its one subscriber. -/
structure TxFeed (Tx : Type) where
  /-- The events of the calls of `Send` that wait for `sendLock`. -/
  waiting : List (List Tx) := []
  sending : Option (List Tx) := none
  txsCh : List (List Tx) := []
  /-- When the loop called `BroadcastTransactions`. -/
  broadcasting : Option AbsTime := none
  now : AbsTime := 0
  called : Nat := 0
  received : Nat := 0

inductive FeedAction (Tx : Type)
  | addRemotes (addedTxs : List Tx)
  | lock
  | post
  | receive
  | finish
  | wait (time : Nat)

namespace TxFeed

def step (action : FeedAction Tx) (s : TxFeed Tx) : Option (TxFeed Tx) :=
  match action with
  | .addRemotes addedTxs =>
    some { s with waiting := s.waiting ++ [addedTxs], called := s.called + 1 }
  | .lock =>
    match s.sending, s.waiting with
    | none, event :: later => some { s with waiting := later, sending := some event }
    | _, _ => none
  | .post =>
    match s.sending with
    | some event =>
      if s.txsCh.length < txChanSize then
        some { s with sending := none, txsCh := s.txsCh ++ [event] }
      else none
    | none => none
  | .receive =>
    match s.broadcasting, s.txsCh with
    | none, _ :: later =>
      some { s with txsCh := later, broadcasting := some s.now, received := s.received + 1 }
    | _, _ => none
  | .finish =>
    match s.broadcasting with
    | some since =>
      if since + broadcastSleep ≤ s.now then some { s with broadcasting := none } else none
    | none => none
  | .wait time => some { s with now := s.now + time }

/-- A call posts its event on a full channel. -/
def Blocked (s : TxFeed Tx) : Prop := s.sending.isSome ∧ txChanSize ≤ s.txsCh.length

/-- The call has to wait for `BroadcastTransactions`. -/
def Throttled (s : TxFeed Tx) : Prop := s.Blocked ∧ s.broadcasting.isSome

def Counted (s : TxFeed Tx) : Prop :=
  s.called = s.waiting.length + s.sending.toList.length + s.txsCh.length + s.received

variable {s next last : TxFeed Tx} {action : FeedAction Tx} {actions : List (FeedAction Tx)}

theorem Counted.step (counted : s.Counted) (stepped : TxFeed.step action s = some next) :
    next.Counted := by
  unfold Counted at *
  cases action with
  | addRemotes addedTxs | wait time =>
    cases stepped
    simp [counted,Nat.add_right_comm]
  | lock | receive =>
    simp only [TxFeed.step] at stepped
    split at stepped <;> cases stepped
    simp_all [Nat.add_assoc,Nat.add_comm,Nat.add_left_comm]
  | post | finish =>
    simp only [TxFeed.step] at stepped
    split at stepped
    · split_ifs at stepped
      cases stepped
      simp_all [Nat.add_comm,Nat.add_left_comm]
    · cases stepped

theorem Throttled.step (throttled : s.Throttled) (stepped : TxFeed.step action s = some next)
    (other : action ≠ .finish) : next.Throttled := by
  obtain ⟨⟨sending,full⟩,broadcasting⟩ := throttled
  obtain ⟨event,sendingEq⟩ := Option.isSome_iff_exists.mp sending
  obtain ⟨since,sinceEq⟩ := Option.isSome_iff_exists.mp broadcasting
  cases action with
  | addRemotes addedTxs | wait time =>
    cases stepped
    exact ⟨⟨sending,full⟩,broadcasting⟩
  | lock => simp [TxFeed.step,sendingEq] at stepped
  | post => simp [TxFeed.step,sendingEq,full.not_gt] at stepped
  | receive => simp [TxFeed.step,sinceEq] at stepped
  | finish => exact absurd rfl other

theorem Throttled.run (throttled : s.Throttled) (waits : .finish ∉ actions)
    (run : runAll TxFeed.step s actions = some last) : last.Throttled := by
  induction actions generalizing s with
  | nil =>
    cases run
    exact throttled
  | cons action later ih =>
    rw [runAll_cons] at run
    obtain ⟨next,stepped,rest⟩ := Option.bind_eq_some_iff.mp run
    rw [List.mem_cons,not_or] at waits
    exact ih (throttled.step stepped (Ne.symm waits.1)) waits.2 rest

def calls : Nat → List (FeedAction Tx)
  | 0 => []
  | count + 1 => .addRemotes [] :: .lock :: .post :: calls count

theorem run_calls (count : Nat) (s : TxFeed Tx) (idle : s.waiting = [] ∧ s.sending = none)
    (room : s.txsCh.length + count ≤ txChanSize) :
    ∃ txsCh, txsCh.length = s.txsCh.length + count ∧
      runAll step s (calls count) = some { s with txsCh, called := s.called + count } := by
  induction count generalizing s with
  | zero => exact ⟨s.txsCh,rfl,rfl⟩
  | succ count ih =>
    obtain ⟨waiting,sending,txsCh,broadcasting,now,called,received⟩ := s
    obtain ⟨rfl,rfl⟩ := idle
    have less : txsCh.length < txChanSize := by dsimp only at room; omega
    obtain ⟨after,lengthEq,run⟩ := ih
      ⟨[],none,txsCh ++ [[]],broadcasting,now,called + 1,received⟩ ⟨rfl,rfl⟩
      (by simp at room ⊢; omega)
    refine ⟨after,by simp at lengthEq ⊢; omega,?_⟩
    simp only [calls,runAll_cons,step,nil_append,Option.bind_some,less,if_true,run]
    simp [Nat.add_comm,Nat.add_left_comm]

/-- So many calls fill the channel, and one more finds it full. -/
theorem exists_blocked (s : TxFeed Tx) (idle : (s.waiting = [] ∧ s.sending = none) ∧ s.txsCh = []) :
    ∃ last, runAll step s (calls txChanSize ++ [.addRemotes [], .lock]) = some last ∧
      last.Blocked ∧ last.broadcasting = s.broadcasting ∧ last.now = s.now ∧
        last.called = s.called + txChanSize + 1 := by
  obtain ⟨txsCh,lengthEq,run⟩ := run_calls txChanSize s idle.1 (by simp [idle.2])
  refine ⟨{ s with txsCh, sending := some [], called := s.called + txChanSize + 1 },?_,
    ⟨rfl,by simp [lengthEq]⟩,rfl,rfl,rfl⟩
  rw [runAll_append,run,Option.bind_some]
  simp [runAll_cons,step,idle.1.1,idle.1.2]

theorem exists_throttled : ∃ actions, ∃ last : TxFeed Tx, runAll step {} actions = some last ∧
    last.Throttled ∧ last.now = 0 ∧ last.called = txChanSize + 2 := by
  let busy : TxFeed Tx := { broadcasting := some 0, called := 1, received := 1 }
  obtain ⟨last,run,blocked,sameLoop,nowEq,calledEq⟩ :=
    exists_blocked busy ⟨⟨rfl,rfl⟩,rfl⟩
  have first : runAll step {} [.addRemotes [],.lock,.post,.receive] = some busy := rfl
  refine ⟨_ ++ _,last,by rw [runAll_append,first,Option.bind_some,run],?_,nowEq,?_⟩
  · exact ⟨blocked,by rw [sameLoop]; rfl⟩
  · exact calledEq.trans (Nat.add_right_comm 1 txChanSize 1 ▸ Nat.add_comm 2 txChanSize)

/-- Calls are sure to find room on the channel exactly if it holds all their events. -/
theorem ingest_unthrottled_iff (Tx : Type) (count : Nat) :
    (∀ actions, ∀ last : TxFeed Tx, runAll step {} actions = some last → last.called ≤ count →
      ¬ last.Blocked) ↔ count ≤ txChanSize := by
  constructor
  · intro free
    obtain ⟨last,run,blocked,-,-,calledEq⟩ := exists_blocked ({} : TxFeed Tx) ⟨⟨rfl,rfl⟩,rfl⟩
    by_contra more
    exact free _ last run (by rw [calledEq]; dsimp only; omega) blocked
  · rintro few actions last run calledLe ⟨sending,full⟩
    have initially : ({} : TxFeed Tx).Counted := rfl
    have counted := always_of_kept (fun _ _ _ => Counted.step) (fun _ counted => counted)
      initially actions prefix_rfl last run
    obtain ⟨event,sendingEq⟩ := Option.isSome_iff_exists.mp sending
    rw [Counted,sendingEq,Option.toList_some,length_singleton] at counted
    omega

/-- After 4098 calls at once the last one waits until `BroadcastTransactions` ends. -/
theorem ingest_throttled : ∃ actions, ∃ last : TxFeed Unit,
    runAll step {} actions = some last ∧ last.now = 0 ∧ last.called = 4098 ∧
      ∀ later after, .finish ∉ later → runAll step last later = some after → after.Throttled := by
  obtain ⟨actions,last,run,throttled,nowEq,calledEq⟩ := @exists_throttled Unit
  exact ⟨actions,last,run,nowEq,calledEq,fun _ _ waits later => throttled.run waits later⟩

end TxFeed

end PioplatRelay
