import PioplatRelay.BlockFetcherRuns
import PioplatRelay.RelayTransport
import Mathlib.Algebra.BigOperators.Group.Finset.Piecewise
import Mathlib.Algebra.Order.BigOperators.Group.Finset

/-!
# Flooding between relays

A relay hands every object it receives to its server once, and the server sends
it to the connections that are registered when it takes the frame.  What another
relay has delivered is not handed on at all.  So the number of frames is bounded by
the objects, the relays and their connections.
-/

namespace PioplatRelay

open Finset List Option BlockFetcher

open scoped BigOperators

namespace PioplatServer

variable {Block Tx : Type*} {format : RelayFormat Block Tx}

/-- The steps of `run` and its senders; nothing calls `cleanHashSent`. -/
def ofRun : ServerAction Block Tx → Bool
  | .broadcastBlock _ | .broadcastTransaction _ | .cleanHashSent => false
  | _ => true

variable (server : PioplatServer format)

def handed : List Hash :=
  server.received.map (fun taken => format.hash taken.1.object) ++
    server.broadcastOp.map fun msg => format.hash msg.object

def sent (number : Nat) : Nat :=
  server.written.countP (fun write => write.number = number) +
    server.senders.countP fun sender => sender.number = number

def objectHash (number : Nat) : Option Hash :=
  server.received[number]?.map fun taken => format.hash taken.1.object

def framesFor (hashes : Finset Hash) : Nat :=
  server.written.countP fun write => (server.objectHash write.number).any (· ∈ hashes)

/-- Every object is handed over once, and every frame goes at most once to each
connection that was registered when it was taken. -/
structure Sparing : Prop where
  once : server.handed.Nodup
  marked : ∀ hash ∈ server.handed, hash ∈ server.hashSent
  sent_le : ∀ number msg registered, server.received[number]? = some (msg, registered) →
    server.sent number ≤ registered.keys.card
  unsent : ∀ number, server.received.length ≤ number → server.sent number = 0
  ranging : ∀ loop, server.range = some loop → ∃ msg registered,
    server.received[loop.number]? = some (msg, registered) ∧
    server.peers.keys ⊆ registered.keys ∧ loop.visited ⊆ registered.keys ∧
    server.sent loop.number ≤ loop.visited.card

variable {server next : PioplatServer format}

theorem initial_sparing : Sparing ({} : PioplatServer format) where
  once := nodup_nil
  marked _ member := by cases member
  sent_le _ _ _ taken := by cases taken
  unsent _ _ := rfl
  ranging _ running := by cases running

section

variable (sparing : server.Sparing)

include sparing

theorem Sparing.broadcast (object : Block ⊕ Tx) : (server.broadcast object).Sparing := by
  rw [PioplatServer.broadcast]
  split
  · exact sparing
  rename_i fresh
  have markedMore : ∀ hash ∈ server.handed, hash ∈ insert (format.hash object) server.hashSent :=
    fun hash member => Finset.mem_insert_of_mem (sparing.marked hash member)
  split
  · exact { sparing with marked := markedMore }
  · rename_i bytes framed
    have handedEq : ({ server with
        hashSent := insert (format.hash object) server.hashSent
        broadcastOp := server.broadcastOp ++ [⟨object,bytes,framed⟩] } :
          PioplatServer format).handed = server.handed ++ [format.hash object] := by
      simp [handed]
    refine { sparing with once := ?_, marked := ?_ }
    · rw [handedEq]
      apply sparing.once.append (nodup_singleton _)
      rw [List.disjoint_singleton]
      exact fun member => fresh (sparing.marked _ member)
    · rw [handedEq]
      intro hash member
      rcases mem_append.mp member with earlier | new
      · exact markedMore hash earlier
      · rw [List.mem_singleton.mp new]
        exact Finset.mem_insert_self _ _

theorem Sparing.broadcastAll (objects : List (Block ⊕ Tx)) :
    (objects.foldl (fun server object => server.broadcast object) server).Sparing := by
  induction objects generalizing server with
  | nil => exact sparing
  | cons object objects ih => exact ih (sparing.broadcast object)

theorem Sparing.receive {i : Nat} {msg : RelayMsg format}
    (waiting : server.broadcastOp[i]? = some msg) :
    ({ server with
      broadcastOp := server.broadcastOp.eraseIdx i
      msgType := msg.msgType
      range := some ⟨server.received.length,msg,∅⟩
      received := server.received ++ [(msg, server.peers)] } : PioplatServer format).Sparing := by
  set after : PioplatServer format := { server with
    broadcastOp := server.broadcastOp.eraseIdx i
    msgType := msg.msgType
    range := some ⟨server.received.length,msg,∅⟩
    received := server.received ++ [(msg, server.peers)] } with afterEq
  have perm : after.handed.Perm server.handed := by
    obtain ⟨inside,msgEq⟩ := List.getElem?_eq_some_iff.mp waiting
    have moved := (getElem_cons_eraseIdx_perm inside).map fun msg => format.hash msg.object
    rw [msgEq] at moved
    simp only [afterEq,handed,map_append,append_assoc]
    exact moved.append_left _
  have fresh : after.sent server.received.length = 0 := sparing.unsent _ (le_refl _)
  constructor
  · exact perm.nodup_iff.mpr sparing.once
  · intro hash member
    exact sparing.marked hash (perm.mem_iff.mp member)
  · intro number own registered taken
    by_cases earlier : number < server.received.length
    · simp only [afterEq,getElem?_append_left earlier] at taken
      exact sparing.sent_le number own registered taken
    · have nothing : after.sent number = 0 := sparing.unsent number (not_lt.mp earlier)
      rw [nothing]
      exact Nat.zero_le _
  · intro number beyond
    simp only [afterEq,length_append] at beyond
    exact sparing.unsent number (by omega)
  · intro loop running
    cases running
    refine ⟨msg,server.peers,?_,Finset.Subset.refl _,empty_subset _,?_⟩
    · simp [afterEq]
    · rw [fresh]
      exact Nat.zero_le _

theorem Sparing.spawn {loop : RangeLoop format} {addr : String}
    {conn : RelayTarget} (running : server.range = some loop)
    (found : server.peers.lookup addr = some conn) (fresh : addr ∉ loop.visited) :
    ({ server with
      range := some { loop with visited := insert addr loop.visited }
      senders := server.senders ++ [⟨loop.number,loop.msg,addr,conn⟩] } :
        PioplatServer format).Sparing := by
  obtain ⟨msg,registered,taken,peersInside,visitedInside,sentLe⟩ :=
    sparing.ranging loop running
  set after : PioplatServer format := { server with
    range := some { loop with visited := insert addr loop.visited }
    senders := server.senders ++ [⟨loop.number,loop.msg,addr,conn⟩] } with afterEq
  have sentEq (number : Nat) :
      after.sent number = server.sent number + if loop.number = number then 1 else 0 := by
    simp only [afterEq,sent,countP_append,countP_singleton,decide_eq_true_eq]
    omega
  have inside : insert addr loop.visited ⊆ registered.keys := by
    apply insert_subset _ visitedInside
    exact peersInside (Finmap.mem_keys.mpr (Finmap.mem_of_lookup_eq_some found))
  have oneMore : after.sent loop.number ≤ (insert addr loop.visited).card := by
    rw [sentEq,if_pos rfl,card_insert_of_notMem fresh]
    omega
  constructor
  · exact sparing.once
  · exact sparing.marked
  · intro number own others takenOther
    by_cases same : loop.number = number
    · subst same
      have sameEntry := taken.symm.trans takenOther
      cases sameEntry
      exact le_trans oneMore (card_le_card inside)
    · rw [sentEq,if_neg same]
      exact sparing.sent_le number own others takenOther
  · intro number beyond
    have later : server.received.length ≤ number := beyond
    have earlier := lt_of_taken taken
    rw [sentEq,if_neg (by omega : loop.number ≠ number)]
    exact sparing.unsent number later
  · intro other runningOther
    cases runningOther
    exact ⟨msg,registered,taken,peersInside,inside,oneMore⟩

theorem Sparing.send {i : Nat} {sender : SenderRoutine format}
    (there : server.senders[i]? = some sender) (via : RelayChannel)
    (failed : List (String × RelayTarget)) :
    ({ server with
      senders := server.senders.eraseIdx i
      written := server.written ++
        [⟨sender.number,sender.addr,sender.conn,via,sender.msg.bytes⟩]
      failed } : PioplatServer format).Sparing := by
  obtain ⟨inside,senderEq⟩ := List.getElem?_eq_some_iff.mp there
  have sentEq (number : Nat) : ({ server with
      senders := server.senders.eraseIdx i
      written := server.written ++
        [⟨sender.number,sender.addr,sender.conn,via,sender.msg.bytes⟩]
      failed } : PioplatServer format).sent number = server.sent number := by
    have moved := (getElem_cons_eraseIdx_perm inside).countP_eq
      fun sender => decide (sender.number = number)
    rw [senderEq,countP_cons] at moved
    simp only [sent,countP_append,countP_singleton]
    omega
  refine ⟨sparing.once,sparing.marked,?_,?_,?_⟩
  · intro number msg registered taken
    rw [sentEq]
    exact sparing.sent_le number msg registered taken
  · intro number beyond
    rw [sentEq]
    exact sparing.unsent number beyond
  · intro loop running
    rw [sentEq]
    exact sparing.ranging loop running

theorem Sparing.step {action : ServerAction Block Tx}
    (running : ofRun action = true) (stepped : step action server = some next) : next.Sparing := by
  cases action with
  | broadcastBlock | broadcastTransaction | cleanHashSent => cases running
  | addPeer conn =>
    simp only [PioplatServer.step] at stepped
    split at stepped
    · rename_i idle
      cases stepped
      refine { sparing with ranging := ?_ }
      intro loop ranging
      rw [idle] at ranging
      cases ranging
    · cases stepped
  | receive i =>
    simp only [PioplatServer.step] at stepped
    split at stepped
    · rename_i msg idle waiting
      cases stepped
      exact sparing.receive waiting
    · cases stepped
  | spawn addr =>
    simp only [PioplatServer.step] at stepped
    split at stepped
    · rename_i loop conn ranging found
      obtain ⟨fresh,nextEq⟩ := ite_none_left_eq_some.mp stepped
      cases nextEq
      exact sparing.spawn ranging found fresh
    · cases stepped
  | endRange =>
    simp only [PioplatServer.step] at stepped
    split at stepped
    · obtain ⟨-,nextEq⟩ := ite_none_right_eq_some.mp stepped
      cases nextEq
      exact { sparing with ranging := fun _ ranging => by cases ranging }
    · cases stepped
  | send i succeeds =>
    simp only [PioplatServer.step] at stepped
    split at stepped
    · rename_i sender there
      cases stepped
      exact sparing.send there _ _
    · cases stepped
  | remove i =>
    simp only [PioplatServer.step] at stepped
    split at stepped
    · rename_i addr conn there
      cases stepped
      refine { sparing with ranging := ?_ }
      intro loop ranging
      obtain ⟨msg,registered,taken,peersInside,rest⟩ := sparing.ranging loop ranging
      refine ⟨msg,registered,taken,?_,rest⟩
      intro other member
      rw [Finmap.mem_keys,Finmap.mem_erase] at member
      exact peersInside (Finmap.mem_keys.mpr member.2)
    · cases stepped

end

/-! ## Counting frames -/

theorem countP_mem_eq_sum {Entry : Type*} (key : Entry → Nat) (keys : Finset Nat)
    (entries : List Entry) : entries.countP (fun entry => key entry ∈ keys) =
      ∑ k ∈ keys, entries.countP fun entry => key entry = k := by
  induction entries with
  | nil => simp
  | cons entry entries ih => simp [countP_cons,ih,sum_add_distrib,decide_eq_true_eq,sum_ite_eq]

theorem objectHash_eq_some {number : Nat} {hash : Hash} : server.objectHash number = some hash ↔
      (server.received.map fun taken => format.hash taken.1.object)[number]? = some hash := by
  rw [objectHash,getElem?_map]

def numbersFor (server : PioplatServer format) (hashes : Finset Hash) : Finset Nat :=
  (Finset.range server.received.length).filter fun number =>
    (server.objectHash number).any (· ∈ hashes)

theorem mem_numbersFor {number : Nat} {hashes : Finset Hash} :
    number ∈ server.numbersFor hashes ↔ (server.objectHash number).any (· ∈ hashes) = true := by
  rw [numbersFor,Finset.mem_filter,Finset.mem_range,and_iff_right_iff_imp]
  intro isOne
  obtain ⟨hash,hashEq,-⟩ := (any_eq_true _ _).mp isOne
  have inside := (List.getElem?_eq_some_iff.mp (objectHash_eq_some.mp hashEq)).1
  rwa [length_map] at inside

theorem Sparing.card_numbersFor_le (sparing : server.Sparing) (hashes : Finset Hash) :
    (server.numbersFor hashes).card ≤ hashes.card := by
  have receivedOnce : (server.received.map fun taken => format.hash taken.1.object).Nodup :=
    (nodup_append.mp sparing.once).1
  have subset : (server.numbersFor hashes).image server.objectHash ⊆ hashes.image some := by
    intro found member
    obtain ⟨number,isOne,rfl⟩ := mem_image.mp member
    obtain ⟨hash,hashEq,inside⟩ := (any_eq_true _ _).mp (mem_numbersFor.mp isOne)
    rw [hashEq]
    exact mem_image_of_mem _ (of_decide_eq_true inside)
  have injective : Set.InjOn server.objectHash (server.numbersFor hashes) := by
    intro i iMem j jMem same
    obtain ⟨hash,hashEq,-⟩ := (any_eq_true _ _).mp (mem_numbersFor.mp iMem)
    obtain ⟨iLt,iEq⟩ := List.getElem?_eq_some_iff.mp (objectHash_eq_some.mp hashEq)
    obtain ⟨jLt,jEq⟩ := List.getElem?_eq_some_iff.mp
      (objectHash_eq_some.mp (same.symm.trans hashEq))
    exact receivedOnce.getElem_inj_iff.mp (iEq.trans jEq.symm)
  calc (server.numbersFor hashes).card
      = ((server.numbersFor hashes).image server.objectHash).card :=
        (card_image_of_injOn injective).symm
    _ ≤ (hashes.image some).card := card_le_card subset
    _ ≤ hashes.card := card_image_le

/-- The frames for some objects, when each was taken with few connections. -/
theorem Sparing.framesFor_le (sparing : server.Sparing) {d : Nat}
    (few : ∀ taken ∈ server.received, taken.2.keys.card ≤ d) (hashes : Finset Hash) :
    server.framesFor hashes ≤ hashes.card * d := by
  have each : ∀ number ∈ server.numbersFor hashes,
      server.written.countP (fun write => write.number = number) ≤ d := by
    intro number isOne
    have inside := Finset.mem_range.mp (Finset.mem_filter.mp isOne).1
    obtain ⟨⟨msg,registered⟩,taken⟩ : ∃ entry, server.received[number]? = some entry :=
      ⟨_,getElem?_eq_getElem inside⟩
    have sentLe := sparing.sent_le number msg registered taken
    have registeredLe : registered.keys.card ≤ d := few _ (mem_of_getElem? taken)
    rw [sent] at sentLe
    omega
  have framesEq : server.framesFor hashes =
      server.written.countP fun write => write.number ∈ server.numbersFor hashes := by
    rw [framesFor]
    apply countP_congr
    intro write _
    rw [decide_eq_true_eq,mem_numbersFor]
  rw [framesEq,countP_mem_eq_sum]
  calc ∑ number ∈ server.numbersFor hashes,
        server.written.countP (fun write => write.number = number)
      ≤ (server.numbersFor hashes).card * d := Finset.sum_le_card_nsmul _ _ d each
    _ ≤ hashes.card * d := Nat.mul_le_mul_right d (sparing.card_numbersFor_le hashes)

end PioplatServer

/-! ## What a relay delivers stays here -/

namespace BlockFetcher

variable {Header Tx : Type} {format : BlockFormat Header Tx} {f : BlockFetcher Header Tx}
  {choices : Choices}

theorem calls_expireFetches (f : BlockFetcher Header Tx) (choices : Choices) :
    (f.expireFetches choices).calls = f.calls ∧ (f.expireFetches choices).queue = f.queue := by
  refine ⟨?_,(sameImports_expireFetches f choices).queue⟩
  rw [expireFetches]
  induction choices.fetchingOrder.order f.fetching.keys generalizing f with
  | nil => rfl
  | cons hash hashes ih =>
    rw [foldl_cons,ih,expireFetch]
    split
    · split <;> rfl
    · rfl

theorem calls_importQueued (rounds : Nat) (fromRelays : ∀ op ∈ f.queue, ':' ∈ op.origin.toList) :
    (importQueued format rounds f).calls = f.calls := by
  induction rounds generalizing f with
  | zero => rfl
  | succ rounds ih =>
    rw [importQueued]
    split
    · rename_i op queue popped
      have sameItems := BinaryHeap.pop_perm popped
      have own : ':' ∈ op.origin.toList :=
        fromRelays op (sameItems.mem_iff.mp List.mem_cons_self)
      rw [ih]
      · rw [importBlocks,if_pos own]
      · intro other member
        exact fromRelays other (sameItems.mem_iff.mp (List.mem_cons_of_mem _ member))
    · rfl

theorem enqueue_of_drained (format : BlockFormat Header Tx) (drained : f.queue = [])
    (origin : String) (block : ChainBlock Header Tx) :
    (f.enqueue format origin block).calls = f.calls ∧
      ∀ op ∈ (f.enqueue format origin block).queue, op.origin = origin := by
  unfold enqueue
  dsimp only
  split
  · refine ⟨rfl,?_⟩
    intro op member
    rw [forgetHash,drained] at member
    cases member
  split
  · refine ⟨rfl,?_⟩
    intro op member
    rw [drained] at member
    cases member
  · refine ⟨rfl,?_⟩
    intro op member
    have own := (BinaryHeap.push_perm _ _).mem_iff.mp member
    rw [drained,List.mem_singleton] at own
    rw [own]

/-- The round that takes a block from a relay makes no call. -/
theorem calls_loop_inject (drained : f.queue = []) {origin : String} (isRelay : ':' ∈ origin.toList)
    {block : ChainBlock Header Tx} {after : BlockFetcher Header Tx}
    (looped : f.loop format choices (.inject origin block) = some after) :
    after.calls = f.calls := by
  obtain ⟨handled,handledEq,rfl⟩ := map_eq_some_iff.mp looped
  cases handledEq
  obtain ⟨sameCalls,origins⟩ := enqueue_of_drained format drained origin block
  obtain ⟨expiredCalls,expiredQueue⟩ :=
    calls_expireFetches (f.enqueue format origin block) choices
  have fromRelays : ∀ op ∈ ((f.enqueue format origin block).expireFetches choices).queue,
      ':' ∈ op.origin.toList := by
    intro op member
    rw [expiredQueue] at member
    rw [origins op member]
    exact isRelay
  calc (loopTop format choices (f.enqueue format origin block)).calls
      = ((f.enqueue format origin block).expireFetches choices).calls :=
        calls_importQueued _ fromRelays
    _ = (f.enqueue format origin block).calls := expiredCalls
    _ = f.calls := sameCalls

end BlockFetcher

/-! ## A network of relays -/

variable {Header Tx : Type}

structure FloodingRelay (wire : RelayFormat (ChainBlock Header Tx) Tx) where
  looping : Looping Header Tx := .start
  server : PioplatServer wire := {}

/-- What happens at a relay.  Blocks and transactions come from anyone at any
time; a batch between whose transactions something else happens is several. -/
inductive FloodingRelay.Action (Header Tx : Type)
  | fetch (action : Looping.Action Header Tx)
  | enqueue (origin : String) (txs : List Tx)
  | serve (action : ServerAction (ChainBlock Header Tx) Tx)

namespace FloodingRelay

variable {wire : RelayFormat (ChainBlock Header Tx) Tx}

def broadcasts (calls : List (FetcherCall Header Tx)) : List (ChainBlock Header Tx ⊕ Tx) :=
  calls.filterMap fun
    | .pioplatBroadcastBlock block => some (.inl block)
    | _ => none

def broadcastAll (objects : List (ChainBlock Header Tx ⊕ Tx)) (relay : FloodingRelay wire) :
    FloodingRelay wire :=
  { relay with
    server := objects.foldl (fun server object => server.broadcast object) relay.server }

def enqueue (origin : String) (txs : List Tx) (relay : FloodingRelay wire) : FloodingRelay wire :=
  if ':' ∈ origin.toList then relay else relay.broadcastAll (txs.map .inr)

def step (format : BlockFormat Header Tx) (action : Action Header Tx) (relay : FloodingRelay wire) :
    Option (FloodingRelay wire) :=
  match action with
  | .fetch action => do
      let looping ← Looping.step format action relay.looping
      -- The calls of this step are those after the calls so far.
      let calls := looping.fetcher.calls.drop relay.looping.fetcher.calls.length
      return { relay with looping }.broadcastAll (broadcasts calls)
  | .enqueue origin txs => some (relay.enqueue origin txs)
  | .serve action =>
    if PioplatServer.ofRun action then
      (PioplatServer.step action relay.server).map fun server => { relay with server }
    else none

/-- Between two steps the server spares the network and the fetcher is drained. -/
structure Quiet (relay : FloodingRelay wire) : Prop where
  sparing : relay.server.Sparing
  drained : relay.looping.Drained

variable {format : BlockFormat Header Tx} {relay next : FloodingRelay wire}

theorem initial_quiet : Quiet ({} : FloodingRelay wire) where
  sparing := PioplatServer.initial_sparing
  drained waiting := by cases waiting

theorem Quiet.broadcastAll (quiet : relay.Quiet) (objects : List (ChainBlock Header Tx ⊕ Tx)) :
    (relay.broadcastAll objects).Quiet :=
  ⟨quiet.sparing.broadcastAll objects,quiet.drained⟩

theorem Quiet.step (quiet : relay.Quiet) {action : Action Header Tx}
    (stepped : step format action relay = some next) : next.Quiet := by
  cases action with
  | fetch action =>
    obtain ⟨looping,looped,nextEq⟩ := bind_eq_some_iff.mp stepped
    cases nextEq
    apply Quiet.broadcastAll
    exact ⟨quiet.sparing,Looping.step_drained quiet.drained looped⟩
  | enqueue origin txs =>
    cases stepped
    rw [enqueue]
    split
    · exact quiet
    · exact quiet.broadcastAll _
  | serve action =>
    obtain ⟨running,served⟩ := ite_none_right_eq_some.mp stepped
    obtain ⟨server,servedEq,rfl⟩ := map_eq_some_iff.mp served
    exact ⟨quiet.sparing.step running servedEq,quiet.drained⟩

end FloodingRelay

abbrev RelayNetwork (Relays : Type) (wire : RelayFormat (ChainBlock Header Tx) Tx) :=
  Relays → FloodingRelay wire

namespace RelayNetwork

variable {Relays : Type} [DecidableEq Relays] {wire : RelayFormat (ChainBlock Header Tx) Tx}

def initial : RelayNetwork Relays wire := fun _ => {}

def step (format : BlockFormat Header Tx) (action : Relays × FloodingRelay.Action Header Tx)
    (network : RelayNetwork Relays wire) : Option (RelayNetwork Relays wire) :=
  (FloodingRelay.step format action.2 (network action.1)).map (Function.update network action.1)

/-- Every relay hands each hash to `broadcastOp` at most once; what a relay delivers
is not handed on; and the frames for some objects are bounded by the objects, the
relays, and the connections registered at any relay when it takes a frame. -/
structure FloodBounded [Fintype Relays] (format : BlockFormat Header Tx)
    (network : RelayNetwork Relays wire) : Prop where
  once : ∀ relay, (network relay).server.handed.Nodup
  silentBlock : ∀ relay, (network relay).looping.point = .selecting →
    ∀ choices origin block after, ':' ∈ origin.toList →
      (network relay).looping.fetcher.loop format choices (.inject origin block) = some after →
      after.calls = (network relay).looping.fetcher.calls
  silentTxs : ∀ relay origin txs, ':' ∈ origin.toList →
    step format (relay, .enqueue origin txs) network = some network
  frames : ∀ (hashes : Finset Hash) (d : Nat),
    (∀ relay, ∀ taken ∈ (network relay).server.received, taken.2.keys.card ≤ d) →
    ∑ relay, (network relay).server.framesFor hashes ≤ hashes.card * Fintype.card Relays * d

variable {format : BlockFormat Header Tx} {network next : RelayNetwork Relays wire}

theorem step_quiet {action : Relays × FloodingRelay.Action Header Tx}
    (quiet : ∀ relay, (network relay).Quiet) (stepped : step format action network = some next) :
    ∀ relay, (next relay).Quiet := by
  obtain ⟨after,relayStepped,rfl⟩ := map_eq_some_iff.mp stepped
  intro relay
  by_cases own : relay = action.1
  · subst own
    rw [Function.update_self]
    exact (quiet action.1).step relayStepped
  · rw [Function.update_of_ne own]
    exact quiet relay

omit [DecidableEq Relays] in
theorem sum_framesFor_le [Fintype Relays] (quiet : ∀ relay, (network relay).Quiet) {d : Nat}
    (few : ∀ relay, ∀ taken ∈ (network relay).server.received, taken.2.keys.card ≤ d)
    (hashes : Finset Hash) : ∑ relay, (network relay).server.framesFor hashes ≤
      hashes.card * Fintype.card Relays * d := by
  calc ∑ relay, (network relay).server.framesFor hashes
      ≤ Fintype.card Relays * (hashes.card * d) := by
        apply Finset.sum_le_card_nsmul
        intro relay _
        exact (quiet relay).sparing.framesFor_le (few relay) hashes
    _ = hashes.card * Fintype.card Relays * d := by
        rw [← Nat.mul_assoc,Nat.mul_comm (Fintype.card Relays)]

theorem floodBounded_of_quiet [Fintype Relays] (quiet : ∀ relay, (network relay).Quiet) :
    FloodBounded format network where
  once relay := (quiet relay).sparing.once
  silentBlock relay waiting _ _ _ _ isRelay looped :=
    calls_loop_inject ((quiet relay).drained waiting) isRelay looped
  silentTxs relay origin txs isRelay := by
    rw [step,FloodingRelay.step,FloodingRelay.enqueue,if_pos isRelay,map_some,
      Function.update_eq_self]
  frames hashes _ few := sum_framesFor_le quiet few hashes

/-- However the steps of the relays interleave, flooding is bounded. -/
theorem floodBounded_always [Fintype Relays] (format : BlockFormat Header Tx)
    (actions : List (Relays × FloodingRelay.Action Header Tx)) :
    Always (step format) (FloodBounded format) (initial : RelayNetwork Relays wire) actions := by
  have initially : ∀ relay, ((initial : RelayNetwork Relays wire) relay).Quiet :=
    fun _ => FloodingRelay.initial_quiet
  exact always_of_kept (fun _ _ _ quiet stepped => step_quiet quiet stepped)
    (fun _ quiet => floodBounded_of_quiet quiet) initially

end RelayNetwork

end PioplatRelay
