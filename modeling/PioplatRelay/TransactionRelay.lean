import PioplatRelay.PioplatBroadcasts

/-!
# The relay path of a transaction

The calls of `AddRemotes` and the broadcast loops of the peers as one system.  A
hash that a loop has received is neither lost nor written twice as long as the loop
looks it up only while the pool has it.  Nothing in the code orders the lookup after
the insertion: a loop that is faster than the call drops the hash, and the peer stays
marked as knowing the transaction.
-/

namespace PioplatRelay

open ObjectCodec TxBroadcaster Option

/-- What `BroadcastTransactionsToPioplatPeer` reads of the configuration. -/
structure PioplatPeers (Peer : Type*) where
  ip : Peer → String
  periPeersIp : Finset String
  periBroadcast : Bool

/-- The peers that the loop over the peer set visits before it ends early; the
map gives the peers in any order. -/
def PioplatPeers.visited {Peer : Type*} (config : PioplatPeers Peer) :
    Nat → List Peer → List Peer
  | _, [] => []
  | pioplatCount, peer :: order =>
    if config.ip peer ∈ config.periPeersIp then
      peer :: if config.periPeersIp.card ≤ pioplatCount + 1 then []
        else config.visited (pioplatCount + 1) order
    else config.visited pioplatCount order

/-- A call broadcasts its transactions, with the peers that are left for the
first one while it holds the lock of the peer set, and then adds them. -/
inductive RelayCall (Peer Tx : Type*)
  | broadcasting (txs todo : List Tx) (targets : Option (List Peer))
  | adding (call : AddCall Tx)

structure RelaySystem (Call Peer Tx : Type*) where
  calls : Call → RelayCall Peer Tx
  peers : Peer → TxBroadcaster Tx
  shared : SharedPool Call Tx

inductive RelayAction (Call Peer : Type*)
  /-- The call takes the lock; the registered peers come in this order. -/
  | lock (call : Call) (order : List Peer)
  | offer (call : Call)
  /-- The call finds that the peer is closed. -/
  | discard (call : Call)
  | proceed (call : Call) (now : AbsTime)
  | loop (peer : Peer)
  | write (peer : Peer) (succeeds : Bool)
  | close (peer : Peer)
  | exit (peer : Peer)
  /-- Other handlers add known transactions, and a full cache drops some. -/
  | mark (peer : Peer) (knownTxs : Finset Hash)

namespace RelaySystem

variable {Call Peer Tx : Type*} [DecidableEq Call] [DecidableEq Peer]

variable (system : RelaySystem Call Peer Tx)

def setCall (call : Call) (state : RelayCall Peer Tx) :
    RelaySystem Call Peer Tx :=
  { system with calls := Function.update system.calls call state }

def setPeer (peer : Peer) (state : TxBroadcaster Tx) :
    RelaySystem Call Peer Tx :=
  { system with peers := Function.update system.peers peer state }

omit [DecidableEq Call] in
@[simp]
theorem setPeer_self (peer : Peer) (state : TxBroadcaster Tx) :
    (system.setPeer peer state).peers peer = state :=
  Function.update_self ..

variable {other : Peer} {after : TxBroadcaster Tx}

omit [DecidableEq Call] in
theorem setPeer_of_ne (system : RelaySystem Call Peer Tx) {peer : Peer} (different : peer ≠ other)
    (state : TxBroadcaster Tx) : (system.setPeer other state).peers peer = system.peers peer :=
  Function.update_of_ne different ..

variable (config : PioplatPeers Peer) (hash : Tx → Hash) (size : Tx → Nat)

def step (action : RelayAction Call Peer) (system : RelaySystem Call Peer Tx) :
    Option (RelaySystem Call Peer Tx) :=
  match action with
  | .lock call order =>
    match system.calls call with
    | .broadcasting txs (tx :: todo) none =>
      some (system.setCall call
        (.broadcasting txs (tx :: todo) (some (config.visited 0 order))))
    | _ => none
  | .offer call =>
    match system.calls call with
    | .broadcasting txs (tx :: todo) (some (peer :: targets)) =>
      let after := system.setCall call (.broadcasting txs (tx :: todo) (some targets))
      if hash tx ∈ (system.peers peer).knownTxs then some after
      else
        ((system.peers peer).receive [hash tx]).map fun taken =>
          after.setPeer peer { taken with knownTxs := insert (hash tx) taken.knownTxs }
    | _ => none
  | .discard call =>
    match system.calls call with
    | .broadcasting txs (tx :: todo) (some (peer :: targets)) =>
      if hash tx ∉ (system.peers peer).knownTxs ∧ (system.peers peer).term then
        some (system.setCall call (.broadcasting txs (tx :: todo) (some targets)))
      else none
    | _ => none
  | .proceed call now =>
    match system.calls call with
    | .broadcasting txs (_ :: todo) (some []) =>
      some (system.setCall call (.broadcasting txs todo none))
    | .broadcasting txs [] none => some (system.setCall call (.adding (.checking txs [] [])))
    | .adding adding =>
      (adding.step hash call now system.shared).map fun next =>
        { system.setCall call (.adding next.1) with shared := next.2 }
    | _ => none
  | .loop peer =>
    ((system.peers peer).advance size system.shared.pool.get).map (system.setPeer peer)
  | .write peer succeeds => ((system.peers peer).write hash succeeds).map (system.setPeer peer)
  | .close peer => some (system.setPeer peer { system.peers peer with term := true })
  | .exit peer => (system.peers peer).exit.map (system.setPeer peer)
  | .mark peer knownTxs => some (system.setPeer peer { system.peers peer with knownTxs })

def initial (expirePeriod : AbsTime) (txs : Call → List Tx) : RelaySystem Call Peer Tx where
  calls call :=
    if config.periBroadcast then .broadcasting (txs call) (txs call) none
    else .adding (.checking (txs call) [] [])
  peers _ := {}
  shared := ⟨.newTxPool expirePeriod, []⟩

variable (peer : Peer) (key : Hash) (system : RelaySystem Call Peer Tx)

/-- What no loss means for a hash at a peer that stays connected, whose writes
succeed and whose queue does not overflow. -/
structure NoLoss : Prop where
  accounted : (system.peers peer).Intact → (system.peers peer).received.count key =
    ((system.peers peer).pending hash).count key + (system.peers peer).sent.count key
  delivered : (system.peers peer).Intact → (system.peers peer).AtRest →
    (system.peers peer).sent.count key = (system.peers peer).received.count key
  settles : (system.peers peer).Intact → ∃ own last,
    (∀ action ∈ own, action = .loop peer ∨ action = .write peer true) ∧
    runAll (step config hash size) system own = some last ∧
    ((last.peers peer).Intact ∧ (last.peers peer).received = (system.peers peer).received) ∧
    (last.peers peer).AtRest

/-- When the peer's loop looks the hash up, the pool has it. -/
def FindsQueued
    (action : RelayAction Call Peer) : Prop :=
  action = .loop peer → ∀ i txs total, (system.peers peer).stage = .piling i txs total →
    total < maxTxPacketSize → (system.peers peer).queue[i]? = some key →
    system.shared.pool.has key = true

def Keyed (shared : SharedPool Call Tx) : Prop :=
  ∀ key tx, shared.pool.get key = some tx → hash tx = key

variable {config hash size} {system next : RelaySystem Call Peer Tx}
  {action : RelayAction Call Peer}

omit [DecidableEq Call] [DecidableEq Peer] in
theorem moves_keyed {call : Call} {now : AbsTime} {before after : AddCall Tx}
    {shared shared' : SharedPool Call Tx}
    (moved : AddCall.Moves hash call now before shared after shared')
    (keyed : Keyed hash shared) : Keyed hash shared' := by
  cases moved with
  | sweep res addedTxs =>
    intro key tx found
    rw [TxPool.get,TxPool.sweep,lookup_foldl_erase_ite] at found
    split at found
    · cases found
    · exact keyed key tx found
  | known tx todo res addedTxs => exact keyed
  | missing tx todo res addedTxs => exact keyed
  | insert tx todo res addedTxs =>
    intro key other found
    by_cases same : key = hash tx
    · subst same
      rw [TxPool.get,TxPool.insert,Finmap.lookup_insert] at found
      rw [← some_inj.mp found]
    · rw [TxPool.get,TxPool.insert,Finmap.lookup_insert_of_ne _ same] at found
      exact keyed key other found
  | send res addedTxs => exact keyed

variable (hash size) in
inductive Moves (system : RelaySystem Call Peer Tx) :
    RelayAction Call Peer → RelaySystem Call Peer Tx → Prop
  | call (action : RelayAction Call Peer) (call : Call) (state : RelayCall Peer Tx) :
      Moves system action (system.setCall call state)
  | pool (call : Call) (now : AbsTime) (before after : AddCall Tx)
      (shared : SharedPool Call Tx)
      (moved : AddCall.Moves hash call now before system.shared after shared) :
      Moves system (.proceed call now) { system.setCall call (.adding after) with shared }
  | loop (peer : Peer) (after : TxBroadcaster Tx)
      (advanced : (system.peers peer).advance size system.shared.pool.get = some after) :
      Moves system (.loop peer) (system.setPeer peer after)
  | offered (action : RelayAction Call Peer) (call : Call) (state : RelayCall Peer Tx)
      (peer : Peer) (after : TxBroadcaster Tx)
      (tends : Tends hash (system.peers peer) after) :
      Moves system action ((system.setCall call state).setPeer peer after)
  | tended (action : RelayAction Call Peer) (peer : Peer) (after : TxBroadcaster Tx)
      (tends : Tends hash (system.peers peer) after) :
      Moves system action (system.setPeer peer after)

theorem moves_of_step (stepped : step config hash size action system = some next) :
    Moves hash size system action next := by
  cases action with
  | lock call order =>
    simp only [step] at stepped
    split at stepped
    · cases stepped
      exact .call _ call _
    · cases stepped
  | offer call =>
    simp only [step] at stepped
    split at stepped
    · split at stepped
      · cases stepped
        exact .call _ call _
      · rcases map_eq_some_iff.mp stepped with ⟨taken,received,rfl⟩
        exact .offered _ call _ _ _ (.receive _ taken _ _ received)
    · cases stepped
  | discard call =>
    simp only [step] at stepped
    split at stepped
    · split at stepped
      · cases stepped
        exact .call _ call _
      · cases stepped
    · cases stepped
  | proceed call now =>
    simp only [step] at stepped
    split at stepped
    · cases stepped
      exact .call _ call _
    · cases stepped
      exact .call _ call _
    · rcases map_eq_some_iff.mp stepped with ⟨⟨after,shared⟩,moved,rfl⟩
      exact .pool call now _ after shared (AddCall.moves_of_step moved)
    · cases stepped
  | loop peer =>
    rcases map_eq_some_iff.mp stepped with ⟨after,advanced,rfl⟩
    exact .loop peer after advanced
  | write peer succeeds =>
    rcases map_eq_some_iff.mp stepped with ⟨after,written,rfl⟩
    exact .tended _ peer after (.write _ after succeeds written)
  | close peer =>
    cases stepped
    exact .tended _ peer _ (.close _)
  | exit peer =>
    rcases map_eq_some_iff.mp stepped with ⟨after,left,rfl⟩
    exact .tended _ peer after (.exit _ after left)
  | mark peer knownTxs =>
    cases stepped
    exact .tended _ peer _ (.mark _ knownTxs)

variable (hash) in
structure Kept (peer : Peer) (key : Hash) (system : RelaySystem Call Peer Tx) : Prop where
  keyed : Keyed hash system.shared
  loops : (system.peers peer).Loops
  accounts : (system.peers peer).Accounts hash key

variable {peer : Peer} {key : Hash}

omit [DecidableEq Call] in
theorem setPeer_kept (kept : Kept hash peer key system)
    (here : other = peer → after.Loops ∧ after.Accounts hash key) :
    Kept hash peer key (system.setPeer other after) := by
  by_cases same : peer = other
  · subst same
    have both := here rfl
    refine ⟨kept.keyed,?_,?_⟩
    · rw [setPeer_self]
      exact both.1
    · rw [setPeer_self]
      exact both.2
  · refine ⟨kept.keyed,?_,?_⟩
    · rw [setPeer_of_ne system same]
      exact kept.loops
    · rw [setPeer_of_ne system same]
      exact kept.accounts

omit [DecidableEq Call] in
theorem tended_kept (kept : Kept hash peer key system)
    (tends : Tends hash (system.peers other) after) :
    Kept hash peer key (system.setPeer other after) := by
  apply setPeer_kept kept
  rintro rfl
  exact ⟨tends.loops kept.loops,tends.accounts kept.accounts⟩

theorem step_kept (kept : Kept hash peer key system) (finds : FindsQueued peer key system action)
    (stepped : step config hash size action system = some next) : Kept hash peer key next := by
  cases moves_of_step stepped with
  | call _ call state => exact { kept with }
  | pool call now before after shared moved =>
    exact ⟨moves_keyed moved kept.keyed,kept.loops,kept.accounts⟩
  | loop other after advanced =>
    apply setPeer_kept kept
    rintro rfl
    have advances := advances_of_advance advanced
    exact ⟨advances.loops kept.loops,
      advances.accounts kept.keyed kept.loops (finds rfl) kept.accounts⟩
  | offered _ call state other after tends =>
    have called : Kept hash peer key (system.setCall call state) :=
      { kept with }
    exact tended_kept called tends
  | tended _ other after tends => exact tended_kept kept tends

omit [DecidableEq Call] [DecidableEq Peer] in
theorem initial_kept (expirePeriod : AbsTime) (txs : Call → List Tx) :
    Kept hash peer key (initial config expirePeriod txs) where
  keyed key tx found := by simp [initial,TxPool.get,TxPool.newTxPool] at found
  loops := loops_of_top rfl
  accounts _ := rfl

structure Settling (peer : Peer) (received : List Hash) (system : RelaySystem Call Peer Tx) :
    Prop where
  loops : (system.peers peer).Loops
  intact : (system.peers peer).Intact
  same : (system.peers peer).received = received

omit [DecidableEq Call] in
theorem setPeer_settling {received : List Hash} (loops : after.Loops) (intact : after.Intact)
    (same : after.received = received) : Settling peer received (system.setPeer peer after) := by
  constructor
  · rwa [setPeer_self]
  · rwa [setPeer_self]
  · rwa [setPeer_self]

theorem own_step {received : List Hash} (settling : Settling peer received system)
    (busy : ¬ (system.peers peer).AtRest) :
    ∃ action next, (action = .loop peer ∨ action = .write peer true) ∧
      step config hash size action system = some next ∧ Settling peer received next ∧
      (next.peers peer).weight < (system.peers peer).weight := by
  have possible : (∃ after, (system.peers peer).advance size system.shared.pool.get = some after) ∨
      ∃ after, (system.peers peer).write hash true = some after :=
    can_advance settling.loops settling.intact busy
  rcases possible with ⟨after,advanced⟩ | ⟨after,written⟩
  · have advances := advances_of_advance advanced
    have stays := advances.intact settling.intact
    have settled : Settling peer received (system.setPeer peer after) :=
      setPeer_settling (advances.loops settling.loops) stays.1 (stays.2.trans settling.same)
    refine ⟨.loop peer,system.setPeer peer after,Or.inl rfl,?_,settled,?_⟩
    · rw [step,advanced,map_some]
    · rw [setPeer_self]
      exact advances.weight_lt settling.loops settling.intact
  · have stays := write_true written settling.intact
    have settled : Settling peer received (system.setPeer peer after) :=
      setPeer_settling (write_loops written settling.loops) stays.1
        (stays.2.1.trans settling.same)
    refine ⟨.write peer true,system.setPeer peer after,Or.inr rfl,?_,settled,?_⟩
    · rw [step,written,map_some]
    · rw [setPeer_self]
      exact stays.2.2

/-- A peer's loop and its writer, left alone, come to rest. -/
theorem own_steps_settle (loops : (system.peers peer).Loops)
    (intact : (system.peers peer).Intact) : ∃ own last,
    (∀ action ∈ own, action = .loop peer ∨ action = .write peer true) ∧
    runAll (step config hash size) system own = some last ∧
    ((last.peers peer).Intact ∧ (last.peers peer).received = (system.peers peer).received) ∧
    (last.peers peer).AtRest := by
  rcases exists_runAll_of_rank
    (fun state : RelaySystem Call Peer Tx => (state.peers peer).weight)
    (fun _ settling busy => own_step settling busy) (.mk loops intact rfl) with
    ⟨own,last,owns,run,settled,rest⟩
  exact ⟨own,last,owns,run,⟨settled.intact,settled.same⟩,rest⟩

theorem Kept.noLoss (kept : Kept hash peer key system) :
    NoLoss config hash size peer key system where
  accounted := kept.accounts
  delivered intact rest := by
    have counted := kept.accounts intact
    have free := isNone_iff_eq_none.mp rest.2
    have emptied := kept.loops.emptied rest.1 free
    simpa [pending,rest.1,free,emptied] using counted.symm
  settles := own_steps_settle kept.loops

/-- In every run of the calls and the loops in which the peer's loop looks the
hash up only while the pool has it, the hash is never lost on its way to the peer. -/
theorem noLoss_of_findsQueued (config : PioplatPeers Peer) (hash : Tx → Hash) (size : Tx → Nat)
    (expirePeriod : AbsTime) (txs : Call → List Tx) (peer : Peer) (key : Hash)
    (schedule : List (RelayAction Call Peer))
    (finds : Guarded (step config hash size) (FindsQueued peer key)
      (initial config expirePeriod txs) schedule) :
    Always (step config hash size) (NoLoss config hash size peer key)
      (initial config expirePeriod txs) schedule :=
  always_of_guarded (fun _ _ _ => step_kept) (fun _ => Kept.noLoss)
    (initial_kept expirePeriod txs) finds

def onePeer : PioplatPeers Unit where
  ip _ := "10.0.0.2"
  periPeersIp := {"10.0.0.2"}
  periBroadcast := true

def patientLoop : List (RelayAction Unit Unit) :=
  [.loop (), .lock () [()], .offer (), .proceed () 0, .proceed () 0, .proceed () 0,
    .proceed () 0, .loop (), .loop (), .loop (), .write () true]

theorem patientLoop_findsQueued : Guarded (step onePeer byte.hash fun _ => 100)
      (FindsQueued () (byte.hash 7))
      (initial onePeer 5 fun _ => [7] : RelaySystem Unit Unit UInt8) patientLoop := by
  refine .cons rfl (by rintro - _ _ _ ⟨⟩) ?_
  refine .cons rfl (by nofun) (.cons rfl (by nofun) ?_)
  refine .cons rfl (by nofun) (.cons rfl (by nofun) ?_)
  refine .cons rfl (by nofun) (.cons rfl (by nofun) ?_)
  refine .cons rfl (by rintro - _ _ _ ⟨⟩) ?_
  -- Here the loop looks the hash up.
  refine .cons rfl (fun _ _ _ _ _ _ _ => by decide +kernel) ?_
  refine .cons rfl ?_ (.cons rfl (by nofun) trivial)
  rintro - _ _ _ ⟨⟩ - ⟨⟩

theorem noLoss_of_findsQueued_at_patientLoop : ∃ last : RelaySystem Unit Unit UInt8,
    runAll (step onePeer byte.hash fun _ => 100)
      (initial onePeer 5 fun _ => [7]) patientLoop = some last ∧
    (last.peers ()).Intact ∧ (last.peers ()).sent = [byte.hash 7] ∧
    NoLoss onePeer byte.hash (fun _ => 100) () (byte.hash 7) last := by
  refine ⟨_,rfl,⟨rfl,rfl,rfl,by nofun,by nofun⟩,rfl,?_⟩
  exact noLoss_of_findsQueued onePeer byte.hash (fun _ => 100) 5 (fun _ => [7]) ()
    (byte.hash 7) patientLoop patientLoop_findsQueued _ List.prefix_rfl _ rfl

def hastyLoop : List (RelayAction Unit Unit) :=
  [.loop (), .lock () [()], .offer (), .loop (), .loop (), .loop (), .proceed () 0,
    .proceed () 0, .proceed () 0, .proceed () 0, .proceed () 0, .proceed () 0]

theorem accepted_transaction_lost : ∃ last : RelaySystem Unit Unit UInt8,
    runAll (step onePeer byte.hash fun _ => 100)
      (initial onePeer 5 fun _ => [7]) hastyLoop = some last ∧
    last.calls () = .adding (.returned [none]) ∧ last.shared.pool.has (byte.hash 7) = true ∧
    (last.peers ()).Intact ∧ (last.peers ()).AtRest ∧
    (last.peers ()).received = [byte.hash 7] ∧ (last.peers ()).sent = [] ∧
    byte.hash 7 ∈ (last.peers ()).knownTxs := by
  refine ⟨_,rfl,rfl,by decide +kernel,⟨rfl,rfl,rfl,by nofun,by nofun⟩,⟨rfl,rfl⟩,
    rfl,rfl,by decide +kernel⟩

end RelaySystem

end PioplatRelay
