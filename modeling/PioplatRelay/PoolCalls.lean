import PioplatRelay.StepRuns
import PioplatRelay.TxPool

/-!
# Concurrent calls of AddRemotes

Every peer's goroutine calls `AddRemotes`.  The membership test of a transaction,
its insertion and the sweep at the end of a call are critical sections of their own.
The history records what the calls report, what a sweep expires and what is sent.
Where a call inserts a transaction that another one has inserted since the test,
both report success and the heap has two entries for one hash.
-/

namespace PioplatRelay

/-- Where a call stands, with its results and added transactions so far. -/
inductive AddCall (Tx : Type*)
  | checking (todo : List Tx) (res : List (Option TxPoolError)) (addedTxs : List Tx)
  | inserting (tx : Tx) (todo : List Tx) (res : List (Option TxPoolError)) (addedTxs : List Tx)
  | sending (res : List (Option TxPoolError)) (addedTxs : List Tx)
  | returned (res : List (Option TxPoolError))

inductive PoolEvent (Call Tx : Type*)
  | report (call : Call) (tx : Tx) (err : Option TxPoolError)
  | expired (txs : List Tx)
  | sent (call : Call) (addedTxs : List Tx)

/-- The pool and what has happened to it, the newest first. -/
structure SharedPool (Call Tx : Type*) where
  pool : TxPool Tx
  history : List (PoolEvent Call Tx)

structure PoolSystem (Call Tx : Type*) where
  calls : Call → AddCall Tx
  shared : SharedPool Call Tx

variable {Call Tx : Type*} (hash : Tx → Hash)

/-- The next locked step of a call: the test or the insertion of a transaction,
or after the last one the sweep; and then the event. -/
def AddCall.step (call : Call) (now : AbsTime) :
    AddCall Tx → SharedPool Call Tx → Option (AddCall Tx × SharedPool Call Tx)
  | .checking [] res addedTxs, shared =>
    some (.sending res addedTxs,
      { pool := shared.pool.sweep hash now
        history := .expired (ExpHeap.expire shared.pool.txs now).1 :: shared.history })
  | .checking (tx :: todo) res addedTxs, shared =>
    if shared.pool.has (hash tx) then
      some (.checking todo (res ++ [some .alreadyKnown]) addedTxs,
        { shared with history := .report call tx (some .alreadyKnown) :: shared.history })
    else some (.inserting tx todo res addedTxs, shared)
  | .inserting tx todo res addedTxs, shared =>
    some (.checking todo (res ++ [none]) (addedTxs ++ [tx]),
      { pool := shared.pool.insert hash tx
        history := .report call tx none :: shared.history })
  | .sending res addedTxs, shared =>
    some (.returned res, { shared with history := .sent call addedTxs :: shared.history })
  | .returned _, _ => none

/-- The added transactions of a call that has not sent its event. -/
def AddCall.added : AddCall Tx → Option (List Tx)
  | .checking _ _ addedTxs => some addedTxs
  | .inserting _ _ _ addedTxs => some addedTxs
  | .sending _ addedTxs => some addedTxs
  | .returned _ => none

inductive AddCall.Moves (call : Call) (now : AbsTime) :
    AddCall Tx → SharedPool Call Tx → AddCall Tx → SharedPool Call Tx → Prop
  | sweep (res : List (Option TxPoolError)) (addedTxs : List Tx) (shared : SharedPool Call Tx) :
      Moves call now (.checking [] res addedTxs) shared (.sending res addedTxs)
        ⟨shared.pool.sweep hash now,
          .expired (ExpHeap.expire shared.pool.txs now).1 :: shared.history⟩
  | known (tx : Tx) (todo : List Tx) (res : List (Option TxPoolError)) (addedTxs : List Tx)
      (shared : SharedPool Call Tx) (there : shared.pool.has (hash tx) = true) :
      Moves call now (.checking (tx :: todo) res addedTxs) shared
        (.checking todo (res ++ [some .alreadyKnown]) addedTxs)
        ⟨shared.pool, .report call tx (some .alreadyKnown) :: shared.history⟩
  | missing (tx : Tx) (todo : List Tx) (res : List (Option TxPoolError)) (addedTxs : List Tx)
      (shared : SharedPool Call Tx) (unknown : shared.pool.has (hash tx) = false) :
      Moves call now (.checking (tx :: todo) res addedTxs) shared
        (.inserting tx todo res addedTxs) shared
  | insert (tx : Tx) (todo : List Tx) (res : List (Option TxPoolError)) (addedTxs : List Tx)
      (shared : SharedPool Call Tx) :
      Moves call now (.inserting tx todo res addedTxs) shared
        (.checking todo (res ++ [none]) (addedTxs ++ [tx]))
        ⟨shared.pool.insert hash tx,.report call tx none :: shared.history⟩
  | send (res : List (Option TxPoolError)) (addedTxs : List Tx) (shared : SharedPool Call Tx) :
      Moves call now (.sending res addedTxs) shared (.returned res)
        ⟨shared.pool,.sent call addedTxs :: shared.history⟩

variable {hash}

theorem AddCall.moves_of_step {call : Call} {now : AbsTime} {before after : AddCall Tx}
    {shared shared' : SharedPool Call Tx}
    (stepped : before.step hash call now shared = some (after, shared')) :
    AddCall.Moves hash call now before shared after shared' := by
  cases before with
  | checking todo res addedTxs =>
    cases todo with
    | nil =>
      cases stepped
      exact .sweep res addedTxs shared
    | cons tx todo =>
      rw [AddCall.step] at stepped
      split at stepped
      · rename_i there
        cases stepped
        exact .known tx todo res addedTxs shared there
      · rename_i missing
        cases stepped
        exact .missing tx todo res addedTxs shared (by simpa using missing)
  | inserting tx todo res addedTxs =>
    cases stepped
    exact .insert tx todo res addedTxs shared
  | sending res addedTxs =>
    cases stepped
    exact .send res addedTxs shared
  | returned res => cases stepped

variable (hash)

namespace PoolSystem

def step [DecidableEq Call] (action : Call × AbsTime) (system : PoolSystem Call Tx) :
    Option (PoolSystem Call Tx) :=
  ((system.calls action.1).step hash action.1 action.2 system.shared).map fun next =>
    { calls := Function.update system.calls action.1 next.1, shared := next.2 }

def initial (expirePeriod : AbsTime) (txs : Call → List Tx) : PoolSystem Call Tx where
  calls call := .checking (txs call) [] []
  shared := ⟨.newTxPool expirePeriod, []⟩

/-- How often success has been reported for a hash since it last expired. -/
def acceptedSince (key : Hash) : List (PoolEvent Call Tx) → Nat
  | [] => 0
  | .report _ tx none :: earlier => acceptedSince key earlier + if hash tx = key then 1 else 0
  | .expired txs :: earlier => if ∃ tx ∈ txs, hash tx = key then 0 else acceptedSince key earlier
  | _ :: earlier => acceptedSince key earlier

def acceptedBy [DecidableEq Call] (call : Call) : List (PoolEvent Call Tx) → List Tx
  | [] => []
  | .report reporter tx none :: earlier =>
    acceptedBy call earlier ++ if reporter = call then [tx] else []
  | _ :: earlier => acceptedBy call earlier

/-- Since its last expiry a hash has been accepted at most once, an event holds
what its call has accepted, and the heap has one entry for each key. -/
structure OnceEach [DecidableEq Call] (system : PoolSystem Call Tx) : Prop where
  accepted : ∀ key, acceptedSince hash key system.shared.history ≤ 1
  batches : ∀ call addedTxs, .sent call addedTxs ∈ system.shared.history →
    addedTxs = acceptedBy call system.shared.history
  distinct : (system.shared.pool.txs.map fun entry => hash entry.item).Nodup
  tracked : ∀ key, system.shared.pool.has key ↔
    ∃ entry ∈ system.shared.pool.txs, hash entry.item = key

/-- A call inserts only what is not in the pool at that moment. -/
def Unraced (system : PoolSystem Call Tx) (action : Call × AbsTime) : Prop :=
  ∀ tx todo res addedTxs, system.calls action.1 = .inserting tx todo res addedTxs →
    system.shared.pool.has (hash tx) = false

/-! ## What the steps keep -/

/-- The invariant of a run without races, as far as it is about the pool. -/
structure PoolKept (shared : SharedPool Call Tx) : Prop where
  consistent : shared.pool.Consistent hash
  distinct : (shared.pool.txs.map fun entry => hash entry.item).Nodup
  since : ∀ key, acceptedSince hash key shared.history = if shared.pool.has key then 1 else 0

structure Kept [DecidableEq Call] (system : PoolSystem Call Tx) : Prop
    extends PoolKept hash system.shared where
  adding : ∀ call addedTxs, (system.calls call).added = some addedTxs →
    addedTxs = acceptedBy call system.shared.history
  batches : ∀ call addedTxs, .sent call addedTxs ∈ system.shared.history →
    addedTxs = acceptedBy call system.shared.history ∧ (system.calls call).added = none

variable {hash}

theorem has_iff_entry {pool : TxPool Tx} (consistent : pool.Consistent hash) (key : Hash) :
    pool.has key ↔ ∃ entry ∈ pool.txs, hash entry.item = key := by
  rw [TxPool.has,Option.isSome_iff_exists]
  constructor
  · rintro ⟨tx,found⟩
    rcases (consistent.tracked key tx).mp found with ⟨entry,member,rfl,keyEq⟩
    exact ⟨entry,member,keyEq⟩
  · rintro ⟨entry,member,keyEq⟩
    exact ⟨entry.item,(consistent.tracked key entry.item).mpr ⟨entry,member,rfl,keyEq⟩⟩

theorem entries_insert (pool : TxPool Tx) (tx : Tx) :
    ((pool.insert hash tx).txs.map fun entry => hash entry.item).Perm
      (hash tx :: pool.txs.map fun entry => hash entry.item) :=
  (BinaryHeap.push_perm pool.txs ⟨tx,pool.expirePeriod⟩).map _

theorem has_insert (pool : TxPool Tx) (tx : Tx) (key : Hash) :
    (pool.insert hash tx).has key = (decide (hash tx = key) || pool.has key) := by
  by_cases same : hash tx = key
  · subst same
    simp [TxPool.has,TxPool.insert]
  · simp [TxPool.has,TxPool.insert,Finmap.lookup_insert_of_ne _ (Ne.symm same),same]

theorem has_sweep (pool : TxPool Tx) (now : AbsTime) (key : Hash) : (pool.sweep hash now).has key =
      if ∃ tx ∈ (ExpHeap.expire pool.txs now).1, hash tx = key then false else pool.has key := by
  rw [TxPool.has,TxPool.sweep,lookup_foldl_erase_ite]
  split <;> rfl

theorem sweep_distinct {pool : TxPool Tx} (consistent : pool.Consistent hash) (now : AbsTime)
    (distinct : (pool.txs.map fun entry => hash entry.item).Nodup) :
    ((pool.sweep hash now).txs.map fun entry => hash entry.item).Nodup := by
  have left := (ExpHeap.expire_spec now consistent.heap).2.1
  have leftHashes := left.map fun entry : ExpItem Tx => hash entry.item
  rw [TxPool.sweep,leftHashes.nodup_iff]
  exact distinct.sublist ((List.filter_sublist).map _)

theorem moves_poolKept {call : Call} {now : AbsTime} {before after : AddCall Tx}
    {shared shared' : SharedPool Call Tx}
    (moved : AddCall.Moves hash call now before shared after shared') (kept : PoolKept hash shared)
    (unraced : ∀ tx todo res addedTxs, before = .inserting tx todo res addedTxs →
      shared.pool.has (hash tx) = false) : PoolKept hash shared' := by
  cases moved with
  | sweep res addedTxs =>
    refine ⟨TxPool.sweep_consistent kept.consistent now,
      sweep_distinct kept.consistent now kept.distinct,fun key => ?_⟩
    rw [has_sweep,acceptedSince,kept.since key]
    split <;> rfl
  | known tx todo res addedTxs => exact { kept with }
  | missing tx todo res addedTxs => exact kept
  | insert tx todo res addedTxs =>
    have absent : shared.pool.has (hash tx) = false := unraced tx todo res addedTxs rfl
    refine ⟨TxPool.insert_consistent kept.consistent absent,?_,fun key => ?_⟩
    · rw [(entries_insert shared.pool tx).nodup_iff,List.nodup_cons]
      refine ⟨fun member => ?_,kept.distinct⟩
      rcases List.mem_map.mp member with ⟨entry,there,same⟩
      have present := (has_iff_entry kept.consistent (hash tx)).mpr ⟨entry,there,same⟩
      rw [absent] at present
      cases present
    · rw [has_insert,acceptedSince,kept.since key]
      by_cases same : hash tx = key
      · subst same
        simp [absent]
      · simp [same]
  | send res addedTxs => exact { kept with }

section

variable [DecidableEq Call] {system next : PoolSystem Call Tx} {action : Call × AbsTime}

theorem Kept.onceEach (kept : Kept hash system) : OnceEach hash system where
  accepted key := by
    rw [kept.since]
    split <;> omega
  batches call addedTxs sent := (kept.batches call addedTxs sent).1
  distinct := kept.distinct
  tracked := has_iff_entry kept.consistent

theorem initial_kept (expirePeriod : AbsTime) (txs : Call → List Tx) :
    Kept hash (initial expirePeriod txs) where
  consistent := TxPool.newTxPool_consistent expirePeriod
  distinct := List.nodup_nil
  since key := by simp [initial,acceptedSince,TxPool.newTxPool,TxPool.has]
  adding call addedTxs added := by
    cases added
    rfl
  batches call addedTxs sent := by simp [initial] at sent

theorem step_moves (stepped : step hash action system = some next) :
    ∃ after, AddCall.Moves hash action.1 action.2 (system.calls action.1) system.shared after
        next.shared ∧ next.calls = Function.update system.calls action.1 after := by
  rcases Option.map_eq_some_iff.mp stepped with ⟨⟨after,shared⟩,moved,rfl⟩
  exact ⟨after,AddCall.moves_of_step moved,rfl⟩

structure Accounts (call : Call) (before after : AddCall Tx)
    (history history' : List (PoolEvent Call Tx)) : Prop where
  others : ∀ other, other ≠ call → acceptedBy other history' = acceptedBy other history
  unsent : ∃ addedTxs, before.added = some addedTxs
  added : ∀ addedTxs, after.added = some addedTxs →
    before.added = some (acceptedBy call history) → addedTxs = acceptedBy call history'
  sent : ∀ other addedTxs, .sent other addedTxs ∈ history' → .sent other addedTxs ∈ history ∨
    other = call ∧ before.added = some addedTxs ∧ after.added = none ∧
      acceptedBy call history' = acceptedBy call history

variable {call : Call} {after : AddCall Tx} {history' : List (PoolEvent Call Tx)}

/-- A step that adds nothing and logs neither a success nor a batch. -/
theorem accounts_of_same {before : AddCall Tx} {addedTxs : List Tx}
    {history : List (PoolEvent Call Tx)} (beforeAdded : before.added = some addedTxs)
    (afterAdded : after.added = some addedTxs)
    (accepted : ∀ other, acceptedBy other history' = acceptedBy other history)
    (sent : ∀ other txs, .sent other txs ∈ history' → .sent other txs ∈ history) :
    Accounts call before after history history' where
  others other _ := accepted other
  unsent := ⟨addedTxs,beforeAdded⟩
  added txs addedEq same := by
    rw [accepted]
    exact Option.some_inj.mp (addedEq.symm.trans (afterAdded.trans (beforeAdded.symm.trans same)))
  sent other txs logged := Or.inl (sent other txs logged)

theorem moves_accounts {now : AbsTime} {before : AddCall Tx} {shared shared' : SharedPool Call Tx}
    (moved : AddCall.Moves hash call now before shared after shared') :
    Accounts call before after shared.history shared'.history := by
  cases moved with
  | sweep res addedTxs => exact accounts_of_same rfl rfl (fun _ => rfl) (by simp)
  | known tx todo res addedTxs => exact accounts_of_same rfl rfl (fun _ => rfl) (by simp)
  | missing tx todo res addedTxs =>
    exact accounts_of_same rfl rfl (fun _ => rfl) (fun _ _ logged => logged)
  | insert tx todo res addedTxs =>
    refine ⟨?_,⟨_,rfl⟩,?_,?_⟩
    · intro other different
      simp [acceptedBy,Ne.symm different]
    · rintro _ ⟨⟩ same
      have addedEq : addedTxs = acceptedBy call shared.history := Option.some_inj.mp same
      simp [acceptedBy,addedEq]
    · intro other txs sent
      left
      simpa using sent
  | send res addedTxs =>
    refine ⟨fun _ _ => rfl,⟨_,rfl⟩,?_,?_⟩
    · rintro _ ⟨⟩
    · intro other txs sent
      rcases List.mem_cons.mp sent with here | earlier
      · cases here
        exact Or.inr ⟨rfl,rfl,rfl,rfl⟩
      · exact Or.inl earlier

theorem Accounts.adding
    (accounts : Accounts call (system.calls call) after system.shared.history history')
    (kept : Kept hash system) :
    ∀ other addedTxs, (Function.update system.calls call after other).added = some addedTxs →
      addedTxs = acceptedBy other history' := by
  intro other addedTxs added
  rcases accounts.unsent with ⟨before,beforeAdded⟩
  by_cases same : other = call
  · subst same
    rw [Function.update_self] at added
    apply accounts.added addedTxs added
    rw [beforeAdded,kept.adding other before beforeAdded]
  · rw [Function.update_of_ne same] at added
    rw [accounts.others other same]
    exact kept.adding other addedTxs added

theorem Accounts.batches
    (accounts : Accounts call (system.calls call) after system.shared.history history')
    (kept : Kept hash system) : ∀ other addedTxs, .sent other addedTxs ∈ history' →
      addedTxs = acceptedBy other history' ∧
        (Function.update system.calls call after other).added = none := by
  intro other addedTxs sent
  rcases accounts.sent other addedTxs sent with earlier | ⟨rfl,unsent,returned,unchanged⟩
  · rcases kept.batches other addedTxs earlier with ⟨addedEq,returned⟩
    have different : other ≠ call := by
      rintro rfl
      rcases accounts.unsent with ⟨before,beforeAdded⟩
      rw [returned] at beforeAdded
      cases beforeAdded
    rw [accounts.others other different,Function.update_of_ne different]
    exact ⟨addedEq,returned⟩
  · rw [unchanged,Function.update_self]
    exact ⟨kept.adding other addedTxs unsent,returned⟩

theorem step_kept (kept : Kept hash system) (unraced : Unraced hash system action)
    (stepped : step hash action system = some next) : Kept hash next := by
  rcases step_moves stepped with ⟨after,moved,callsEq⟩
  have accounts := moves_accounts moved
  have pools := moves_poolKept moved kept.toPoolKept unraced
  refine ⟨pools,?_,?_⟩
  · rw [callsEq]
    exact accounts.adding kept
  · rw [callsEq]
    exact accounts.batches kept

/-- An insertion of what is already there leaves two entries for one hash. -/
theorem step_raced (kept : Kept hash system) (raced : ¬ Unraced hash system action)
    (stepped : step hash action system = some next) : ¬ OnceEach hash next := by
  intro once
  rw [Unraced] at raced
  push Not at raced
  rcases raced with ⟨tx,todo,res,addedTxs,inserting,present⟩
  rw [step,inserting] at stepped
  cases stepped
  have distinct := once.distinct
  rw [(entries_insert system.shared.pool tx).nodup_iff,List.nodup_cons] at distinct
  have there : system.shared.pool.has (hash tx) = true := by simpa using present
  rcases (has_iff_entry kept.consistent (hash tx)).mp there with ⟨entry,member,same⟩
  exact distinct.1 (List.mem_map.mpr ⟨entry,member,same⟩)

/-- Under every interleaving of the calls, acceptance is once each exactly as
long as no call inserts what another has inserted since its test. -/
theorem onceEach_iff_unraced (expirePeriod : AbsTime) (txs : Call → List Tx)
    (schedule : List (Call × AbsTime)) :
    Always (step hash) (OnceEach hash) (initial expirePeriod txs) schedule ↔
      Guarded (step hash) (Unraced hash) (initial expirePeriod txs) schedule :=
  always_iff_guarded (fun _ _ _ => step_kept) (fun _ => Kept.onceEach) (fun _ _ _ => step_raced)
    (initial_kept expirePeriod txs)

/-- Two calls with one transaction both test before either inserts. -/
theorem accepted_twice : ∃ last, runAll (step ObjectCodec.byte.hash) (initial 0 fun _ : Bool => [7])
      [(false, 0), (true, 0), (false, 0), (true, 0)] = some last ∧
    acceptedSince ObjectCodec.byte.hash (ObjectCodec.byte.hash 7) last.shared.history = 2 ∧
    last.shared.pool.txs.map ExpItem.item = [7, 7] ∧ ¬ OnceEach ObjectCodec.byte.hash last := by
  refine ⟨_,rfl,by decide +kernel,by decide +kernel,fun once => ?_⟩
  have twice := once.accepted (ObjectCodec.byte.hash 7)
  revert twice
  decide +kernel

end

end PoolSystem

end PioplatRelay
