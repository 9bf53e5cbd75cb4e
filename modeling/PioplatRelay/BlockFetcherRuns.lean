import PioplatRelay.BlockFetcher
import PioplatRelay.StepRuns

/-!
# Runs of the block fetcher

A round of the fetcher's loop forgets the fetches that have expired, imports what
is queued one block after the other, and then waits for an event.  The goroutines
of the imports run beside the loop; each sends `done` once, after `insertChain` has
returned.  Here every part is a step of its own.
-/

namespace PioplatRelay

open List Option BinaryHeap

variable {Header Tx : Type}

namespace BlockFetcher

inductive Point
  | expiring
  | importing
  | selecting
  deriving DecidableEq

structure Looping (Header Tx : Type) where
  point : Point
  fetcher : BlockFetcher Header Tx

def Event.isDone : Event Header Tx → Bool
  | .done _ => true
  | _ => false

def expireFetches (choices : Choices) (f : BlockFetcher Header Tx) : BlockFetcher Header Tx :=
  (choices.fetchingOrder.order f.fetching.keys).foldl (expireFetch choices) f

/-! ## What an event does to the imports -/

structure SameImports (f g : BlockFetcher Header Tx) : Prop where
  queue : g.queue = f.queue
  queues : g.queues = f.queues
  queued : g.queued = f.queued
  importing : g.importing = f.importing
  imported : g.imported = f.imported

/-- Blocks are enqueued one after the other, and nothing else happens to the
imports. -/
inductive Enqueues (format : BlockFormat Header Tx) (f : BlockFetcher Header Tx) :
    BlockFetcher Header Tx → Prop
  | none : Enqueues format f f
  | same {g h : BlockFetcher Header Tx} (before : Enqueues format f g)
      (sameImports : SameImports g h) : Enqueues format f h
  | enqueue {g : BlockFetcher Header Tx} (before : Enqueues format f g) (peer : String)
      (block : ChainBlock Header Tx) : Enqueues format f (g.enqueue format peer block)

variable {format : BlockFormat Header Tx} {f g h : BlockFetcher Header Tx} {choices : Choices}

theorem SameImports.refl (f : BlockFetcher Header Tx) : SameImports f f := ⟨rfl,rfl,rfl,rfl,rfl⟩

theorem SameImports.trans (first : SameImports f g) (second : SameImports g h) :
    SameImports f h where
  queue := second.queue.trans first.queue
  queues := second.queues.trans first.queues
  queued := second.queued.trans first.queued
  importing := second.importing.trans first.importing
  imported := second.imported.trans first.imported

theorem SameImports.foldl {State Item : Type} (fetcher : State → BlockFetcher Header Tx)
    {round : State → Item → State}
    (once : ∀ state item, SameImports (fetcher state) (fetcher (round state item)))
    (items : List Item) (state : State) :
    SameImports (fetcher state) (fetcher (items.foldl round state)) := by
  induction items generalizing state with
  | nil => exact .refl _
  | cons item items ih => exact (once state item).trans (ih (round state item))

section

variable (f)

theorem sameImports_forgetHash (hash : Hash) : SameImports f (f.forgetHash hash) :=
  ⟨rfl,rfl,rfl,rfl,rfl⟩

theorem sameImports_expireFetches (choices : Choices) :
    SameImports f (f.expireFetches choices) := by
  apply SameImports.foldl id
  intro f hash
  unfold expireFetch
  split
  · split
    · exact sameImports_forgetHash f hash
    · exact .refl f
  · exact .refl f

theorem sameImports_notify (origin : String) (hash : Hash)
    (number : UInt64) (time : AbsTime) : SameImports f (f.notify origin hash number time) := by
  unfold notify
  dsimp only
  split
  · exact .refl f
  split
  · exact .refl f
  split
  · exact .refl f
  split
  · exact .refl f
  · exact ⟨rfl,rfl,rfl,rfl,rfl⟩

theorem sameImports_fetchHeaders (choices : Choices) : SameImports f (f.fetchHeaders choices) := by
  refine fetchHeaders_kept (.refl f) ?_ fun _ same => { same with }
  intro g hash next same step
  cases step with
  | skip => exact same
  | known | fetch => exact { same with }

theorem sameImports_fetchBodies (choices : Choices) : SameImports f (f.fetchBodies choices) := by
  refine fetchBodies_kept (.refl f) ?_ fun _ same => { same with }
  intro g hash next same step
  cases step with
  | skip => exact same
  | known | complete => exact { same with }

end

theorem sameImports_filterHeader (known : Hash → Bool) (peer : String) (time : AbsTime)
    (state : HeaderFilter Header Tx) (header : Header) : SameImports state.fetcher
      (filterHeader format known peer time state header).fetcher := by
  unfold filterHeader
  dsimp only
  split
  · split
    · split
      · exact ⟨rfl,rfl,rfl,rfl,rfl⟩
      · split
        · exact sameImports_forgetHash _ _
        · split <;> exact ⟨rfl,rfl,rfl,rfl,rfl⟩
    · exact .refl _
  · exact .refl _

theorem sameImports_keepIncomplete (f : BlockFetcher Header Tx)
    (announce : BlockAnnounce Header) : SameImports f (keepIncomplete format f announce) := by
  unfold keepIncomplete
  split
  · dsimp only
    split
    · exact .refl f
    · exact ⟨rfl,rfl,rfl,rfl,rfl⟩
  · exact .refl f

variable {state after : BlockFetcher Header Tx × List (ChainBlock Header Tx)} {peer : String}

theorem sameImports_matchBody {known : Hash → Bool} {transactions : List Tx}
    {uncles : List Header} {hash : Hash}
    (result : matchBody format known peer transactions uncles state hash = some after) :
    SameImports state.1 after.1 := by
  unfold matchBody at result
  dsimp only at result
  split at result
  · split at result
    · cases result
      exact .refl _
    · obtain ⟨header,-,rfl⟩ := map_eq_some_iff.mp result
      split
      · exact .refl _
      · split
        · exact .refl _
        · split
          · exact sameImports_forgetHash _ _
          · exact .refl _
  · cases result
    exact .refl _

theorem sameImports_matchBodies {i : Nat} {bodies : List (List Tx × List Header)}
    (result : matchBodies format choices peer i bodies state = some after) :
    SameImports state.1 after.1 := by
  induction bodies generalizing i state with
  | nil =>
    cases result
    exact .refl _
  | cons body bodies ih =>
    obtain ⟨middle,first,rest⟩ := bind_eq_some_iff.mp result
    have one : SameImports state.1 middle.1 :=
      Loop.foldlM_kept (fun after => SameImports state.1 after.1)
        (fun _ _ _ before once => before.trans (sameImports_matchBody once)) (.refl _) first
    exact one.trans (ih rest)

theorem Enqueues.enqueueCompleted (enqueues : Enqueues format f g)
    (blocks : List (ChainBlock Header Tx)) :
    Enqueues format f (blocks.foldl (BlockFetcher.enqueueCompleted format) g) := by
  induction blocks generalizing g with
  | nil => exact enqueues
  | cons block blocks ih =>
    apply ih
    unfold BlockFetcher.enqueueCompleted
    split
    · exact enqueues.enqueue _ block
    · exact enqueues

/-- Every event but `done` does no more to the imports than to enqueue blocks. -/
theorem enqueues_of_handle {event : Event Header Tx} (notDone : event.isDone = false)
    (handled : f.handle format choices event = some g) : Enqueues format f g := by
  cases event with
  | notify origin hash number time =>
    cases handled
    exact Enqueues.none.same (sameImports_notify f origin hash number time)
  | inject origin block =>
    cases handled
    exact Enqueues.none.enqueue origin block
  | done hash => cases notDone
  | fetchTimer =>
    cases handled
    exact Enqueues.none.same (sameImports_fetchHeaders f choices)
  | completeTimer =>
    cases handled
    exact Enqueues.none.same (sameImports_fetchBodies f choices)
  | filterHeaders peer headers time =>
    cases handled
    apply Enqueues.enqueueCompleted
    have once (state : HeaderFilter Header Tx) (entry : Header × Nat) : SameImports state.fetcher
        (filterHeader format (choices.known entry.2) peer time state entry.1).fetcher :=
      sameImports_filterHeader _ _ _ _ _
    have filtered := SameImports.foldl HeaderFilter.fetcher once headers.zipIdx ⟨f,[],[]⟩
    exact (Enqueues.none.same filtered).same
      (SameImports.foldl id sameImports_keepIncomplete _ _)
  | filterBodies peer transactions uncles =>
    obtain ⟨⟨after,blocks⟩,matched,rest⟩ := bind_eq_some_iff.mp handled
    cases rest
    exact (Enqueues.none.same (sameImports_matchBodies matched)).enqueueCompleted blocks

/-! ## The steps -/

namespace Looping

def start : Looping Header Tx := ⟨.expiring,newBlockFetcher⟩

inductive Action (Header Tx : Type)
  | expire (choices : Choices)
  | importNext
  | wait
  | handle (choices : Choices) (event : Event Header Tx)
  | insert (i : Nat)
  | done (i : Nat)

variable (format : BlockFormat Header Tx)

def step : Action Header Tx → Looping Header Tx → Option (Looping Header Tx)
  | .expire choices, ⟨.expiring,f⟩ => some ⟨.importing,f.expireFetches choices⟩
  | .importNext, ⟨.importing,f⟩ => do
      let (op, queue) ← pop (queueKey format) f.queue
      return ⟨.importing,{ f with queue }.importBlocks op⟩
  | .wait, ⟨.importing,f⟩ => if f.queue.isEmpty then some ⟨.selecting,f⟩ else none
  | .handle choices event, ⟨.selecting,f⟩ =>
    if event.isDone then none
    else (f.handle format choices event).map fun after => ⟨.expiring,after⟩
  | .insert i, ⟨point,f⟩ => do
      let op ← f.importing[i]?
      return ⟨point, { f with
        importing := f.importing.eraseIdx i
        imported := f.imported ++ [format.blockHash op.block] }⟩
  | .done i, ⟨.selecting,f⟩ => do
      let hash ← f.imported[i]?
      let f := { f with imported := f.imported.eraseIdx i }
      return ⟨.expiring, (f.forgetHash hash).forgetBlock hash⟩
  | _, _ => none

inductive Stepped : Action Header Tx → Looping Header Tx → Looping Header Tx → Prop
  | expire (choices : Choices) (f : BlockFetcher Header Tx) :
      Stepped (.expire choices) ⟨.expiring,f⟩ ⟨.importing,f.expireFetches choices⟩
  | importNext {f : BlockFetcher Header Tx} {op : BlockInject Header Tx}
      {queue : List (BlockInject Header Tx)} (sameItems : (op :: queue).Perm f.queue) :
      Stepped .importNext ⟨.importing,f⟩ ⟨.importing,{ f with queue }.importBlocks op⟩
  | wait {f : BlockFetcher Header Tx} (empty : f.queue = []) :
      Stepped .wait ⟨.importing,f⟩ ⟨.selecting,f⟩
  | handle {choices : Choices} {event : Event Header Tx} {f after : BlockFetcher Header Tx}
      (notDone : event.isDone = false) (handled : f.handle format choices event = some after) :
      Stepped (.handle choices event) ⟨.selecting,f⟩ ⟨.expiring,after⟩
  | insert {i : Nat} {point : Point} {f : BlockFetcher Header Tx} {op : BlockInject Header Tx}
      (running : f.importing[i]? = some op) :
      Stepped (.insert i) ⟨point,f⟩ ⟨point, { f with
        importing := f.importing.eraseIdx i
        imported := f.imported ++ [format.blockHash op.block] }⟩
  | done {i : Nat} {f : BlockFetcher Header Tx} {hash : Hash}
      (sent : f.imported[i]? = some hash) :
      Stepped (.done i) ⟨.selecting,f⟩
        ⟨.expiring, (({ f with imported := f.imported.eraseIdx i }).forgetHash hash).forgetBlock
          hash⟩

variable {format} {s next : Looping Header Tx} {action : Action Header Tx}

theorem stepped_of_step (stepped : step format action s = some next) :
    Stepped format action s next := by
  obtain ⟨point,f⟩ := s
  cases action with
  | expire choices =>
    cases point <;> cases stepped
    exact .expire choices f
  | importNext =>
    cases point with
    | importing =>
      obtain ⟨⟨op,queue⟩,popped,nextEq⟩ := bind_eq_some_iff.mp stepped
      cases nextEq
      exact .importNext (pop_perm popped)
    | expiring | selecting => cases stepped
  | wait =>
    cases point with
    | importing =>
      obtain ⟨empty,nextEq⟩ := ite_none_right_eq_some.mp stepped
      cases nextEq
      exact .wait (isEmpty_iff.mp empty)
    | expiring | selecting => cases stepped
  | handle choices event =>
    cases point with
    | selecting =>
      obtain ⟨notDone,handled⟩ := ite_none_left_eq_some.mp stepped
      obtain ⟨after,handledEq,rfl⟩ := map_eq_some_iff.mp handled
      exact .handle (Bool.eq_false_of_not_eq_true notDone) handledEq
    | expiring | importing => cases stepped
  | insert i =>
    obtain ⟨op,running,nextEq⟩ := bind_eq_some_iff.mp stepped
    cases nextEq
    exact .insert running
  | done i =>
    cases point with
    | selecting =>
      obtain ⟨hash,sent,nextEq⟩ := bind_eq_some_iff.mp stepped
      cases nextEq
      exact .done sent
    | expiring | importing => cases stepped

def Drained (s : Looping Header Tx) : Prop := s.point = .selecting → s.fetcher.queue = []

theorem step_drained (drained : s.Drained) (stepped : step format action s = some next) :
    next.Drained := by
  cases stepped_of_step stepped with
  | wait empty => exact fun _ => empty
  | insert => exact drained
  | expire | importNext | handle | done =>
    intro waiting
    cases waiting

/-- The imports of a round, one by one, leave the queue empty. -/
theorem runAll_imports (f : BlockFetcher Header Tx) :
    runAll (step format) ⟨.importing,f⟩ (replicate f.queue.length .importNext ++ [.wait]) =
        some ⟨.selecting,importQueued format f.queue.length f⟩ := by
  induction sizeEq : f.queue.length generalizing f with
  | zero =>
    have empty : f.queue.isEmpty := by rw [isEmpty_iff_length_eq_zero,sizeEq]
    rw [replicate_zero,nil_append,runAll_cons,step,if_pos empty]
    rfl
  | succ size ih =>
    have nonempty : f.queue ≠ [] := by
      rw [← length_pos_iff]
      omega
    obtain ⟨op,queue,popped⟩ := exists_pop (queueKey format) nonempty
    have queueSize : queue.length = size := by
      have same := (pop_perm popped).length_eq
      rw [length_cons] at same
      omega
    rw [replicate_succ,cons_append,runAll_cons,step,importQueued]
    simp only [popped]
    exact ih ({ f with queue }.importBlocks op) queueSize

theorem runAll_round {choices : Choices} {event : Event Header Tx}
    {f after : BlockFetcher Header Tx} (notDone : event.isDone = false)
    (looped : f.loop format choices event = some after) :
    ∃ actions, runAll (step format) ⟨.selecting,f⟩ actions = some ⟨.selecting,after⟩ := by
  obtain ⟨handled,handledEq,rfl⟩ := map_eq_some_iff.mp looped
  refine ⟨.handle choices event :: .expire choices ::
    (replicate (handled.expireFetches choices).queue.length .importNext ++ [.wait]),?_⟩
  rw [runAll_cons,step,if_neg (by rw [notDone]; exact Bool.false_ne_true),handledEq]
  exact runAll_imports (handled.expireFetches choices)

end Looping

end BlockFetcher

end PioplatRelay
