import PioplatRelay.BlockQueue
import PioplatRelay.StepRuns

/-!
# The head of the chain

`importBlocks` enqueues every block in a goroutine of its own.  A call of
`EnqueueNewBlock` compares its block with the current one and then replaces it, in
two steps.  The number of the head never decreases, and ends as the largest one,
exactly as long as no call replaces a block that is higher than its own.
-/

namespace PioplatRelay

open ObjectCodec List

inductive EnqueueCall
  | starting
  | pushing
  | announcing
  | comparing
  | assigning
  | finished
  deriving DecidableEq

/-- The chain and the calls, with the blocks announced to feeds and clients and
the former heads, the newest first. -/
structure ChainHead (Call Block : Type*) where
  currentBlock : Block
  blockContainer : FixedSizeBlockQueue Block
  calls : Call → EnqueueCall
  announced : List Block
  formerHeads : List Block

namespace ChainHead

variable {Call Block : Type*} [DecidableEq Call] (number : Block → UInt64) (hash : Block → Hash)
  (blocks : Call → Block)

def moveCall (chain : ChainHead Call Block) (call : Call) (stage : EnqueueCall) :
    ChainHead Call Block :=
  { chain with calls := Function.update chain.calls call stage }

def enqueueNewBlock (call : Call) (chain : ChainHead Call Block) :
    Option (ChainHead Call Block) :=
  let block := blocks call
  match chain.calls call with
  | .starting =>
    if chain.blockContainer.exist hash (hash block) (number block) then
      some (chain.moveCall call .comparing)
    else some (chain.moveCall call .pushing)
  | .pushing =>
    some { chain.moveCall call .announcing with
      blockContainer := chain.blockContainer.push number hash block }
  | .announcing =>
    some { chain.moveCall call .comparing with announced := block :: chain.announced }
  | .comparing =>
    if number chain.currentBlock < number block ∧ hash block ≠ hash chain.currentBlock then
      some (chain.moveCall call .assigning)
    else some (chain.moveCall call .finished)
  | .assigning =>
    some { chain.moveCall call .finished with
      currentBlock := block
      formerHeads := chain.currentBlock :: chain.formerHeads }
  | .finished => none

def beginning (head : Block) (blockContainer : FixedSizeBlockQueue Block) :
    ChainHead Call Block where
  currentBlock := head
  blockContainer := blockContainer
  calls _ := .starting
  announced := []
  formerHeads := []

/-- The heads so far have never fallen in number, and once all calls have
finished the head has the largest number of all. -/
structure Rising (head : Block) (chain : ChainHead Call Block) : Prop where
  heads : ((chain.currentBlock :: chain.formerHeads).map number).Pairwise (· ≥ ·)
  highest : (∀ call, chain.calls call = .finished) →
    number head ≤ number chain.currentBlock ∧
    (∀ call, number (blocks call) ≤ number chain.currentBlock) ∧
    (chain.currentBlock = head ∨ ∃ call, chain.currentBlock = blocks call)

/-- A call replaces only a block that is not higher than its own. -/
def NotOvertaken (chain : ChainHead Call Block) (call : Call) : Prop :=
  chain.calls call = .assigning → number chain.currentBlock ≤ number (blocks call)

structure Kept (head : Block) (chain : ChainHead Call Block) : Prop where
  heads : ((chain.currentBlock :: chain.formerHeads).map number).Pairwise (· ≥ ·)
  above : number head ≤ number chain.currentBlock
  covered : ∀ call, chain.calls call = .finished →
    number (blocks call) ≤ number chain.currentBlock
  known : chain.currentBlock = head ∨ ∃ call, chain.currentBlock = blocks call

/-- What a step can do to the head. -/
inductive Moves (chain : ChainHead Call Block) (call : Call) : ChainHead Call Block → Prop
  | proceed (stage : EnqueueCall) (unfinished : stage ≠ .finished)
      (blockContainer : FixedSizeBlockQueue Block) (announced : List Block) :
      Moves chain call { chain.moveCall call stage with blockContainer, announced }
  | leave (lower : ¬ (number chain.currentBlock < number (blocks call) ∧
        hash (blocks call) ≠ hash chain.currentBlock)) :
      Moves chain call (chain.moveCall call .finished)
  | assign (assigning : chain.calls call = .assigning) :
      Moves chain call { chain.moveCall call .finished with
        currentBlock := blocks call
        formerHeads := chain.currentBlock :: chain.formerHeads }

variable {number hash blocks} {head : Block} {chain next : ChainHead Call Block} {call : Call}

omit [DecidableEq Call] in
theorem Kept.rising (kept : Kept number blocks head chain) : Rising number blocks head chain where
  heads := kept.heads
  highest finished := ⟨kept.above,fun call => kept.covered call (finished call),kept.known⟩

omit [DecidableEq Call] in
theorem beginning_kept (head : Block) (blockContainer : FixedSizeBlockQueue Block) :
    Kept number blocks head (beginning head blockContainer) where
  heads := by simp [beginning]
  above := UInt64.le_refl _
  covered call finished := by cases finished
  known := Or.inl rfl

theorem moves_of_step (stepped : enqueueNewBlock number hash blocks call chain = some next) :
    Moves number hash blocks chain call next := by
  cases stageEq : chain.calls call with
  | starting =>
    simp only [enqueueNewBlock,stageEq] at stepped
    split at stepped
    · cases stepped
      exact .proceed .comparing (by decide) chain.blockContainer chain.announced
    · cases stepped
      exact .proceed .pushing (by decide) chain.blockContainer chain.announced
  | pushing =>
    simp only [enqueueNewBlock,stageEq] at stepped
    cases stepped
    exact .proceed .announcing (by decide) _ chain.announced
  | announcing =>
    simp only [enqueueNewBlock,stageEq] at stepped
    cases stepped
    exact .proceed .comparing (by decide) chain.blockContainer _
  | comparing =>
    simp only [enqueueNewBlock,stageEq] at stepped
    split at stepped
    · cases stepped
      exact .proceed .assigning (by decide) chain.blockContainer chain.announced
    · rename_i lower
      cases stepped
      exact .leave lower
  | assigning =>
    simp only [enqueueNewBlock,stageEq] at stepped
    cases stepped
    exact .assign stageEq
  | finished =>
    simp only [enqueueNewBlock,stageEq] at stepped
    cases stepped

theorem finished_of_update {calls : Call → EnqueueCall} {stage : EnqueueCall} {other : Call}
    (finished : Function.update calls call stage other = .finished) :
    other = call ∧ stage = .finished ∨ calls other = .finished := by
  by_cases same : other = call
  · subst same
    rw [Function.update_self] at finished
    exact Or.inl ⟨rfl,finished⟩
  · rw [Function.update_of_ne same] at finished
    exact Or.inr finished

theorem step_kept (numbered : ∀ first second, hash first = hash second →
      number first = number second)
    (kept : Kept number blocks head chain) (notOvertaken : NotOvertaken number blocks chain call)
    (stepped : enqueueNewBlock number hash blocks call chain = some next) :
    Kept number blocks head next := by
  cases moves_of_step stepped with
  | proceed stage unfinished blockContainer announced =>
    refine { kept with covered := fun other finished => ?_ }
    rcases finished_of_update finished with ⟨-,done⟩ | before
    · exact absurd done unfinished
    · exact kept.covered other before
  | leave lower =>
    refine { kept with covered := fun other finished => ?_ }
    rcases finished_of_update finished with ⟨rfl,-⟩ | before
    · -- A call leaves without an assignment only below the head or at it.
      by_cases same : hash (blocks other) = hash chain.currentBlock
      · exact UInt64.le_of_eq (numbered _ _ same)
      · exact UInt64.not_lt.mp fun higher => lower ⟨higher,same⟩
    · exact kept.covered other before
  | assign assigning =>
    have rises := notOvertaken assigning
    refine ⟨?_,UInt64.le_trans kept.above rises,fun other finished => ?_,Or.inr ⟨call,rfl⟩⟩
    · refine pairwise_cons.mpr ⟨fun former member => ?_,kept.heads⟩
      rcases mem_cons.mp member with rfl | earlier
      · exact rises
      · exact UInt64.le_trans ((pairwise_cons.mp kept.heads).1 former earlier) rises
    · rcases finished_of_update finished with ⟨rfl,-⟩ | before
      · exact UInt64.le_refl _
      · exact UInt64.le_trans (kept.covered other before) rises

theorem step_overtaken (overtaken : ¬ NotOvertaken number blocks chain call)
    (stepped : enqueueNewBlock number hash blocks call chain = some next) :
    ¬ Rising number blocks head next := by
  intro rising
  rw [NotOvertaken,Classical.not_imp] at overtaken
  simp only [enqueueNewBlock,overtaken.1] at stepped
  cases stepped
  have heads := (pairwise_cons.mp rising.heads).1
  exact overtaken.2 (heads _ (mem_map_of_mem mem_cons_self))

/-- Under every interleaving of the calls the head rises exactly as long as no
call replaces a higher block; a block's hash is taken to fix its number. -/
theorem rising_iff_notOvertaken (number : Block → UInt64) (hash : Block → Hash)
    (numbered : ∀ first second, hash first = hash second → number first = number second)
    (blocks : Call → Block) (head : Block) (blockContainer : FixedSizeBlockQueue Block)
    (schedule : List Call) : Always (enqueueNewBlock number hash blocks) (Rising number blocks head)
        (beginning head blockContainer) schedule ↔
      Guarded (enqueueNewBlock number hash blocks) (NotOvertaken number blocks)
        (beginning head blockContainer) schedule :=
  always_iff_guarded (fun _ _ _ => step_kept numbered) (fun _ => Kept.rising)
    (fun _ _ _ _ => step_overtaken) (beginning_kept head blockContainer)

theorem byte_numbered (first second : UInt8) (same : byte.hash first = byte.hash second) :
    first.toUInt64 = second.toUInt64 := by
  have last := congrArg (fun hash => hash.bytes.getLast?) same
  simp only [byte,getLast?_append,getLast?_singleton,Option.some_or,Option.some_inj] at last
  rw [last]

/-- Two calls take their steps in turn, and the lower block is assigned first. -/
theorem rising_of_turns :
    Always (enqueueNewBlock UInt8.toUInt64 byte.hash fun call : Bool => if call then 6 else 5)
      (Rising UInt8.toUInt64 (fun call : Bool => if call then 6 else 5) 1)
      (beginning 1 (.newFixedSizeBlockQueue 128))
      [false, true, false, true, false, true, false, true, false, true] := by
  apply (rising_iff_notOvertaken UInt8.toUInt64 byte.hash byte_numbered _ 1 _ _).mpr
  repeat refine .cons rfl (fun assigning => by revert assigning; decide) ?_
  exact trivial

/-- The calls for blocks 5 and 6 both compare with block 1; the call for block 5
assigns last. -/
theorem head_falls : ∃ last,
    runAll (enqueueNewBlock UInt8.toUInt64 byte.hash
        fun call : Bool => if call then 6 else 5)
      (beginning 1 (.newFixedSizeBlockQueue 128))
      [false, false, false, false, true, true, true, true, true, false] = some last ∧
    (∀ call, last.calls call = .finished) ∧ last.currentBlock = 5 ∧
    last.formerHeads = [6, 1] ∧
    ¬ Rising UInt8.toUInt64 (fun call : Bool => if call then 6 else 5) 1 last := by
  refine ⟨_,rfl,by decide,rfl,rfl,fun rising => ?_⟩
  have heads := rising.heads
  revert heads
  decide

end ChainHead

end PioplatRelay
