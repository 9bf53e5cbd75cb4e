import PioplatRelay.RelayTransport
import PioplatRelay.TxPool

/-!
# The memory of the relay server

The server remembers the hash of every object it has been given.  Emptying that
memory every minute is the work of `cleanHashSent`, which `Start` does not start.  A
started server therefore keeps every hash for as long as it runs.
-/

namespace PioplatRelay

open ServerAction

variable {Block Tx : Type*} {format : RelayFormat Block Tx}

namespace ServerAction

/-- The object a call passes to `BroadcastBlock` or `BroadcastTransaction`. -/
def object : ServerAction Block Tx → Option (Block ⊕ Tx)
  | .broadcastBlock block => some (.inl block)
  | .broadcastTransaction tx => some (.inr tx)
  | _ => none

/-- The steps of the goroutines `Start` starts and of their callers. -/
def ofStart : ServerAction Block Tx → Bool
  | .cleanHashSent => false
  | _ => true

end ServerAction

namespace PioplatServer

def twoMinutes : AbsTime := 120000000000

/-- The hashes passed to the two calls, each with the time of the call. -/
def passed (format : RelayFormat Block Tx) (calls : List (AbsTime × ServerAction Block Tx)) :
    List (AbsTime × Hash) :=
  calls.filterMap fun call => call.2.object.map fun object => (call.1, format.hash object)

def PassedSince (format : RelayFormat Block Tx) (calls : List (AbsTime × ServerAction Block Tx))
    (start : AbsTime) (hash : Hash) : Prop :=
  ∃ time, (time, hash) ∈ passed format calls ∧ start ≤ time

variable {server last next : PioplatServer format} {hash : Hash}

theorem mem_hashSent_broadcast (object : Block ⊕ Tx) : hash ∈ (server.broadcast object).hashSent ↔
      hash ∈ server.hashSent ∨ hash = format.hash object := by
  rw [broadcast]
  split
  · rename_i known
    constructor
    · exact Or.inl
    · rintro (before | rfl)
      exacts [before,known]
  · dsimp only
    split <;> simp [or_comm]

theorem mem_hashSent_step {action : ServerAction Block Tx} (started : action.ofStart = true)
    (stepped : step action server = some next) : hash ∈ next.hashSent ↔ hash ∈ server.hashSent ∨
        ∃ object, action.object = some object ∧ hash = format.hash object := by
  cases action with
  | broadcastBlock block =>
    cases stepped
    simp [object,mem_hashSent_broadcast]
  | broadcastTransaction tx =>
    cases stepped
    simp [object,mem_hashSent_broadcast]
  | cleanHashSent => cases started
  | addPeer | receive | spawn | endRange | send | remove =>
    have same : next.hashSent = server.hashSent := by
      simp only [step] at stepped
      grind
    simp [object,same]

/-- A started server forgets nothing: its memory has every hash passed to it. -/
theorem mem_hashSent_run {calls : List (AbsTime × ServerAction Block Tx)}
    (started : ∀ call ∈ calls, call.2.ofStart = true)
    (run : runAll step server (calls.map Prod.snd) = some last) :
    hash ∈ last.hashSent ↔ hash ∈ server.hashSent ∨ ∃ time, (time, hash) ∈ passed format calls := by
  induction calls generalizing server with
  | nil =>
    cases run
    simp [passed]
  | cons call calls ih =>
    rw [List.map_cons,runAll_cons] at run
    obtain ⟨next,stepped,later⟩ := Option.bind_eq_some_iff.mp run
    rw [List.forall_mem_cons] at started
    rw [ih started.2 later,mem_hashSent_step started.1 stepped,or_assoc]
    apply or_congr_right
    cases given : call.2.object with
    | none => simp [passed,given]
    | some object => simp [passed,given,exists_or]

/-- The memory is that of two minutes exactly where every hash of the run has
been passed again within them. -/
theorem hashSent_recent_iff (format : RelayFormat Block Tx)
    (calls : List (AbsTime × ServerAction Block Tx))
    (started : ∀ call ∈ calls, call.2.ofStart = true) (server : PioplatServer format)
    (run : runAll step {} (calls.map Prod.snd) = some server) (now : AbsTime) :
    (∀ hash ∈ server.hashSent, PassedSince format calls (now - twoMinutes) hash) ↔
      ∀ entry ∈ passed format calls, PassedSince format calls (now - twoMinutes) entry.2 := by
  have remembered (hash : Hash) :
      hash ∈ server.hashSent ↔ ∃ time, (time, hash) ∈ passed format calls := by
    rw [mem_hashSent_run started run]
    simp
  simp only [remembered]
  constructor
  · intro recent entry member
    exact recent entry.2 ⟨entry.1,member⟩
  · rintro recent hash ⟨time,member⟩
    exact recent _ member

theorem hashSent_recent_one_minute : ∃ server : PioplatServer byteFormat,
    runAll step {} [.broadcastTransaction 7] = some server ∧ ∀ hash ∈ server.hashSent,
      PassedSince byteFormat [(0, .broadcastTransaction 7)] (60000000000 - twoMinutes) hash := by
  refine ⟨_,rfl,(hashSent_recent_iff byteFormat [(0, .broadcastTransaction 7)] (by decide) _ rfl
    60000000000).mpr ?_⟩
  simp [PassedSince,passed,object,twoMinutes]

/-- Without further calls the one hash of the run is still there three minutes
later. -/
theorem hashSent_kept_three_minutes : ∃ server : PioplatServer byteFormat,
    runAll step {} [.broadcastTransaction 7] = some server ∧ ¬ ∀ hash ∈ server.hashSent,
      PassedSince byteFormat [(0, .broadcastTransaction 7)] (180000000000 - twoMinutes) hash := by
  refine ⟨_,rfl,fun recent => ?_⟩
  obtain ⟨time,member,later⟩ := recent _ ((mem_hashSent_broadcast (.inr 7)).mpr (.inr rfl))
  simp [passed,object] at member
  simp [member,twoMinutes] at later

end PioplatServer

end PioplatRelay
