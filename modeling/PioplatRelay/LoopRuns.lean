import Mathlib.Logic.Relation
import Mathlib.Tactic.Common

/-!
# Runs of a loop

One iteration of a loop goes round again with a new state, leaves the loop, or
panics.  An invariant of one iteration is an invariant of every state that is
reached at the loop head, and a loop is safe when none of these panics.
-/

namespace PioplatRelay

open Relation

inductive Iteration (State : Type*)
  | again (state : State)
  | finished (state : State)
  | panicked

def Iteration.state {State : Type*} : Iteration State → Option State
  | .again state => some state
  | .finished state => some state
  | .panicked => none

namespace Loop

variable {State : Type*} (body : State → Iteration State)

def Reaches : State → State → Prop := ReflTransGen fun before after => body before = .again after

def NeverPanics (initial : State) : Prop :=
  ∀ state, Reaches body initial state → body state ≠ .panicked

variable {body}

theorem Reaches.refl (state : State) : Reaches body state state := ReflTransGen.refl

theorem Reaches.trans {first middle last : State}
    (begins : Reaches body first middle) (ends : Reaches body middle last) :
    Reaches body first last :=
  ReflTransGen.trans begins ends

theorem Reaches.single {before after : State} (once : body before = .again after) :
    Reaches body before after :=
  ReflTransGen.single once

/-- What every iteration keeps holds at the loop head of the whole run. -/
theorem Reaches.invariant {first last : State} (reaches : Reaches body first last)
    (Holds : State → Prop) (initially : Holds first)
    (kept : ∀ before after, Holds before → body before = .again after → Holds after) :
    Holds last := by
  induction reaches with
  | refl => exact initially
  | tail _ once ih => exact kept _ _ ih once

/-- When a panic shows in the state before the iteration, a run is safe
exactly when no state of it shows one. -/
theorem neverPanics_iff {Holds Bad : State → Prop} {initial : State} (initially : Holds initial)
    (kept : ∀ before after, Holds before → body before = .again after → Holds after)
    (panics : ∀ state, Holds state → (body state = .panicked ↔ Bad state)) :
    NeverPanics body initial ↔ ∀ state, Reaches body initial state → ¬ Bad state := by
  have holds {state} (reaches : Reaches body initial state) : Holds state :=
    reaches.invariant Holds initially kept
  constructor
  · intro safe state reaches bad
    exact safe state reaches ((panics state (holds reaches)).mpr bad)
  · intro good state reaches panicked
    exact good state reaches ((panics state (holds reaches)).mp panicked)

end Loop

end PioplatRelay
