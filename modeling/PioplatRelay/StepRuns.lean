import Mathlib.Data.List.Basic

/-!
# Runs of a step function

A step function takes an action in a state, or none where the action is not
possible.  A guard is a condition on the state before a step.  What a guarded step
keeps holds in every state that a guarded run reaches, and a property that an
unguarded step always destroys holds throughout a run exactly when the run is
guarded.
-/

namespace PioplatRelay

variable {State Action : Type*} (step : Action → State → Option State)

def runAll (state : State) (actions : List Action) : Option State :=
  actions.foldlM (fun state action => step action state) state

@[simp]
theorem runAll_nil (state : State) : runAll step state [] = some state := rfl

theorem runAll_cons (state : State) (action : Action) (later : List Action) :
    runAll step state (action :: later) =
      (step action state).bind fun next => runAll step next later :=
  rfl

theorem runAll_append (state : State) (front back : List Action) :
    runAll step state (front ++ back) =
      (runAll step state front).bind fun next => runAll step next back := by
  rw [runAll,List.foldlM_append]
  rfl

def Guarded (Guard : State → Action → Prop) : State → List Action → Prop
  | _, [] => True
  | state, action :: later =>
    ∀ next, step action state = some next → Guard state action ∧ Guarded Guard next later

def Always (Holds : State → Prop) (state : State) (actions : List Action) : Prop :=
  ∀ front, front <+: actions → ∀ after, runAll step state front = some after → Holds after

variable {step} {Guard : State → Action → Prop} {Inv Holds : State → Prop}

theorem Guarded.cons {state next : State} {action : Action} {later : List Action}
    (stepped : step action state = some next) (guard : Guard state action)
    (rest : Guarded step Guard next later) : Guarded step Guard state (action :: later) := by
  intro other stepped'
  rw [stepped] at stepped'
  cases stepped'
  exact ⟨guard,rest⟩

variable {state : State} {actions : List Action}

theorem Guarded.front {front : List Action} (guarded : Guarded step Guard state actions)
    (isPrefix : front <+: actions) : Guarded step Guard state front := by
  induction front generalizing state actions with
  | nil => exact trivial
  | cons action front ih =>
    rcases isPrefix with ⟨rest,rfl⟩
    intro next stepped
    have both := guarded next stepped
    exact ⟨both.1,ih both.2 (List.prefix_append front rest)⟩

/-- What guarded steps keep holds at the end of a guarded run. -/
theorem runAll_invariant (kept : ∀ state action next, Inv state → Guard state action →
      step action state = some next → Inv next) {last : State} (initially : Inv state)
    (guarded : Guarded step Guard state actions) (run : runAll step state actions = some last) :
    Inv last := by
  induction actions generalizing state with
  | nil =>
    cases run
    exact initially
  | cons action later ih =>
    rw [runAll_cons] at run
    rcases Option.bind_eq_some_iff.mp run with ⟨next,stepped,rest⟩
    have both := guarded next stepped
    exact ih (kept state action next initially both.1 stepped) both.2 rest

theorem always_of_guarded (kept : ∀ state action next, Inv state → Guard state action →
      step action state = some next → Inv next) (implies : ∀ state, Inv state → Holds state)
    (initially : Inv state) (guarded : Guarded step Guard state actions) :
    Always step Holds state actions := by
  intro front isPrefix after run
  exact implies after (runAll_invariant kept initially (guarded.front isPrefix) run)

/-- What every step keeps holds in every state of a run. -/
theorem always_of_kept
    (kept : ∀ state action next, Inv state → step action state = some next → Inv next)
    (implies : ∀ state, Inv state → Holds state) (initially : Inv state) :
    Always step Holds state actions := by
  have unguarded : Guarded step (fun _ _ => True) state actions := by
    clear initially
    induction actions generalizing state with
    | nil => exact trivial
    | cons action later ih => exact fun next _ => ⟨trivial,ih⟩
  exact always_of_guarded (fun state action next holds _ stepped => kept state action next holds
    stepped) implies initially unguarded

/-- A property that guarded steps keep and every other step destroys. -/
theorem always_iff_guarded (kept : ∀ state action next, Inv state → Guard state action →
      step action state = some next → Inv next) (implies : ∀ state, Inv state → Holds state)
    (broken : ∀ state action next, Inv state → ¬ Guard state action →
      step action state = some next → ¬ Holds next) (initially : Inv state) :
    Always step Holds state actions ↔ Guarded step Guard state actions := by
  constructor
  · intro always
    induction actions generalizing state with
    | nil => exact trivial
    | cons action later ih =>
      intro next stepped
      have guard : Guard state action := by
        by_contra unguarded
        refine broken state action next initially unguarded stepped ?_
        apply always [action] ⟨later,rfl⟩
        rw [runAll_cons,stepped]
        rfl
      refine ⟨guard,ih (kept state action next initially guard stepped) ?_⟩
      rintro front ⟨rest,rfl⟩ after run
      apply always (action :: front) ⟨rest,rfl⟩
      rw [runAll_cons,stepped]
      exact run
  · exact always_of_guarded kept implies initially

/-- Where a rank falls until a goal is reached, some run reaches the goal. -/
theorem exists_runAll_of_rank {Own : Action → Prop} {Goal : State → Prop} (rank : State → Nat)
    (progress : ∀ state, Inv state → ¬ Goal state → ∃ action next, Own action ∧
      step action state = some next ∧ Inv next ∧ rank next < rank state) (initially : Inv state) :
    ∃ actions last, (∀ action ∈ actions, Own action) ∧
      runAll step state actions = some last ∧ Inv last ∧ Goal last := by
  induction bound : rank state using Nat.strongRecOn generalizing state with
  | ind bound ih =>
    by_cases reached : Goal state
    · exact ⟨[],state,by simp,rfl,initially,reached⟩
    · rcases progress state initially reached with ⟨action,next,own,stepped,kept,less⟩
      subst bound
      rcases ih (rank next) less kept rfl with ⟨later,last,owns,run,lastKept,goal⟩
      refine ⟨action :: later,last,?_,?_,lastKept,goal⟩
      · exact List.forall_mem_cons.mpr ⟨own,owns⟩
      · rw [runAll_cons,stepped]
        exact run

end PioplatRelay
