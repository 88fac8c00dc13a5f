/-
Module: CustomXv6.Lib.Transition
Purpose: Runs of a partial step function whose steps all meet a condition.
Trusted boundary: none
Main exports: Run, Run.invariant, run_of_runChecked
-/
import Mathlib.Tactic.Common

namespace Transition

variable {σ α : Type*}

/-!
A system is a function `step : σ → α → Option σ`; all nondeterminism is in the choice of the
action.  A condition `allowed : σ → α → Prop` on the state before a step and the action taken
selects the runs a result is about.
-/

/-- Perform the actions of a list one after another. -/
def runFrom (step : σ → α → Option σ) : σ → List α → Option σ
  | state, [] => some state
  | state, act :: rest => (step state act).bind fun next => runFrom step next rest

/-- `Run step allowed s t`: some finite sequence of steps, each of which meets
`allowed` where it is taken, leads from `s` to `t`. -/
inductive Run (step : σ → α → Option σ) (allowed : σ → α → Prop) (start : σ) : σ → Prop where
  | refl : Run step allowed start start
  | tail {state next : σ} {act : α} (pre : Run step allowed start state)
      (legal : allowed state act) (ran : step state act = some next) :
      Run step allowed start next

variable {step : σ → α → Option σ} {allowed : σ → α → Prop}

/-- What holds at the start and is kept by every allowed step holds in every
state of every run. -/
theorem Run.invariant {P : σ → Prop} {start state : σ} (run : Run step allowed start state)
    (initially : P start)
    (preserved : ∀ {state act next}, P state → allowed state act →
      step state act = some next → P next) : P state := by
  induction run with
  | refl => exact initially
  | tail _ legal ran ih =>
    exact preserved ih legal ran

theorem Run.mono {allowed' : σ → α → Prop} {start state : σ} (run : Run step allowed start state)
    (weaker : ∀ state act, allowed state act → allowed' state act) :
    Run step allowed' start state := by
  induction run with
  | refl => exact .refl
  | tail _ legal ran ih =>
    exact .tail ih (weaker _ _ legal) ran

theorem Run.trans {start middle state : σ} (first : Run step allowed start middle)
    (second : Run step allowed middle state) : Run step allowed start state := by
  induction second with
  | refl => exact first
  | tail _ legal ran ih =>
    exact .tail ih legal ran

theorem Run.single {state next : σ} {act : α} (legal : allowed state act)
    (ran : step state act = some next) : Run step allowed state next :=
  .tail .refl legal ran

theorem Run.head {start next state : σ} {act : α} (legal : allowed start act)
    (ran : step start act = some next) (rest : Run step allowed next state) :
    Run step allowed start state :=
  (Run.single legal ran).trans rest

/-- Perform a list of actions, stopping as soon as one of them is not allowed
where it is taken. -/
def runChecked (step : σ → α → Option σ) (allowed : σ → α → Prop)
    [∀ state act, Decidable (allowed state act)] : σ → List α → Option σ
  | state, [] => some state
  | state, act :: rest =>
    if allowed state act then
      (step state act).bind fun next => runChecked step allowed next rest
    else none

/-- A checked execution is a run. -/
theorem run_of_runChecked [∀ state act, Decidable (allowed state act)] {start state : σ}
    {actions : List α} (executed : runChecked step allowed start actions = some state) :
    Run step allowed start state := by
  induction actions generalizing start with
  | nil =>
    cases executed
    exact .refl
  | cons _ _ ih =>
    rw [runChecked] at executed
    split at executed
    · rename_i legal
      obtain ⟨_, ran, remaining⟩ := Option.bind_eq_some_iff.mp executed
      exact .head legal ran (ih remaining)
    · cases executed

/-- An execution is a run of the unrestricted system. -/
theorem run_of_runFrom {start state : σ} {actions : List α}
    (executed : runFrom step start actions = some state) :
    Run step (fun _ _ => True) start state := by
  induction actions generalizing start with
  | nil =>
    cases executed
    exact .refl
  | cons _ _ ih =>
    obtain ⟨_, ran, remaining⟩ := Option.bind_eq_some_iff.mp executed
    exact .head trivial ran (ih remaining)

/-- A checked execution whose last state passes a test is a run to a state
with the tested property. -/
theorem exists_run_of_runChecked (step : σ → α → Option σ) (allowed : σ → α → Prop)
    [∀ state act, Decidable (allowed state act)] (start : σ) (actions : List α) {P : σ → Prop}
    [DecidablePred P]
    (tested : (runChecked step allowed start actions).any (fun state => decide (P state)) = true) :
    ∃ state, Run step allowed start state ∧ P state := by
  obtain ⟨state, executed, holds⟩ := (Option.any_eq_true _ _).mp tested
  exact ⟨state, run_of_runChecked executed, of_decide_eq_true holds⟩

/-- The same without a condition. -/
theorem exists_run_of_runFrom (step : σ → α → Option σ) (start : σ) (actions : List α)
    {P : σ → Prop} [DecidablePred P]
    (tested : (runFrom step start actions).any (fun state => decide (P state)) = true) :
    ∃ state, Run step (fun _ _ => True) start state ∧ P state := by
  obtain ⟨state, executed, holds⟩ := (Option.any_eq_true _ _).mp tested
  exact ⟨state, run_of_runFrom executed, of_decide_eq_true holds⟩

/-- A checked execution in two legs, with a test after each of them. -/
theorem exists_two_runs_of_runChecked (step : σ → α → Option σ) (start : σ)
    (first second : List α) (allowed allowed' : σ → α → Prop)
    [∀ state act, Decidable (allowed state act)] [∀ state act, Decidable (allowed' state act)]
    {P Q : σ → Prop} [DecidablePred P] [DecidablePred Q]
    (tested : (runChecked step allowed start first).any (fun middle => decide (P middle) &&
      (runChecked step allowed' middle second).any fun state => decide (Q state)) = true) :
    ∃ middle state, Run step allowed start middle ∧ P middle ∧
      Run step allowed' middle state ∧ Q state := by
  obtain ⟨middle, executed, both⟩ := (Option.any_eq_true _ _).mp tested
  rw [Bool.and_eq_true] at both
  obtain ⟨state, run, holds⟩ := exists_run_of_runChecked _ allowed' _ _ both.2
  exact ⟨middle, state, run_of_runChecked executed, of_decide_eq_true both.1, run, holds⟩

end Transition
