import Mathlib.Data.List.Basic

/-!
# Runs of structured programs

A big-step reading of statements with `break`, `continue` and `return`: running one
from a state ends with an outcome, a new state and the branch choices that are
left.  Conditions are decided by a list of choices, and a loop runs for as many
rounds as its fuel allows, so that the runs are the finite prefixes of all
executions, whatever the conditions evaluate to.
-/

namespace Disp.Library.Structured

open List

/-- How a statement ends.  `stopped` is a run cut off: out of fuel or choices. -/
inductive Outcome
  | next
  | broke
  | continued
  | returned
  | stopped
  deriving DecidableEq, Repr

/-- The result of a run. -/
structure Result (σ : Type) where
  outcome : Outcome
  state : σ
  choices : List Bool

section

variable {σ : Type}

abbrev Runner (σ : Type) := σ → List Bool → Result σ

def attempt (outcome : Outcome) (f : σ → Option σ) : Runner σ := fun state choices =>
  match f state with
  | some state => ⟨outcome, state, choices⟩
  | none => ⟨.stopped, state, choices⟩

def andThen (first second : Runner σ) : Runner σ := fun state choices =>
  match first state choices with
  | ⟨.next, state, choices⟩ => second state choices
  | result => result

/-- Decide a condition. -/
def choose (onTrue onFalse : Runner σ) : Runner σ := fun state choices =>
  match choices with
  | [] => ⟨.stopped, state, []⟩
  | true :: choices => onTrue state choices
  | false :: choices => onFalse state choices

def within (enter exit : σ → σ) (body : Runner σ) : Runner σ := fun state choices =>
  let result := body (enter state) choices
  { result with state := exit result.state }

/-- One round of a loop, and the rounds after it. -/
def round (body rest : Runner σ) : Runner σ := fun state choices =>
  match body state choices with
  | ⟨.next, state, choices⟩ | ⟨.continued, state, choices⟩ => rest state choices
  | ⟨.broke, state, choices⟩ => ⟨.next, state, choices⟩
  | result => result

/-- A loop: before each round `head` is done and, if `asks`, a condition decided. -/
def iterate (asks : Bool) (head : σ → Option σ) (body : Runner σ) : Nat → Runner σ
  | 0 => fun state choices => ⟨.stopped, state, choices⟩
  | fuel + 1 =>
    let rest := iterate asks head body fuel
    andThen (attempt .next head)
      (if asks then choose (round body rest) (attempt .next some) else round body rest)

/-! ## Pre- and postconditions -/

/-- Every run from a state that satisfies `pre` ends as `post` says. -/
def Triple (pre : σ → Prop) (runner : Runner σ) (post : Outcome → σ → Prop) : Prop :=
  ∀ state choices, pre state →
    post (runner state choices).outcome (runner state choices).state

/-- `mid` where a run goes on, `post` where it does not. -/
def onNext (mid : σ → Prop) (post : Outcome → σ → Prop) : Outcome → σ → Prop
  | .next, state => mid state
  | outcome, state => post outcome state

def onRound (inv : σ → Prop) (post : Outcome → σ → Prop) : Outcome → σ → Prop
  | .next, state | .continued, state => inv state
  | .broke, state => post .next state
  | outcome, state => post outcome state

section Rules

variable {pre mid : σ → Prop} {post : Outcome → σ → Prop}

theorem Triple.weaken {pre' : σ → Prop} {post' : Outcome → σ → Prop} {runner : Runner σ}
    (h : Triple pre runner post) (hpre : ∀ state, pre' state → pre state)
    (hpost : ∀ outcome state, post outcome state → post' outcome state) :
    Triple pre' runner post' :=
  fun state choices hstate => hpost _ _ (h state choices (hpre state hstate))

theorem triple_attempt {outcome : Outcome} {f : σ → Option σ}
    (hsome : ∀ state state', pre state → f state = some state' → post outcome state')
    (hnone : ∀ state, pre state → f state = none → post .stopped state) :
    Triple pre (attempt outcome f) post := by
  intro state choices hstate
  unfold attempt
  cases hf : f state with
  | some state' => exact hsome state state' hstate hf
  | none => exact hnone state hstate hf

theorem triple_andThen {first second : Runner σ}
    (hfirst : Triple pre first (onNext mid post)) (hsecond : Triple mid second post) :
    Triple pre (andThen first second) post := by
  intro state choices hstate
  have h := hfirst state choices hstate
  unfold andThen
  generalize first state choices = result at h ⊢
  obtain ⟨outcome, state', choices'⟩ := result
  cases outcome with
  | next => exact hsecond state' choices' h
  | broke | continued | returned | stopped => exact h

theorem triple_choose {onTrue onFalse : Runner σ} (htrue : Triple pre onTrue post)
    (hfalse : Triple pre onFalse post) (hstop : ∀ state, pre state → post .stopped state) :
    Triple pre (choose onTrue onFalse) post := by
  intro state choices hstate
  match choices with
  | [] => exact hstop state hstate
  | true :: choices => exact htrue state choices hstate
  | false :: choices => exact hfalse state choices hstate

theorem triple_within {enter exit : σ → σ} {body : Runner σ}
    (hbody : Triple (fun state => ∃ outer, pre outer ∧ state = enter outer) body
      fun outcome state => post outcome (exit state)) :
    Triple pre (within enter exit body) post :=
  fun state choices hstate => hbody (enter state) choices ⟨state, hstate, rfl⟩

/-- The rule of loops: `inv` holds before each round and `mid` once its head is done. -/
theorem triple_iterate {asks : Bool} {head : σ → Option σ} {body : Runner σ} {inv : σ → Prop}
    (hhead : ∀ state state', inv state → head state = some state' → mid state')
    (hexit : asks = true → ∀ state, mid state → post .next state)
    (hbody : Triple mid body (onRound inv post)) (hinv : ∀ state, inv state → post .stopped state)
    (hmid : ∀ state, mid state → post .stopped state) (fuel : Nat) :
    Triple inv (iterate asks head body fuel) post := by
  induction fuel with
  | zero => exact fun state _ hstate => hinv state hstate
  | succ fuel ih =>
    have hround : Triple mid (round body (iterate asks head body fuel)) post := by
      intro state choices hstate
      have h := hbody state choices hstate
      unfold round
      generalize body state choices = result at h ⊢
      obtain ⟨outcome, state', choices'⟩ := result
      cases outcome with
      | next | continued => exact ih state' choices' h
      | broke | returned | stopped => exact h
    apply triple_andThen
    · apply triple_attempt
      · intro state state' hstate hstate'
        exact hhead state state' hstate hstate'
      · intro state hstate _
        exact hinv state hstate
    · cases asks with
      | false => exact hround
      | true =>
        refine triple_choose hround ?_ hmid
        apply triple_attempt
        · intro state state' hstate hstate'
          cases hstate'
          exact hexit rfl state hstate
        · intro state _ hnone
          cases hnone

end Rules

/-! ## Logs -/

section Logs

variable {ε : Type} {met safe : ε → Prop}

/-- Along a log, every event is safe whose predecessors all met a condition. -/
def Guarded (met safe : ε → Prop) (log : List ε) : Prop :=
  ∀ earlier event later, log = earlier ++ event :: later →
    (∀ other ∈ earlier, met other) → safe event

theorem guarded_append {log events : List ε} (h : Guarded met safe log)
    (hevents : (∀ event ∈ log, met event) → ∀ event ∈ events, safe event) :
    Guarded met safe (log ++ events) := by
  intro earlier event later heq hmet
  rcases append_eq_append_iff.mp heq with ⟨rest, rfl, hrest⟩ | ⟨rest, hlog, hrest⟩
  · apply hevents
    · exact fun other hother => hmet other (mem_append_left _ hother)
    · rw [hrest]
      exact mem_append_right _ mem_cons_self
  · cases rest with
    | nil =>
      rw [append_nil] at hlog
      apply hevents
      · rwa [hlog]
      · rw [← nil_append events, ← hrest]
        exact mem_cons_self
    | cons first rest =>
      obtain ⟨rfl, -⟩ := List.cons.inj hrest
      exact h earlier event rest hlog hmet

/-- The log is guarded, and as long as every event met the condition `core` holds. -/
structure Safely (met safe : ε → Prop) (log : σ → List ε) (core : σ → Prop) (state : σ) :
    Prop where
  guarded : Guarded met safe (log state)
  core : (∀ event ∈ log state, met event) → core state

variable {log : σ → List ε} {core core' : σ → Prop}

theorem Safely.weaken {state : σ} (h : Safely met safe log core state)
    (hcore : core state → core' state) : Safely met safe log core' state :=
  ⟨h.guarded, fun hmet => hcore (h.core hmet)⟩

theorem Safely.step {state state' : σ} {events : List ε}
    (h : Safely met safe log core state) (hlog : log state' = log state ++ events)
    (hsafe : core state → ∀ event ∈ events, safe event)
    (hcore : core state → (∀ event ∈ events, met event) → core' state') :
    Safely met safe log core' state' := by
  constructor
  · rw [hlog]
    exact guarded_append h.guarded fun hmet => hsafe (h.core hmet)
  · intro hmet
    rw [hlog] at hmet
    exact hcore (h.core fun event hevent => hmet event (mem_append_left _ hevent))
      fun event hevent => hmet event (mem_append_right _ hevent)

end Logs

end

end Disp.Library.Structured
