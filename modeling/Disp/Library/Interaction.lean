import Mathlib.Data.List.Basic

/-!
# Programs that perform operations

A program is a tree of operations on an environment.  The environment decides for each
operation whether it is performed or fails, and may stop the program at any point.
`Spec` is the triple for such programs: one postcondition for a finished run, and one
condition for the states in which a stopped run leaves the environment.
-/

namespace Disp.Library.Interaction

inductive Program (ω ρ ε α : Type) where
  | done (result : Except ε α)
  | step (operation : ω) (next : Except ε ρ → Program ω ρ ε α)

section

variable {ω ρ ε α β σ : Type} {program : Program ω ρ ε α} {next : Except ε α → Program ω ρ ε β}
  {operation : ω}

namespace Program

def bind : Program ω ρ ε α → (α → Program ω ρ ε β) → Program ω ρ ε β
  | done (.ok value), next => next value
  | done (.error error), _ => done (.error error)
  | step operation following, next => step operation fun response =>
    bind (following response) next

instance : Monad (Program ω ρ ε) where
  pure value := done (.ok value)
  bind := bind

def perform (operation : ω) : Program ω ρ ε ρ := step operation done

def lift (result : Except ε α) : Program ω ρ ε α := done result

def attempt : Program ω ρ ε α → Program ω ρ ε (Except ε α)
  | done result => done (.ok result)
  | step operation next => step operation fun response => attempt (next response)

def each (body : α → Program ω ρ ε Unit) : List α → Program ω ρ ε Unit
  | [] => done (.ok ())
  | item :: items => bind (body item) fun _ => each body items

end Program

/-! ## Runs -/

/-- What operations do: the effect of one that is performed, the damage of one that
fails, and what is left of a state when the program is stopped. -/
structure Environment (σ ω ρ ε : Type) where
  effect : ω → σ → Except ε ρ × σ
  damage : ω → σ → σ → Prop
  failure : ε
  left : σ → σ → Prop

inductive Event (ω : Type) where
  | performed (operation : ω)
  | failed (operation : ω)
deriving DecidableEq, Repr

/-- A state with the events so far, the latest first. -/
structure World (σ ω : Type) where
  state : σ
  log : List (Event ω)

/-- The runs of a program: finished with a result, or stopped. -/
inductive Run (env : Environment σ ω ρ ε) :
    Program ω ρ ε α → World σ ω → Option (Except ε α) → World σ ω → Prop where
  | done (result : Except ε α) (world : World σ ω) :
      Run env (.done result) world (some result) world
  | stopped (program : Program ω ρ ε α) {world : World σ ω} {state : σ} :
      env.left world.state state → Run env program world none ⟨state, world.log⟩
  | performed {operation : ω} {next : Except ε ρ → Program ω ρ ε α} {world world' : World σ ω}
      {result : Option (Except ε α)} :
      Run env (next (env.effect operation world.state).1)
        ⟨(env.effect operation world.state).2, .performed operation :: world.log⟩
        result world' →
      Run env (.step operation next) world result world'
  | failed {operation : ω} {next : Except ε ρ → Program ω ρ ε α} {world world' : World σ ω}
      {state : σ} {result : Option (Except ε α)} :
      env.damage operation world.state state →
      Run env (next (.error env.failure)) ⟨state, .failed operation :: world.log⟩
        result world' →
      Run env (.step operation next) world result world'

theorem Run.attempt {env : Environment σ ω ρ ε} {world middle world' : World σ ω}
    {first : Option (Except ε α)} {value : Except ε α} {result : Option (Except ε β)}
    (h : Run env program world first middle) (hfirst : first = some value)
    (hnext : Run env (next value) middle result world') :
    Run env (program.attempt >>= next) world result world' := by
  induction h with
  | done result world =>
    cases hfirst
    exact hnext
  | stopped program h => cases hfirst
  | performed _ ih => exact .performed (ih hfirst hnext)
  | failed hdamage _ ih => exact .failed hdamage (ih hfirst hnext)

/-- The run in which exactly the operations of a pattern fail, and do nothing. -/
def Program.run (env : Environment σ ω ρ ε) (fails : ω → Bool) :
    Program ω ρ ε α → World σ ω → Except ε α × World σ ω
  | .done result, world => (result, world)
  | .step operation next, world =>
    if fails operation then
      (next (.error env.failure)).run env fails ⟨world.state, .failed operation :: world.log⟩
    else
      (next (env.effect operation world.state).1).run env fails
        ⟨(env.effect operation world.state).2, .performed operation :: world.log⟩

section

variable (env : Environment σ ω ρ ε) (fails : ω → Bool)

include env fails

theorem run_sound
    (hdamage : ∀ operation state, fails operation = true → env.damage operation state state)
    (program : Program ω ρ ε α) (world : World σ ω) :
    Run env program world (some (program.run env fails world).1)
      (program.run env fails world).2 := by
  induction program generalizing world with
  | done result => exact .done result world
  | step operation next ih =>
    rw [Program.run]
    by_cases hfails : fails operation = true
    · rw [if_pos hfails]
      exact .failed (hdamage operation world.state hfails) (ih _ _)
    · rw [if_neg hfails]
      exact .performed (ih _ _)

/-- Only the operations of the pattern fail. -/
theorem run_failed (program : Program ω ρ ε α)
    {world : World σ ω} (h : Event.failed operation ∈ (program.run env fails world).2.log) :
    Event.failed operation ∈ world.log ∨ fails operation = true := by
  induction program generalizing world with
  | done result => exact .inl h
  | step operation' next ih =>
    rw [Program.run] at h
    split_ifs at h with hfails
    · rcases ih _ h with hmem | hmem
      · rcases List.mem_cons.mp hmem with heq | hmem
        · cases heq
          exact .inr hfails
        · exact .inl hmem
      · exact .inr hmem
    · rcases ih _ h with hmem | hmem
      · rcases List.mem_cons.mp hmem with heq | hmem
        · cases heq
        · exact .inl hmem
      · exact .inr hmem

theorem run_attempt (program : Program ω ρ ε α)
    (next : Except ε α → Program ω ρ ε β) (world : World σ ω) :
    (program.attempt >>= next).run env fails world =
      (next (program.run env fails world).1).run env fails (program.run env fails world).2 := by
  change (program.attempt.bind next).run env fails world = _
  induction program generalizing world with
  | done result => rfl
  | step operation following ih =>
    rw [Program.attempt, Program.bind, Program.run, Program.run]
    split_ifs <;> exact ih _ _

end

/-! ## Triples -/

variable {middle : Except ε α → World σ ω → Prop} {post : Except ε β → World σ ω → Prop}

/-- Every finished run meets `post`, every stopped one leaves a state in `crash`. -/
def Spec (env : Environment σ ω ρ ε) (program : Program ω ρ ε α) (world : World σ ω)
    (post : Except ε α → World σ ω → Prop) (crash : World σ ω → Prop) : Prop :=
  ∀ result world', Run env program world result world' →
    match result with
    | some result => post result world'
    | none => crash world'

variable {env : Environment σ ω ρ ε} {world : World σ ω} {crash crash' : World σ ω → Prop}

def Stoppable (env : Environment σ ω ρ ε) (world : World σ ω) (crash : World σ ω → Prop) :
    Prop :=
  ∀ state, env.left world.state state → crash ⟨state, world.log⟩

theorem Spec.weaken {post post' : Except ε α → World σ ω → Prop}
    (h : Spec env program world post crash)
    (hpost : ∀ result world', post result world' → post' result world')
    (hcrash : ∀ world', crash world' → crash' world') : Spec env program world post' crash' := by
  intro result world' hrun
  have hres := h result world' hrun
  cases result with
  | none => exact hcrash world' hres
  | some result => exact hpost result world' hres

theorem Spec.weaken_crash {post : Except ε α → World σ ω → Prop}
    (h : Spec env program world post crash) (hcrash : ∀ world', crash world' → crash' world') :
    Spec env program world post crash' :=
  h.weaken (fun _ _ hpost => hpost) hcrash

theorem Spec.done {result : Except ε α} {post : Except ε α → World σ ω → Prop}
    (hcrash : Stoppable env world crash) (h : post result world) :
    Spec env (.done result) world post crash := by
  intro result' world' hrun
  cases hrun with
  | done => exact h
  | stopped _ hleft => exact hcrash _ hleft

theorem Spec.step {next : Except ε ρ → Program ω ρ ε α} {post : Except ε α → World σ ω → Prop}
    (hcrash : Stoppable env world crash)
    (hperf : Spec env (next (env.effect operation world.state).1)
      ⟨(env.effect operation world.state).2, .performed operation :: world.log⟩ post crash)
    (hfailed : ∀ state, env.damage operation world.state state →
      Spec env (next (.error env.failure)) ⟨state, .failed operation :: world.log⟩ post crash) :
    Spec env (.step operation next) world post crash := by
  intro result world' hrun
  cases hrun with
  | stopped _ hleft => exact hcrash _ hleft
  | performed hrun => exact hperf result world' hrun
  | failed hdamage hrun => exact hfailed _ hdamage result world' hrun

theorem Spec.perform {post : Except ε ρ → World σ ω → Prop} {result : Except ε ρ} {after : σ}
    (hcrash : ∀ world, crash world → Stoppable env world crash) (h : crash world)
    (heffect : env.effect operation world.state = (result, after))
    (hperf : crash ⟨after, .performed operation :: world.log⟩ ∧
      post result ⟨after, .performed operation :: world.log⟩)
    (hfailed : ∀ state, env.damage operation world.state state →
      crash ⟨state, .failed operation :: world.log⟩ ∧
        post (.error env.failure) ⟨state, .failed operation :: world.log⟩) :
    Spec env (Program.perform operation) world post crash := by
  refine .step (hcrash world h) ?_ fun state hdamage =>
    .done (hcrash _ (hfailed state hdamage).1) (hfailed state hdamage).2
  rw [heffect]
  exact .done (hcrash _ hperf.1) hperf.2

theorem Spec.bind {next : α → Program ω ρ ε β} (h : Spec env program world middle crash)
    (hok : ∀ value world', middle (.ok value) world' → Spec env (next value) world' post crash)
    (herror : ∀ error world', middle (.error error) world' → post (.error error) world') :
    Spec env (program >>= next) world post crash := by
  induction program generalizing world with
  | done result =>
    have hdone := h (some result) world (.done result world)
    have hcrash : Stoppable env world crash :=
      fun state hleft => h none _ (.stopped (.done result) hleft)
    cases result with
    | ok value => exact hok value world hdone
    | error error => exact .done hcrash (herror error world hdone)
  | step operation following ih =>
    refine .step ?_ ?_ ?_
    · exact fun state hleft => h none _ (.stopped _ hleft)
    · exact ih _ fun result world' hrun => h result world' (.performed hrun)
    · exact fun state hdamage =>
        ih _ fun result world' hrun => h result world' (.failed hdamage hrun)

theorem Spec.lift {result : Except ε α} {next : α → Program ω ρ ε β}
    (hcrash : Stoppable env world crash)
    (hok : ∀ value, result = .ok value → Spec env (next value) world post crash)
    (herror : ∀ error, result = .error error → post (.error error) world) :
    Spec env (Program.lift result >>= next) world post crash := by
  cases result with
  | ok value => exact hok value rfl
  | error error => exact .done hcrash (herror error rfl)

theorem Spec.attempt (h : Spec env program world middle crash)
    (hnext : ∀ result world', middle result world' → Spec env (next result) world' post crash) :
    Spec env (program.attempt >>= next) world post crash := by
  induction program generalizing world with
  | done result => exact hnext result world (h (some result) world (.done result world))
  | step operation following ih =>
    refine .step ?_ ?_ ?_
    · exact fun state hleft => h none _ (.stopped _ hleft)
    · exact ih _ fun result world' hrun => h result world' (.performed hrun)
    · exact fun state hdamage =>
        ih _ fun result world' hrun => h result world' (.failed hdamage hrun)

def onResult (ok : α → World σ ω → Prop) (error : ε → World σ ω → Prop) :
    Except ε α → World σ ω → Prop
  | .ok value => ok value
  | .error failure => error failure

theorem Spec.each {body : α → Program ω ρ ε Unit} {invariant : List α → World σ ω → Prop}
    {broken : ε → World σ ω → Prop}
    (hcrash : ∀ world, invariant [] world → Stoppable env world crash)
    (hbody : ∀ item items world, invariant (item :: items) world →
      Spec env (body item) world (onResult (fun _ => invariant items) broken) crash)
    {items : List α} (h : invariant items world) :
    Spec env (Program.each body items) world (onResult (fun _ => invariant []) broken)
      crash := by
  induction items generalizing world with
  | nil => exact .done (hcrash world h) h
  | cons item items ih =>
    exact (hbody item items world h).bind (fun _ world' hinv => ih hinv) fun _ world' hpost => hpost

end

end Disp.Library.Interaction
