import Disp.Interpreter.Session
import Mathlib.Data.Int.Range

/-!
# Statements

The statements of a function or closure body and `execute_statement`.  The expressions in them are
a parameter: what it means to evaluate one is given by an `Evaluator`.
-/

namespace Disp.Interpreter

open Disp.Library

/-- `ast::Statement` with expressions `ε` and type annotations `τ`. -/
inductive Statement (ε τ : Type)
  | binding (name : String) (declared : Option τ) (value : Option ε)
  | assignment (name : String) (operator : AssignmentOperator) (value : ε)
  | placeAssignment (target : ε) (operator : AssignmentOperator) (value : ε)
  | expression (value : ε)
  | returns (value : Option ε)
  /-- `if` without `else`. -/
  | ifThen (condition : ε) (thenBranch : List (Statement ε τ))
  | ifElse (condition : ε) (thenBranch elseBranch : List (Statement ε τ))
  | whileLoop (condition : ε) (body : List (Statement ε τ))
  | forRange (name : String) (start stop : ε) (inclusive : Bool) (body : List (Statement ε τ))
  | forEach (name : String) (iterable : ε) (body : List (Statement ε τ))
  | loop (body : List (Statement ε τ))
  | unsafeBlock (body : List (Statement ε τ))
  | breaks
  | continues

/-- What the statements do with the expressions in them. -/
structure Evaluator (ε ν ω : Type) where
  evaluate : ε → Run ν ω ν
  /-- The value of an expression, moved out of its place. -/
  consume : ε → Run ν ω ν
  dynamicPlace : ε → Run ν ω (Option Place)

/-- The largest `i64`. -/
def maxInt : Int := 9223372036854775807

section

variable {ε τ ν ω : Type}

/-- The rounds of a loop: `none` goes on. -/
def rounds (round : Run ν ω (Option (Flow ν))) : Nat → Run ν ω (Flow ν)
  | 0 => Attempt.fail .exhausted
  | fuel + 1 => do
      match ← round with
      | some flow => return flow
      | none => rounds round fuel

def afterBody : Flow ν → Option (Flow ν)
  | .normal | .continued => none
  | .broke => some .normal
  | .returned value => some (.returned value)

variable (host : Host τ ν ω) (evaluator : Evaluator ε ν ω)

def charge : Run ν ω Unit :=
  onWorld fun _ world => host.chargeSteps world

def reconcile : Run ν ω Unit :=
  onWorld host.reconcileObjectMemory

def condition (message : String) (value : ε) : Run ν ω Bool := do
  let value ← evaluator.evaluate value
  Attempt.ofOption (.error message) (host.truth value)

def rangeEnd (message : String) (value : ε) : Run ν ω Int := do
  let value ← evaluator.evaluate value
  Attempt.ofOption (.error message) (host.integer value)

/-- `execute_block_contents`. -/
def executeContents (execute : Statement ε τ → Run ν ω (Flow ν)) :
    List (Statement ε τ) → Run ν ω (Flow ν)
  | [] => pure .normal
  | statement :: statements => do
      let flow ← execute statement
      reconcile host
      match flow with
      | .normal => executeContents execute statements
      | flow => return flow

def inScope {α : Type} (values : List (String × ν)) (body : Run ν ω α) : Run ν ω α :=
  Attempt.within (Session.pushScope values) Session.popScope body

/-- `execute_block`. -/
def executeBlock (execute : Statement ε τ → Run ν ω (Flow ν)) (block : List (Statement ε τ)) :
    Run ν ω (Flow ν) :=
  Attempt.followedBy (inScope [] (executeContents host execute block)) (reconcile host)

/-- The condition of `for name in start..stop` or, if inclusive, of `start..=stop`. -/
def inRange (inclusive : Bool) (current stop : Int) : Bool :=
  if inclusive then current ≤ stop else current < stop

/-- The loop of `for name in start..stop`. -/
def forLoop (round : Int → Run ν ω (Option (Flow ν))) (inclusive : Bool) (stop : Int) :
    Nat → Int → Run ν ω (Flow ν)
  | 0, _ => Attempt.fail .exhausted
  | fuel + 1, current =>
    if inRange inclusive current stop then do
      match ← round current with
      | some flow => return flow
      | none =>
        if inclusive && current == stop then return .normal
        else if current + 1 ≤ maxInt then forLoop round inclusive stop fuel (current + 1)
        else error "integer overflow while advancing for-loop range"
    else
      return .normal

/-- The loop of `for name in items`. -/
def eachLoop (round : ν → Run ν ω (Option (Flow ν))) : List ν → Run ν ω (Flow ν)
  | [] => pure .normal
  | item :: items => do
      match ← round item with
      | some flow => return flow
      | none => eachLoop round items

/-- One round of a loop with a variable. -/
def roundWith (name : String) (body : Run ν ω (Flow ν)) (value : ν) :
    Run ν ω (Option (Flow ν)) := do
  charge host
  let flow ← inScope [(name, value)] body
  return afterBody flow

/-- A value coerced to the annotation of its binding. -/
def annotated (declared : Option τ) (value : ν) : Run ν ω ν :=
  match declared with
  | some declared =>
    if host.isUninitialized value then pure value
    else lift (host.coerceValue value declared)
  | none => pure value

def initialValue : Option ε → Run ν ω ν
  | some value => evaluator.consume value
  | none => pure host.uninitialized

def executeBinding (name : String) (declared : Option τ) (value : Option ε) :
    Run ν ω (Flow ν) := do
  let value ← initialValue host evaluator value
  let value ← annotated host declared value
  Attempt.modify (Session.insert name value)
  return .normal

/-- The new value of a compound assignment to a place with the given value. -/
def combined (operator : AssignmentOperator) (left : Run ν ω ν) (right : ν) : Run ν ω ν :=
  if operator = .assign then pure right
  else do
    let left ← left
    lift (host.combine operator left right)

def coerceExisting (existing : Option ν) (right : ν) : Run ν ω ν :=
  match existing with
  | some existing => lift (host.coerceLike right existing)
  | none => pure right

/-- `assign`, or a new variable in the innermost scope. -/
def assignOrInsert (name : String) (operator : AssignmentOperator) (value : ν) :
    Run ν ω Unit := fun session =>
  match assign host session name value with
  | some session => (.ok (), session)
  | none =>
    if operator = .assign then (.ok (), session.insert name value)
    else (.error (.error s!"undefined variable `{name}`"), session)

/-- An assignment to a name, which declares a variable where there is none. -/
def executeAssignment (name : String) (operator : AssignmentOperator) (value : ε) :
    Run ν ω (Flow ν) := do
  let right ← evaluator.consume value
  let existing ← Attempt.inspect fun session => current host session name
  let right ← coerceExisting host existing right
  let new ← combined host operator
    (Attempt.ofOption (.error s!"undefined variable `{name}`") existing) right
  assignOrInsert host name operator new
  return .normal

def executePlaceAssignment (target : ε) (operator : AssignmentOperator) (value : ε) :
    Run ν ω (Flow ν) := do
  let place ← evaluator.dynamicPlace target
  let place ← Attempt.ofOption (.error "assignment target is not a place") place
  let right ← evaluator.consume value
  let new ← combined host operator (readAt host "invalid assignment target" place) right
  replace "invalid assignment target" fun session => writePlace host session place new
  return .normal

def dereferenced (message : String) (value : ν) : Run ν ω ν :=
  match host.reference value with
  | some (place, _) => readAt host message place
  | none => pure value

/-- The elements `for name in iterable` goes over. -/
def iterated (iterable : ε) : Run ν ω (List ν) := do
  let value ← evaluator.evaluate iterable
  let value ← dereferenced host "dangling iterable reference" value
  Attempt.ofOption (.error "iteration requires an array, slice, or List") (host.items value)

/-- `execute_statement`. -/
def executeStatement : Nat → Statement ε τ → Run ν ω (Flow ν)
  | 0, _ => Attempt.fail .exhausted
  | fuel + 1, statement => do
      charge host
      match statement with
      | .binding name declared value => executeBinding host evaluator name declared value
      | .assignment name operator value => executeAssignment host evaluator name operator value
      | .placeAssignment target operator value =>
        executePlaceAssignment host evaluator target operator value
      | .expression value => do
          let _ ← evaluator.evaluate value
          return .normal
      | .returns none => return .returned host.unit
      | .returns (some value) => do
          let value ← evaluator.consume value
          return .returned value
      | .ifThen value thenBranch => do
          if ← condition host evaluator "if condition did not evaluate to Bool" value then
            executeBlock host (executeStatement fuel) thenBranch
          else
            return .normal
      | .ifElse value thenBranch elseBranch => do
          if ← condition host evaluator "if condition did not evaluate to Bool" value then
            executeBlock host (executeStatement fuel) thenBranch
          else
            executeBlock host (executeStatement fuel) elseBranch
      | .whileLoop value body =>
        rounds (do
          if ← condition host evaluator "while condition did not evaluate to Bool" value then
            return afterBody (← executeBlock host (executeStatement fuel) body)
          else
            return some .normal) fuel
      | .forRange name start stop inclusive body => do
          let start ← rangeEnd host evaluator "range start did not evaluate to int" start
          let stop ← rangeEnd host evaluator "range end did not evaluate to int" stop
          forLoop (fun value => roundWith host name
            (executeContents host (executeStatement fuel) body) (host.ofInteger value))
            inclusive stop fuel start
      | .forEach name iterable body => do
          let items ← iterated host evaluator iterable
          eachLoop (roundWith host name (executeContents host (executeStatement fuel) body)) items
      | .loop body =>
        rounds (do
          charge host
          return afterBody (← executeBlock host (executeStatement fuel) body)) fuel
      | .unsafeBlock body => executeBlock host (executeStatement fuel) body
      | .breaks => return .broke
      | .continues => return .continued

/-! ## Loops over ranges -/

theorem range_eq_cons {first stop : Int} (h : first < stop) :
    Int.range first stop = first :: Int.range (first + 1) stop := by
  have hcount : (stop - first).toNat = (stop - (first + 1)).toNat + 1 := by omega
  simp [Int.range, hcount, List.range_succ_eq_map, Int.add_assoc, Int.add_comm 1]

theorem range_eq_nil {first stop : Int} (h : stop ≤ first) : Int.range first stop = [] := by
  simp [Int.range, h]

/-- Whatever the body does, a loop over a range with an `i64` end goes over its integers as over
a list: advancing it does not overflow. -/
theorem forLoop_eq_eachLoop (round : ν → Run ν ω (Option (Flow ν))) (ofInteger : Int → ν)
    (inclusive : Bool) {stop : Int} (hstop : stop ≤ maxInt) {fuel : Nat} {current : Int}
    (hfuel : (stop + inclusive.toNat - current).toNat < fuel) :
    forLoop (fun value => round (ofInteger value)) inclusive stop fuel current =
      eachLoop round ((Int.range current (stop + inclusive.toNat)).map ofInteger) := by
  induction fuel generalizing current with
  | zero => omega
  | succ fuel ih =>
    have hin : inRange inclusive current stop = true ↔ current < stop + inclusive.toNat := by
      cases inclusive with
      | false => simp [inRange]
      | true =>
        rw [inRange, if_pos rfl, decide_eq_true_iff, Bool.toNat_true, Nat.cast_one,
          Int.lt_add_one_iff]
    rw [forLoop]
    by_cases hrange : current < stop + inclusive.toNat
    · rw [if_pos (hin.mpr hrange), range_eq_cons hrange, List.map_cons, eachLoop]
      refine bind_congr fun flow => ?_
      cases flow with
      | some flow => rfl
      | none =>
        -- An inclusive range ends before its last integer is advanced.
        by_cases hend : inclusive = true ∧ current = stop
        · obtain ⟨rfl, rfl⟩ := hend
          simp [range_eq_nil, eachLoop]
        · have hnext : current + 1 ≤ stop := by
            cases inclusive <;> simp at hrange hend <;> omega
          rw [← ih (by omega)]
          simp [hend, hnext.trans hstop]
    · rw [if_neg (hin.not.mpr hrange), range_eq_nil (Int.not_lt.mp hrange)]
      rfl

theorem range_up_to_maxInt :
    forLoop (fun _ => (pure none : Run Int Unit (Option (Flow Int)))) true maxInt 3 (maxInt - 1) =
      eachLoop (fun _ => pure none) [maxInt - 1, maxInt] :=
  forLoop_eq_eachLoop (fun _ => pure none) id true le_rfl (by decide)

end

end Disp.Interpreter
