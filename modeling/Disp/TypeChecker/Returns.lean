import Disp.Interpreter.Discipline
import Disp.Library.Codec

/-!
# Return coverage

The type checker decides from the statements of a body alone whether it always returns, and takes
a `loop` for one that is never left if it finds no `break` in it.  The search for a `break` does
not look into unsafe blocks, so the verdict is wrong exactly where it rests on a loop that such a
`break` leaves.
-/

namespace Disp.TypeChecker.Returns

open Disp.Library Disp.Interpreter
open Disp.Library.Codec (bind_eq_ok)

variable {ε τ : Type}

/-! ## The check -/

mutual

/-- One statement of `contains_break_for_current_loop`. -/
def isBreakForCurrentLoop : Statement ε τ → Bool
  | .breaks => true
  | .ifThen _ thenBranch => containsBreakForCurrentLoop thenBranch
  | .ifElse _ thenBranch elseBranch =>
    containsBreakForCurrentLoop thenBranch || containsBreakForCurrentLoop elseBranch
  | _ => false

def containsBreakForCurrentLoop : List (Statement ε τ) → Bool
  | [] => false
  | statement :: statements =>
    isBreakForCurrentLoop statement || containsBreakForCurrentLoop statements

end

/-- The checks of `check_statement` that do not decide whether a body returns: each one fails with
a diagnostic or goes on, with the scopes and contexts `γ` it leaves. -/
structure Checks (ε τ γ : Type) where
  binding : String → Option τ → Option ε → γ → Except String γ
  assignment : String → AssignmentOperator → ε → γ → Except String γ
  placeAssignment : ε → AssignmentOperator → ε → γ → Except String γ
  expression : ε → γ → Except String γ
  /-- The value of a `return` against the expected type. -/
  returned : Option ε → γ → Except String γ
  /-- A condition, with the context its diagnostic names. -/
  condition : String → ε → γ → Except String γ
  range : ε → ε → γ → Except String γ
  /-- The iterable of `for name in iterable`, with `name` in a new scope. -/
  item : String → ε → γ → Except String γ
  beginScope : γ → γ
  endScope : γ → γ
  /-- The variable of a range, in a new scope. -/
  beginRange : String → γ → γ
  enterUnsafe : γ → γ
  exitUnsafe : γ → γ

section Check

variable {γ : Type} (checks : Checks ε τ γ)

mutual

/-- `check_statement`: whether the statement always returns. -/
def checkStatement : Statement ε τ → γ → Except String (Bool × γ)
  | .binding name declared value, scopes => do
      let scopes ← checks.binding name declared value scopes
      return (false, scopes)
  | .assignment name operator value, scopes => do
      let scopes ← checks.assignment name operator value scopes
      return (false, scopes)
  | .placeAssignment target operator value, scopes => do
      let scopes ← checks.placeAssignment target operator value scopes
      return (false, scopes)
  | .expression value, scopes => do
      let scopes ← checks.expression value scopes
      return (false, scopes)
  | .returns value, scopes => do
      let scopes ← checks.returned value scopes
      return (true, scopes)
  | .ifThen condition thenBranch, scopes => do
      let scopes ← checks.condition "if condition" condition scopes
      let (_, scopes) ← checkContents thenBranch (checks.beginScope scopes)
      return (false, checks.endScope scopes)
  | .ifElse condition thenBranch elseBranch, scopes => do
      let scopes ← checks.condition "if condition" condition scopes
      let (thenReturns, scopes) ← checkContents thenBranch (checks.beginScope scopes)
      let (elseReturns, scopes) ←
        checkContents elseBranch (checks.beginScope (checks.endScope scopes))
      return (thenReturns && elseReturns, checks.endScope scopes)
  | .whileLoop condition body, scopes => do
      let scopes ← checks.condition "while condition" condition scopes
      let (_, scopes) ← checkContents body (checks.beginScope scopes)
      return (false, checks.endScope scopes)
  | .forRange name start stop _ body, scopes => do
      let scopes ← checks.range start stop scopes
      let (_, scopes) ← checkContents body (checks.beginRange name scopes)
      return (false, checks.endScope scopes)
  | .forEach name iterable body, scopes => do
      let scopes ← checks.item name iterable scopes
      let (_, scopes) ← checkContents body scopes
      return (false, checks.endScope scopes)
  | .loop body, scopes => do
      let (_, scopes) ← checkContents body (checks.beginScope scopes)
      return (!containsBreakForCurrentLoop body, checks.endScope scopes)
  | .unsafeBlock body, scopes => do
      let (returns, scopes) ← checkContents body (checks.beginScope (checks.enterUnsafe scopes))
      return (returns, checks.exitUnsafe (checks.endScope scopes))
  | .breaks, scopes | .continues, scopes => .ok (false, scopes)

/-- `check_block_contents`: nothing is checked after a statement that always returns. -/
def checkContents : List (Statement ε τ) → γ → Except String (Bool × γ)
  | [], scopes => .ok (false, scopes)
  | statement :: statements, scopes => do
      let (returns, scopes) ← checkStatement statement scopes
      if returns then return (true, scopes) else checkContents statements scopes

end

/-- A function or a closure with a block as its body. -/
inductive Callable
  | function (name : String)
  | closure
  deriving DecidableEq, Repr

def Callable.mayFinish (callable : Callable) (result : String) : String :=
  match callable with
  | .function name => s!"function `{name}` may finish without returning {result}"
  | .closure => s!"closure may finish without returning {result}"

/-- The end of `check_callable`, and of the check of a closure: `result` is the text of the result
type, and `none` is `Unit`. -/
def checkCallable (callable : Callable) (result : Option String) (body : List (Statement ε τ))
    (scopes : γ) : Except String Unit := do
  let (alwaysReturns, _) ← checkContents checks body scopes
  match result with
  | none => return ()
  | some result => if alwaysReturns then return () else .error (callable.mayFinish result)

end Check

/-! ## How a body can end -/

/-- The ends of a statement that decide whether the next one runs, and whether the loop around it
is left. -/
structure Ends where
  finishes : Bool
  breaks : Bool
  deriving DecidableEq, Repr

def Ends.either (left right : Ends) : Ends :=
  ⟨left.finishes || right.finishes, left.breaks || right.breaks⟩

def Ends.andThen (first second : Ends) : Ends :=
  ⟨first.finishes && second.finishes, first.breaks || (first.finishes && second.breaks)⟩

mutual

/-- The ends of a statement if every condition can come out both ways.  A block counts as what is
in it, unsafe or not. -/
def ends : Statement ε τ → Ends
  | .binding _ _ _ | .assignment _ _ _ | .placeAssignment _ _ _ | .expression _ => ⟨true, false⟩
  | .returns _ | .continues => ⟨false, false⟩
  | .breaks => ⟨false, true⟩
  | .ifThen _ thenBranch => (contentsEnds thenBranch).either ⟨true, false⟩
  | .ifElse _ thenBranch elseBranch =>
    (contentsEnds thenBranch).either (contentsEnds elseBranch)
  | .whileLoop _ _ | .forRange _ _ _ _ _ | .forEach _ _ _ => ⟨true, false⟩
  | .loop body => ⟨(contentsEnds body).breaks, false⟩
  | .unsafeBlock body => contentsEnds body

def contentsEnds : List (Statement ε τ) → Ends
  | [] => ⟨true, false⟩
  | statement :: statements => (ends statement).andThen (contentsEnds statements)

end

def canFinish (body : List (Statement ε τ)) : Bool :=
  (contentsEnds body).finishes

/-! ## Executions end as foreseen -/

def Ends.Admits {ν : Type} (ends : Ends) : Flow ν → Prop
  | .normal => ends.finishes = true
  | .broke => ends.breaks = true
  | .returned _ | .continued => True

section Sound

variable {ν ω : Type} {host : Host τ ν ω} {evaluator : Evaluator ε ν ω} {left right : Ends}
  {flow : Flow ν} {execute : Statement ε τ → Run ν ω (Flow ν)} {body : List (Statement ε τ)}
  {session : Session ν ω} {fuel : Nat}

theorem admits_either_left (h : left.Admits flow) : (left.either right).Admits flow := by
  cases flow <;> simp_all [Ends.Admits, Ends.either]

theorem admits_either_right (h : right.Admits flow) : (left.either right).Admits flow := by
  cases flow <;> simp_all [Ends.Admits, Ends.either]

section

variable
  (hexecute : ∀ statement session after flow,
    execute statement session = (.ok flow, after) → (ends statement).Admits flow)

include hexecute

theorem admits_contents
    {after : Session ν ω} (h : executeContents host execute body session = (.ok flow, after)) :
    (contentsEnds body).Admits flow := by
  induction body generalizing session with
  | nil =>
    obtain ⟨rfl, -⟩ := Attempt.pure_eq_ok h
    simp [contentsEnds, Ends.Admits]
  | cons statement body ih =>
    obtain ⟨middle, first, hfirst, h⟩ := Attempt.bind_eq_ok h
    obtain ⟨settled, _, -, h⟩ := Attempt.bind_eq_ok h
    have hadmits := hexecute _ _ _ _ hfirst
    rw [contentsEnds]
    cases first with
    | normal =>
      have hrest := ih h
      cases flow <;> simp_all [Ends.Admits, Ends.andThen]
    | returned value | continued =>
      obtain ⟨rfl, -⟩ := Attempt.pure_eq_ok h
      trivial
    | broke =>
      obtain ⟨rfl, -⟩ := Attempt.pure_eq_ok h
      simp_all [Ends.Admits, Ends.andThen]

theorem admits_block
    {after : Session ν ω} (h : executeBlock host execute body session = (.ok flow, after)) :
    (contentsEnds body).Admits flow := by
  obtain ⟨popped, hscope, -⟩ := Attempt.followedBy_eq_ok h
  obtain ⟨inside, hcont, -⟩ := Attempt.within_eq_ok hscope
  exact admits_contents hexecute hcont

end

theorem rounds_eq_ok {round : Run ν ω (Option (Flow ν))} {after : Session ν ω}
    (h : rounds round fuel session = (.ok flow, after)) :
    ∃ before last, round before = (.ok (some flow), last) := by
  induction fuel generalizing session with
  | zero => cases h
  | succ fuel ih =>
    obtain ⟨middle, result, hround, h⟩ := Attempt.bind_eq_ok h
    cases result with
    | none => exact ih h
    | some flow' =>
      obtain ⟨rfl, -⟩ := Attempt.pure_eq_ok h
      exact ⟨_, _, hround⟩

theorem forLoop_eq_ok {round : Int → Run ν ω (Option (Flow ν))} {inclusive : Bool} {stop : Int}
    {current : Int} {after : Session ν ω}
    (h : forLoop round inclusive stop fuel current session = (.ok flow, after)) :
    flow = .normal ∨ ∃ value before last, round value before = (.ok (some flow), last) := by
  induction fuel generalizing current session with
  | zero => cases h
  | succ fuel ih =>
    unfold forLoop at h
    split at h
    · obtain ⟨middle, result, hround, h⟩ := Attempt.bind_eq_ok h
      cases result with
      | some flow' =>
        obtain ⟨rfl, -⟩ := Attempt.pure_eq_ok h
        exact .inr ⟨_, _, _, hround⟩
      | none =>
        dsimp only at h
        split at h
        · obtain ⟨rfl, -⟩ := Attempt.pure_eq_ok h
          exact .inl rfl
        split at h
        · exact ih h
        · cases h
    · obtain ⟨rfl, -⟩ := Attempt.pure_eq_ok h
      exact .inl rfl

theorem eachLoop_eq_ok {round : ν → Run ν ω (Option (Flow ν))} {items : List ν}
    {after : Session ν ω} (h : eachLoop round items session = (.ok flow, after)) :
    flow = .normal ∨ ∃ value before last, round value before = (.ok (some flow), last) := by
  induction items generalizing session with
  | nil =>
    obtain ⟨rfl, -⟩ := Attempt.pure_eq_ok h
    exact .inl rfl
  | cons item items ih =>
    obtain ⟨middle, result, hround, h⟩ := Attempt.bind_eq_ok h
    cases result with
    | none => exact ih h
    | some flow' =>
      obtain ⟨rfl, -⟩ := Attempt.pure_eq_ok h
      exact .inr ⟨_, _, _, hround⟩

theorem ne_broke_of_afterBody {first : Flow ν} (h : afterBody first = some flow) :
    flow ≠ .broke := by
  cases first <;> simp_all [afterBody] <;> rintro rfl <;> cases h

theorem ne_broke_of_roundWith {name : String} {body : Run ν ω (Flow ν)} {value : ν}
    {before last : Session ν ω}
    (h : roundWith host name body value before = (.ok (some flow), last)) : flow ≠ .broke := by
  obtain ⟨_, _, -, h⟩ := Attempt.bind_eq_ok h
  obtain ⟨_, first, -, h⟩ := Attempt.bind_eq_ok h
  exact ne_broke_of_afterBody (Attempt.pure_eq_ok h).1

theorem admits_loop (h : flow ≠ .broke) : (⟨true, false⟩ : Ends).Admits flow := by
  cases flow <;> simp_all [Ends.Admits]

/-- Every execution of a statement ends in one of its ends. -/
theorem admits_executeStatement (fuel : Nat) (statement : Statement ε τ)
    (session after : Session ν ω) (flow : Flow ν)
    (h : executeStatement host evaluator fuel statement session = (.ok flow, after)) :
    (ends statement).Admits flow := by
  induction fuel generalizing statement session after flow with
  | zero => cases h
  | succ fuel ih =>
    obtain ⟨charged, _, -, h⟩ := Attempt.bind_eq_ok h
    cases statement with
    | binding name declared value =>
      obtain ⟨_, _, -, h⟩ := Attempt.bind_eq_ok h
      obtain ⟨_, _, -, h⟩ := Attempt.bind_eq_ok h
      obtain ⟨rfl, -⟩ := Attempt.pure_eq_ok h
      simp [ends, Ends.Admits]
    | assignment name operator value | placeAssignment target operator value =>
      obtain ⟨_, _, -, h⟩ := Attempt.bind_eq_ok h
      obtain ⟨_, _, -, h⟩ := Attempt.bind_eq_ok h
      obtain ⟨_, _, -, h⟩ := Attempt.bind_eq_ok h
      obtain ⟨_, _, -, h⟩ := Attempt.bind_eq_ok h
      obtain ⟨_, _, -, h⟩ := Attempt.bind_eq_ok h
      obtain ⟨rfl, -⟩ := Attempt.pure_eq_ok h
      simp [ends, Ends.Admits]
    | expression value =>
      obtain ⟨_, _, -, h⟩ := Attempt.bind_eq_ok h
      obtain ⟨rfl, -⟩ := Attempt.pure_eq_ok h
      simp [ends, Ends.Admits]
    | returns value =>
      cases value with
      | none =>
        obtain ⟨rfl, -⟩ := Attempt.pure_eq_ok h
        trivial
      | some value =>
        obtain ⟨_, _, -, h⟩ := Attempt.bind_eq_ok h
        obtain ⟨rfl, -⟩ := Attempt.pure_eq_ok h
        trivial
    | ifThen value thenBranch =>
      obtain ⟨_, holds, -, h⟩ := Attempt.bind_eq_ok h
      cases holds with
      | true => exact admits_either_left (admits_block ih h)
      | false =>
        obtain ⟨rfl, -⟩ := Attempt.pure_eq_ok h
        exact admits_either_right rfl
    | ifElse value thenBranch elseBranch =>
      obtain ⟨_, holds, -, h⟩ := Attempt.bind_eq_ok h
      cases holds with
      | true => exact admits_either_left (admits_block ih h)
      | false => exact admits_either_right (admits_block ih h)
    | whileLoop value body =>
      apply admits_loop
      obtain ⟨before, last, hround⟩ := rounds_eq_ok h
      obtain ⟨_, holds, -, hround⟩ := Attempt.bind_eq_ok hround
      cases holds with
      | true =>
        obtain ⟨_, first, -, hround⟩ := Attempt.bind_eq_ok hround
        exact ne_broke_of_afterBody (Attempt.pure_eq_ok hround).1
      | false =>
        cases (Attempt.pure_eq_ok hround).1
        nofun
    | forRange name start stop inclusive body =>
      apply admits_loop
      obtain ⟨_, _, -, h⟩ := Attempt.bind_eq_ok h
      obtain ⟨_, _, -, h⟩ := Attempt.bind_eq_ok h
      rcases forLoop_eq_ok h with rfl | ⟨_, _, _, hround⟩
      · nofun
      · exact ne_broke_of_roundWith hround
    | forEach name iterable body =>
      apply admits_loop
      obtain ⟨_, _, -, h⟩ := Attempt.bind_eq_ok h
      rcases eachLoop_eq_ok h with rfl | ⟨_, _, _, hround⟩
      · nofun
      · exact ne_broke_of_roundWith hround
    | loop body =>
      obtain ⟨before, last, hround⟩ := rounds_eq_ok h
      obtain ⟨_, _, -, hround⟩ := Attempt.bind_eq_ok hround
      obtain ⟨_, first, hbody, hround⟩ := Attempt.bind_eq_ok hround
      have hafter := (Attempt.pure_eq_ok hround).1
      have hadmits := admits_block ih hbody
      cases first with
      | normal | continued => cases hafter
      | broke =>
        cases hafter
        exact hadmits
      | returned value =>
        cases hafter
        trivial
    | unsafeBlock body => exact admits_block ih h
    | breaks =>
      obtain ⟨rfl, -⟩ := Attempt.pure_eq_ok h
      rfl
    | continues =>
      obtain ⟨rfl, -⟩ := Attempt.pure_eq_ok h
      trivial

end Sound

/-! ## The verdict and the loops it rests on -/

mutual

/-- What `check_statement` says of a statement that passes the other checks. -/
def alwaysReturns : Statement ε τ → Bool
  | .returns _ => true
  | .ifElse _ thenBranch elseBranch => contentsReturn thenBranch && contentsReturn elseBranch
  | .loop body => !containsBreakForCurrentLoop body
  | .unsafeBlock body => contentsReturn body
  | _ => false

def contentsReturn : List (Statement ε τ) → Bool
  | [] => false
  | statement :: statements => alwaysReturns statement || contentsReturn statements

end

mutual

/-- A path through the statement leads to a `break` in an unsafe block. -/
def hiddenBreak : Statement ε τ → Bool
  | .unsafeBlock body => (contentsEnds body).breaks
  | .ifThen _ thenBranch => contentsHide thenBranch
  | .ifElse _ thenBranch elseBranch => contentsHide thenBranch || contentsHide elseBranch
  | _ => false

def contentsHide : List (Statement ε τ) → Bool
  | [] => false
  | statement :: statements =>
    hiddenBreak statement || ((ends statement).finishes && contentsHide statements)

end

mutual

/-- The verdict that the statement always returns rests on a loop that a hidden `break` leaves. -/
def misjudged : Statement ε τ → Bool
  | .ifElse _ thenBranch elseBranch => contentsMisjudged thenBranch || contentsMisjudged elseBranch
  | .loop body => contentsHide body
  | .unsafeBlock body => contentsMisjudged body
  | _ => false

/-- The first statement with the verdict decides; the checker looks at nothing behind it, and a
path that leaves it may still come to a `return` there. -/
def contentsMisjudged : List (Statement ε τ) → Bool
  | [] => false
  | statement :: statements =>
    if alwaysReturns statement then
      misjudged statement && canFinish statements
    else
      (ends statement).finishes && contentsMisjudged statements

end

mutual

/-- A `break` that the search does not find is hidden. -/
theorem breaks_eq_hiddenBreak {statement : Statement ε τ}
    (h : isBreakForCurrentLoop statement = false) :
    (ends statement).breaks = hiddenBreak statement := by
  cases statement with
  | breaks => cases h
  | ifThen value thenBranch =>
    simp only [ends, Ends.either, Bool.or_false, hiddenBreak]
    exact breaks_eq_contentsHide h
  | ifElse value thenBranch elseBranch =>
    rw [isBreakForCurrentLoop, Bool.or_eq_false_iff] at h
    simp only [ends, Ends.either, hiddenBreak]
    rw [breaks_eq_contentsHide h.1, breaks_eq_contentsHide h.2]
  | _ => simp [ends, hiddenBreak]

theorem breaks_eq_contentsHide {body : List (Statement ε τ)}
    (h : containsBreakForCurrentLoop body = false) :
    (contentsEnds body).breaks = contentsHide body := by
  cases body with
  | nil => rfl
  | cons statement body =>
    rw [containsBreakForCurrentLoop, Bool.or_eq_false_iff] at h
    simp only [contentsEnds, Ends.andThen, contentsHide]
    rw [breaks_eq_hiddenBreak h.1, breaks_eq_contentsHide h.2]

end

mutual

/-- A statement with the verdict can finish exactly if it is misjudged. -/
theorem finishes_eq_misjudged {statement : Statement ε τ} (h : alwaysReturns statement = true) :
    (ends statement).finishes = misjudged statement := by
  cases statement with
  | returns value => rfl
  | ifElse value thenBranch elseBranch =>
    rw [alwaysReturns, Bool.and_eq_true] at h
    have hthen := canFinish_eq_misjudged h.1
    have helse := canFinish_eq_misjudged h.2
    simp only [canFinish] at hthen helse
    simp only [ends, Ends.either, misjudged, hthen, helse]
  | loop body =>
    rw [alwaysReturns, Bool.not_eq_true'] at h
    exact breaks_eq_contentsHide h
  | unsafeBlock body =>
    have hbody : contentsReturn body = true := h
    exact canFinish_eq_misjudged hbody
  | _ => simp [alwaysReturns] at h

theorem canFinish_eq_misjudged {body : List (Statement ε τ)} (h : contentsReturn body = true) :
    canFinish body = contentsMisjudged body := by
  cases body with
  | nil => cases h
  | cons statement body =>
    rw [contentsReturn, Bool.or_eq_true] at h
    have hsplit : canFinish (statement :: body) =
        ((ends statement).finishes && canFinish body) := rfl
    rw [hsplit, contentsMisjudged]
    split_ifs with hfirst
    · rw [finishes_eq_misjudged hfirst]
    · rw [canFinish_eq_misjudged (h.resolve_left hfirst)]

end

section Accepted

variable {γ : Type} {checks : Checks ε τ γ}

mutual

/-- The verdict does not depend on the other checks. -/
theorem verdict_of_checkStatement {statement : Statement ε τ} {scopes after : γ} {returns : Bool}
    (h : checkStatement checks statement scopes = .ok (returns, after)) :
    returns = alwaysReturns statement := by
  cases statement with
  | ifElse value thenBranch elseBranch =>
    obtain ⟨_, -, h⟩ := bind_eq_ok h
    obtain ⟨⟨thenReturns, _⟩, hthen, h⟩ := bind_eq_ok h
    obtain ⟨⟨elseReturns, _⟩, helse, h⟩ := bind_eq_ok h
    cases h
    rw [alwaysReturns, verdict_of_checkContents hthen, verdict_of_checkContents helse]
  | loop body =>
    obtain ⟨_, -, h⟩ := bind_eq_ok h
    cases h
    rfl
  | unsafeBlock body =>
    obtain ⟨⟨_, _⟩, hbody, h⟩ := bind_eq_ok h
    cases h
    exact verdict_of_checkContents hbody
  | binding name declared value | assignment name operator value
  | placeAssignment target operator value | expression value | returns value =>
    obtain ⟨_, -, h⟩ := bind_eq_ok h
    cases h
    rfl
  | ifThen value body | whileLoop value body | forRange name start stop inclusive body
  | forEach name iterable body =>
    obtain ⟨_, -, h⟩ := bind_eq_ok h
    obtain ⟨_, -, h⟩ := bind_eq_ok h
    cases h
    rfl
  | breaks | continues =>
    cases h
    rfl

theorem verdict_of_checkContents {body : List (Statement ε τ)} {scopes after : γ} {returns : Bool}
    (h : checkContents checks body scopes = .ok (returns, after)) :
    returns = contentsReturn body := by
  cases body with
  | nil =>
    cases h
    rfl
  | cons statement body =>
    obtain ⟨⟨first, middle⟩, hstmt, h⟩ := bind_eq_ok h
    rw [contentsReturn, ← verdict_of_checkStatement hstmt]
    cases first with
    | true =>
      cases h
      rfl
    | false => exact verdict_of_checkContents h

end

theorem contentsReturn_of_accepted {callable : Callable} {result : String}
    {body : List (Statement ε τ)} {scopes : γ}
    (h : checkCallable checks callable (some result) body scopes = .ok ()) :
    contentsReturn body = true := by
  obtain ⟨⟨returns, after⟩, hcont, h⟩ := bind_eq_ok h
  cases returns with
  | true => exact (verdict_of_checkContents hcont).symm
  | false => cases h

end Accepted

/-! ## Every end is reached

Expressions that take their values from a list of choices lead an execution to every end that a
statement has. -/

section Complete

variable {session : Session Int (List Int)} {name : String} {statement : Statement ε τ}
  {flow : Flow Int} {body : List (Statement ε τ)} {run : Nat → Run Int (List Int) (Flow Int)}

/-- Values are integers, and every operation on them succeeds. -/
def choosing : Host τ Int (List Int) where
  unit := 0
  uninitialized := 0
  isUninitialized _ := true
  truth value := some (value != 0)
  integer value := some value
  ofInteger value := value
  items _ := some []
  reference _ := none
  captureReference _ := none
  coerceValue value _ := .ok value
  coerceLike value _ := .ok value
  combine _ _ value := .ok value
  readValuePath value _ := some value
  writeValuePath _ _ value := some value
  chargeSteps world := .ok world
  reconcileObjectMemory _ world := .ok world

def choose : Run Int (List Int) Int := fun session =>
  match session.world with
  | [] => (.ok 0, session)
  | value :: world => (.ok value, { session with world })

def chooser : Evaluator ε Int (List Int) where
  evaluate _ := choose
  consume _ := choose
  dynamicPlace _ := pure (some ⟨0, "place", []⟩)

theorem restores_choose : Restores choose := by
  intro session _
  unfold choose
  cases session.world with
  | nil => exact Session.Same.refl session
  | cons value world => exact ⟨rfl, rfl⟩

theorem chooser_disciplined : (chooser : Evaluator ε Int (List Int)).Disciplined :=
  ⟨fun _ => restores_choose, fun _ => restores_choose, fun _ => restores_pure _⟩

/-- The outermost scope has the variables that assignments need. -/
def Ready (names : List String) (session : Session Int (List Int)) : Prop :=
  ∃ outer inner, Frames.names session.scopes = inner ++ [outer] ∧ "place" :: names ⊆ outer

variable {names : List String}

theorem Ready.grows {before after : Session Int (List Int)}
    (h : Ready names before) (hgrows : before.Grows after) : Ready names after := by
  obtain ⟨outer, inner, hnames, hsub⟩ := h
  cases inner with
  | nil =>
    obtain ⟨added, hadded⟩ := hgrows.names outer [] hnames
    exact ⟨added ++ outer, [], hadded, List.Subset.trans hsub (List.subset_append_right _ _)⟩
  | cons scope inner =>
    obtain ⟨added, hadded⟩ := hgrows.names scope (inner ++ [outer]) hnames
    exact ⟨outer, (added ++ scope) :: inner, hadded, hsub⟩

theorem Ready.push (h : Ready names session) (values : List (String × Int)) :
    Ready names (session.pushScope values) := by
  obtain ⟨outer, inner, hnames, hsub⟩ := h
  refine ⟨outer, values.map Prod.fst :: inner, ?_, hsub⟩
  rw [List.cons_append, ← hnames]
  rfl

theorem Ready.get (h : Ready names session) :
    ∃ value, Frames.get session.scopes (0, "place") = some value := by
  obtain ⟨outer, inner, hnames, hsub⟩ := h
  exact Option.isSome_iff_exists.mp (Frames.get_outermost hnames (hsub List.mem_cons_self))

theorem Ready.lookup (h : Ready names session) (hname : name ∈ names) :
    ∃ value, session.lookup name = some value := by
  obtain ⟨outer, inner, hnames, hsub⟩ := h
  have hget := Frames.get_outermost hnames (hsub (List.mem_cons_of_mem _ hname))
  obtain ⟨found, hfound⟩ := Option.isSome_iff_exists.mp (Frames.lookup_isSome_of_get hget)
  exact ⟨found.2, by rw [Session.lookup, hfound]; rfl⟩

def withChoices (session : Session Int (List Int)) (choices : List Int) :
    Session Int (List Int) :=
  { session with world := choices }

/-- From every session, some choices lead to the end and are then used up. -/
def Realizes (names : List String) (run : Nat → Run Int (List Int) (Flow Int))
    (flow : Flow Int) : Prop :=
  ∃ choices bound, ∀ session, Ready names session → ∀ rest fuel, bound ≤ fuel →
    ∃ after, run fuel (withChoices session (choices ++ rest)) = (.ok flow, after) ∧
      after.world = rest

mutual

/-- The names a statement assigns to. -/
def assignedNames : Statement ε τ → List String
  | .assignment name _ _ => [name]
  | .ifThen _ body | .whileLoop _ body | .forRange _ _ _ _ body | .forEach _ _ body
  | .loop body | .unsafeBlock body => contentsNames body
  | .ifElse _ thenBranch elseBranch => contentsNames thenBranch ++ contentsNames elseBranch
  | _ => []

def contentsNames : List (Statement ε τ) → List String
  | [] => []
  | statement :: statements => assignedNames statement ++ contentsNames statements

end

def runStatement (statement : Statement ε τ) (fuel : Nat) : Run Int (List Int) (Flow Int) :=
  executeStatement choosing chooser fuel statement

def runContents (body : List (Statement ε τ)) (fuel : Nat) : Run Int (List Int) (Flow Int) :=
  executeContents choosing (executeStatement choosing chooser fuel) body

def runBlock (body : List (Statement ε τ)) (fuel : Nat) : Run Int (List Int) (Flow Int) :=
  executeBlock choosing (executeStatement choosing chooser fuel) body

variable {names : List String}

theorem ready_after {after : Session Int (List Int)} (h : Ready names session) {fuel : Nat}
    (hrun : runStatement statement fuel session = (.ok flow, after)) : Ready names after :=
  h.grows ((declares_executeStatement chooser_disciplined fuel statement).of_ok hrun)

theorem Realizes.block (h : Realizes names (runContents body) flow) :
    Realizes names (runBlock body) flow := by
  obtain ⟨choices, bound, hruns⟩ := h
  refine ⟨choices, bound, fun session hready rest fuel hfuel => ?_⟩
  obtain ⟨after, hrun, hworld⟩ := hruns (session.pushScope []) (hready.push []) rest fuel hfuel
  refine ⟨after.popScope, ?_, hworld⟩
  unfold runBlock executeBlock Attempt.followedBy inScope Attempt.within
  rw [show executeContents choosing (executeStatement choosing chooser fuel) body
    ((withChoices session (choices ++ rest)).pushScope []) = (.ok flow, after) from hrun]
  rfl

theorem Realizes.cons {statement : Statement ε τ} {body : List (Statement ε τ)} {flow : Flow Int}
    (hfirst : Realizes names (runStatement statement) .normal)
    (hrest : Realizes names (runContents body) flow) :
    Realizes names (runContents (statement :: body)) flow := by
  obtain ⟨first, bound, hruns⟩ := hfirst
  obtain ⟨second, bound', hruns'⟩ := hrest
  refine ⟨first ++ second, max bound bound', fun session hready rest fuel hfuel => ?_⟩
  obtain ⟨middle, hrun, hworld⟩ := hruns session hready (second ++ rest) fuel (by omega)
  have hstart : Ready names (withChoices session (first ++ (second ++ rest))) := hready
  have hmid := ready_after hstart hrun
  obtain ⟨after, hrun', hworld'⟩ := hruns' middle hmid rest fuel (by omega)
  rw [withChoices, ← hworld] at hrun'
  refine ⟨after, ?_, hworld'⟩
  rw [List.append_assoc]
  exact (Attempt.bind_of_ok _ hrun).trans hrun'

theorem Realizes.cons_of_ne (h : Realizes names (runStatement statement) flow)
    (hne : flow ≠ .normal) (body : List (Statement ε τ)) :
    Realizes names (runContents (statement :: body)) flow := by
  obtain ⟨choices, bound, hruns⟩ := h
  refine ⟨choices, bound, fun session hready rest fuel hfuel => ?_⟩
  obtain ⟨after, hrun, hworld⟩ := hruns session hready rest fuel hfuel
  refine ⟨after, (Attempt.bind_of_ok _ hrun).trans ?_, hworld⟩
  cases flow with
  | normal => exact absurd rfl hne
  | returned value | broke | continued => rfl

theorem realizes_of_pure (choices : List Int)
    (h : ∀ session, Ready names session → ∀ rest fuel, ∃ after,
      run (fuel + 2) (withChoices session (choices ++ rest)) = (.ok flow, after) ∧
        after.world = rest) : Realizes names run flow := by
  refine ⟨choices, 2, fun session hready rest fuel hfuel => ?_⟩
  obtain ⟨fuel, rfl⟩ : ∃ less, fuel = less + 2 := ⟨fuel - 2, by omega⟩
  exact h session hready rest fuel

theorem realizes_binding (name : String) (declared : Option τ) (value : Option ε) :
    Realizes names (runStatement (.binding name declared value : Statement ε τ)) .normal := by
  cases value with
  | none =>
    refine realizes_of_pure [] fun session hready rest fuel => ?_
    cases declared <;> exact ⟨_, rfl, rfl⟩
  | some value =>
    refine realizes_of_pure [0] fun session hready rest fuel => ?_
    cases declared <;> exact ⟨_, rfl, rfl⟩

theorem combined_choosing {operator : AssignmentOperator} {left : Run Int (List Int) Int}
    {old : Int} (h : left session = (.ok old, session)) (right : Int) :
    combined (choosing : Host τ Int (List Int)) operator left right session =
      (.ok right, session) := by
  unfold combined
  split_ifs
  · rfl
  · exact (Attempt.bind_of_ok _ h).trans rfl

theorem realizes_assignment (hname : name ∈ names) (operator : AssignmentOperator) (value : ε) :
    Realizes names (runStatement (.assignment name operator value : Statement ε τ)) .normal := by
  refine realizes_of_pure [0] fun session hready rest fuel => ?_
  obtain ⟨found, hfound⟩ := hready.lookup hname
  have hlook : (withChoices session rest).lookup name = some found := hfound
  have hcur : current (choosing : Host τ Int (List Int)) (withChoices session rest) name =
      some found := by
    rw [current, hlook]
    rfl
  obtain ⟨after, hassign, hworld⟩ : ∃ after, assignOrInsert (choosing : Host τ Int (List Int)) name
      operator 0 (withChoices session rest) = (.ok (), after) ∧ after.world = rest := by
    rw [assignOrInsert, assign, hlook]
    exact ⟨_, rfl, rfl⟩
  refine ⟨after, ?_, hworld⟩
  change (do
    let right ← coerceExisting choosing (current choosing (withChoices session rest) name) 0
    let new ← combined choosing operator (Attempt.ofOption (.error s!"undefined variable `{name}`")
      (current choosing (withChoices session rest) name)) right
    assignOrInsert choosing name operator new
    return .normal : Run Int (List Int) (Flow Int)) (withChoices session rest) = _
  rw [hcur]
  refine (Attempt.bind_of_ok _ (combined_choosing rfl 0)).trans ?_
  exact (Attempt.bind_of_ok _ hassign).trans rfl

theorem realizes_placeAssignment (target : ε) (operator : AssignmentOperator) (value : ε) :
    Realizes names (runStatement (.placeAssignment target operator value : Statement ε τ))
      .normal := by
  refine realizes_of_pure [0] fun session hready rest fuel => ?_
  obtain ⟨found, hfound⟩ := hready.get
  have hget : Frames.get (withChoices session rest).scopes (0, "place") = some found := hfound
  have hread : readAt (choosing : Host τ Int (List Int)) "invalid assignment target"
      ⟨0, "place", []⟩ (withChoices session rest) = (.ok found, withChoices session rest) := by
    have hplace : readPlace (choosing : Host τ Int (List Int)) (withChoices session rest)
        ⟨0, "place", []⟩ = some found := by
      unfold readPlace
      rw [hget]
      rfl
    change Attempt.ofOption _ (readPlace choosing (withChoices session rest) ⟨0, "place", []⟩)
      (withChoices session rest) = _
    rw [hplace]
    rfl
  obtain ⟨after, hwrite, hworld⟩ : ∃ after, replace "invalid assignment target" (fun session =>
      writePlace (choosing : Host τ Int (List Int)) session ⟨0, "place", []⟩ 0)
      (withChoices session rest) = (.ok (), after) ∧ after.world = rest := by
    rw [replace, writePlace, hget]
    exact ⟨_, rfl, rfl⟩
  refine ⟨after, ?_, hworld⟩
  refine (Attempt.bind_of_ok _ (combined_choosing hread 0)).trans ?_
  exact (Attempt.bind_of_ok _ hwrite).trans rfl

theorem realizes_expression (value : ε) :
    Realizes names (runStatement (.expression value : Statement ε τ)) .normal :=
  realizes_of_pure [0] fun _ _ _ _ => ⟨_, rfl, rfl⟩

theorem Realizes.after {inner : Nat → Run Int (List Int) (Flow Int)}
    (h : Realizes names inner flow) (first : List Int)
    (hrun : ∀ session choices fuel, run (fuel + 1) (withChoices session (first ++ choices)) =
      inner fuel (withChoices session choices)) : Realizes names run flow := by
  obtain ⟨choices, bound, hruns⟩ := h
  refine ⟨first ++ choices, bound + 1, fun session hready rest fuel hfuel => ?_⟩
  obtain ⟨fuel, rfl⟩ : ∃ less, fuel = less + 1 := ⟨fuel - 1, by omega⟩
  rw [List.append_assoc, hrun]
  exact hruns session hready rest fuel (Nat.le_of_succ_le_succ hfuel)

theorem Realizes.loop (h : Realizes names (runContents body) .broke) :
    Realizes names (runStatement (.loop body)) .normal := by
  obtain ⟨choices, bound, hruns⟩ := h.block
  refine ⟨choices, bound + 2, fun session hready rest fuel hfuel => ?_⟩
  obtain ⟨fuel, rfl⟩ : ∃ less, fuel = less + 2 := ⟨fuel - 2, by omega⟩
  obtain ⟨after, hrun, hworld⟩ := hruns session hready rest (fuel + 1) (by omega)
  refine ⟨after, ?_, hworld⟩
  have hround : (do
      return afterBody (← executeBlock choosing (executeStatement choosing chooser (fuel + 1))
        body) : Run Int (List Int) (Option (Flow Int)))
      (withChoices session (choices ++ rest)) = (.ok (some .normal), after) :=
    (Attempt.bind_of_ok _ rfl).trans ((Attempt.bind_of_ok _ hrun).trans rfl)
  exact (Attempt.bind_of_ok _ rfl).trans ((Attempt.bind_of_ok _ hround).trans rfl)

mutual

/-- Every end of a statement is the end of an execution. -/
theorem realizes_statement (statement : Statement ε τ) (hnames : assignedNames statement ⊆ names) :
    ((ends statement).finishes = true → Realizes names (runStatement statement) .normal) ∧
      ((ends statement).breaks = true → Realizes names (runStatement statement) .broke) := by
  cases statement with
  | binding name declared value =>
    exact ⟨fun _ => realizes_binding name declared value, fun h => by simp [ends] at h⟩
  | assignment name operator value =>
    have hname : name ∈ names := hnames (by simp [assignedNames])
    exact ⟨fun _ => realizes_assignment hname operator value, fun h => by simp [ends] at h⟩
  | placeAssignment target operator value =>
    exact ⟨fun _ => realizes_placeAssignment target operator value, fun h => by simp [ends] at h⟩
  | expression value =>
    exact ⟨fun _ => realizes_expression value, fun h => by simp [ends] at h⟩
  | returns value => exact ⟨fun h => by simp [ends] at h, fun h => by simp [ends] at h⟩
  | ifThen value thenBranch =>
    have hthen := realizes_contents thenBranch (by simpa [assignedNames] using hnames)
    refine ⟨fun _ => ?_, fun h => ?_⟩
    · exact realizes_of_pure [0] fun _ _ _ _ => ⟨_, rfl, rfl⟩
    · simp only [ends, Ends.either, Bool.or_false] at h
      exact (hthen.2 h).block.after [1] fun _ _ _ => rfl
  | ifElse value thenBranch elseBranch =>
    rw [assignedNames, List.append_subset] at hnames
    have hthen := realizes_contents thenBranch hnames.1
    have helse := realizes_contents elseBranch hnames.2
    simp only [ends, Ends.either, Bool.or_eq_true]
    refine ⟨fun h => ?_, fun h => ?_⟩
    · rcases h with h | h
      · exact (hthen.1 h).block.after [1] fun _ _ _ => rfl
      · exact (helse.1 h).block.after [0] fun _ _ _ => rfl
    · rcases h with h | h
      · exact (hthen.2 h).block.after [1] fun _ _ _ => rfl
      · exact (helse.2 h).block.after [0] fun _ _ _ => rfl
  | whileLoop value body | forEach name iterable body =>
    refine ⟨fun _ => ?_, fun h => by simp [ends] at h⟩
    exact realizes_of_pure [0] fun _ _ _ _ => ⟨_, rfl, rfl⟩
  | forRange name start stop inclusive body =>
    refine ⟨fun _ => ?_, fun h => by simp [ends] at h⟩
    cases inclusive with
    | true | false => exact realizes_of_pure [1, 0] fun _ _ _ _ => ⟨_, rfl, rfl⟩
  | loop body =>
    have hbody := realizes_contents body (by simpa [assignedNames] using hnames)
    exact ⟨fun h => (hbody.2 h).loop, fun h => by simp [ends] at h⟩
  | unsafeBlock body =>
    have hbody := realizes_contents body (by simpa [assignedNames] using hnames)
    exact ⟨fun h => (hbody.1 h).block.after [] fun _ _ _ => rfl,
      fun h => (hbody.2 h).block.after [] fun _ _ _ => rfl⟩
  | breaks =>
    exact ⟨fun h => by simp [ends] at h,
      fun _ => realizes_of_pure [] fun _ _ _ _ => ⟨_, rfl, rfl⟩⟩
  | continues => exact ⟨fun h => by simp [ends] at h, fun h => by simp [ends] at h⟩

theorem realizes_contents (body : List (Statement ε τ)) (hnames : contentsNames body ⊆ names) :
    ((contentsEnds body).finishes = true → Realizes names (runContents body) .normal) ∧
      ((contentsEnds body).breaks = true → Realizes names (runContents body) .broke) := by
  cases body with
  | nil =>
    exact ⟨fun _ => ⟨[], 0, fun _ _ _ _ _ => ⟨_, rfl, rfl⟩⟩, fun h => by simp [contentsEnds] at h⟩
  | cons statement body =>
    rw [contentsNames, List.append_subset] at hnames
    have hfirst := realizes_statement statement hnames.1
    have hrest := realizes_contents body hnames.2
    simp only [contentsEnds, Ends.andThen, Bool.and_eq_true, Bool.or_eq_true]
    refine ⟨fun h => (hfirst.1 h.1).cons (hrest.1 h.2), fun h => ?_⟩
    rcases h with h | h
    · exact (hfirst.2 h).cons_of_ne nofun body
    · exact (hfirst.1 h.1).cons (hrest.2 h.2)

end

end Complete

/-! ## Functions and closures with a result -/

/-- No execution of the body reaches its end, whatever its expressions do. -/
def NeverFinishes (body : List (Statement ε τ)) : Prop :=
  ∀ (ν ω : Type) (host : Host τ ν ω) (evaluator : Evaluator ε ν ω) (fuel : Nat)
    (session after : Session ν ω),
    executeContents host (executeStatement host evaluator fuel) body session ≠
      (.ok .normal, after)

theorem neverFinishes_iff (body : List (Statement ε τ)) :
    NeverFinishes body ↔ canFinish body = false := by
  constructor
  · intro h
    rw [← Bool.not_eq_true]
    intro hfinishes
    have hreach := realizes_contents body (List.Subset.refl (contentsNames body))
    obtain ⟨choices, bound, hruns⟩ := hreach.1 hfinishes
    have hready : Ready (contentsNames body)
        ⟨[("place" :: contentsNames body).map fun name => (name, 0)], 0, []⟩ :=
      ⟨"place" :: contentsNames body, [], by simp [Frames.names, Function.comp_def],
        List.Subset.refl _⟩
    obtain ⟨after, hrun, -⟩ := hruns _ hready [] bound le_rfl
    exact h _ _ _ _ _ _ _ hrun
  · intro h ν ω host evaluator fuel session after hrun
    have hadmits := admits_contents (admits_executeStatement fuel) hrun
    rw [canFinish] at h
    simp [Ends.Admits, h] at hadmits

/-- A body with a result that the checker accepts is never left at its end exactly if no verdict
that the checker has used rests on a loop that a `break` in an unsafe block leaves, with a path
from there to the end. -/
theorem accepted_body_never_finishes_iff {γ : Type} {checks : Checks ε τ γ} {callable : Callable}
    {result : String} {body : List (Statement ε τ)} {scopes : γ}
    (haccepted : checkCallable checks callable (some result) body scopes = .ok ()) :
    NeverFinishes body ↔ contentsMisjudged body = false := by
  rw [neverFinishes_iff, canFinish_eq_misjudged (contentsReturn_of_accepted haccepted)]

/-- Every check passes. -/
def passing : Checks Unit Unit Unit where
  binding _ _ _ _ := .ok ()
  assignment _ _ _ _ := .ok ()
  placeAssignment _ _ _ _ := .ok ()
  expression _ _ := .ok ()
  returned _ _ := .ok ()
  condition _ _ _ := .ok ()
  range _ _ _ := .ok ()
  item _ _ _ := .ok ()
  beginScope _ := ()
  endScope _ := ()
  beginRange _ _ := ()
  enterUnsafe _ := ()
  exitUnsafe _ := ()

/-- `loop { if c { return v } else { unsafe { continue } } }`. -/
def retryBody : List (Statement Unit Unit) :=
  [.loop [.ifElse () [.returns (some ())] [.unsafeBlock [.continues]]]]

/-- `return v  loop { unsafe { break } }`: the checker does not come to the loop. -/
def earlyBody : List (Statement Unit Unit) :=
  [.returns (some ()), .loop [.unsafeBlock [.breaks]]]

theorem retry_and_early_never_finish : NeverFinishes retryBody ∧ NeverFinishes earlyBody := by
  have hretry : checkCallable passing (.function "retry") (some "int") retryBody () = .ok () := rfl
  have hearly : checkCallable passing .closure (some "int") earlyBody () = .ok () := rfl
  exact ⟨(accepted_body_never_finishes_iff hretry).mpr rfl,
    (accepted_body_never_finishes_iff hearly).mpr rfl⟩

/-- `loop { unsafe { break } }` is accepted as a body with a result, and an
execution of it reaches the end. -/
theorem break_in_unsafe_block_finishes : checkCallable passing (.function "f") (some "int")
        [.loop [.unsafeBlock [.breaks]]] () = .ok () ∧
      ¬ NeverFinishes ([.loop [.unsafeBlock [.breaks]]] : List (Statement Unit Unit)) := by
  refine ⟨rfl, fun h => ?_⟩
  rw [neverFinishes_iff] at h
  cases h

end Disp.TypeChecker.Returns
