import Disp.Interpreter.Statements

/-!
# Scope discipline of statements

A statement may add names to the innermost scope, and nothing else changes in the stack of scopes
but the values of variables.  A block, which pops the scope it pushed, leaves the stack as it was.
All this holds for every way a statement ends that a program can go on from: normally, by
`return`, `break` or `continue`, and by a value that `?` propagates.
-/

namespace Disp.Interpreter

open Disp.Library

section

variable {ε τ ν ω : Type}

/-! ## Relations between sessions -/

namespace Session

variable {a b c before after : Session ν ω}

/-- The same scopes with the same names, and the same call depth. -/
structure Same (before after : Session ν ω) : Prop where
  names : Frames.names after.scopes = Frames.names before.scopes
  callDepth : after.callDepth = before.callDepth

/-- Names can be new in the innermost scope. -/
structure Grows (before after : Session ν ω) : Prop where
  names : ∀ scope rest, Frames.names before.scopes = scope :: rest →
    ∃ added, Frames.names after.scopes = (added ++ scope) :: rest
  callDepth : after.callDepth = before.callDepth

theorem Same.refl (session : Session ν ω) : session.Same session := ⟨rfl, rfl⟩

theorem Same.trans (hab : a.Same b) (hbc : b.Same c) : a.Same c :=
  ⟨hbc.names.trans hab.names, hbc.callDepth.trans hab.callDepth⟩

theorem Same.grows (h : before.Same after) : before.Grows after :=
  ⟨fun _ _ hnames => ⟨[], h.names.trans hnames⟩, h.callDepth⟩

theorem Grows.refl (session : Session ν ω) : session.Grows session := (Same.refl session).grows

theorem Grows.trans (hab : a.Grows b) (hbc : b.Grows c) : a.Grows c where
  names scope rest hnames := by
    obtain ⟨first, hfirst⟩ := hab.names scope rest hnames
    obtain ⟨second, hsecond⟩ := hbc.names _ rest hfirst
    exact ⟨second ++ first, by rw [hsecond, List.append_assoc]⟩
  callDepth := hbc.callDepth.trans hab.callDepth

theorem grows_insert (name : String) (value : ν) (session : Session ν ω) :
    session.Grows (session.insert name value) where
  names scope rest hnames := by
    cases hscopes : session.scopes with
    | nil =>
      rw [hscopes] at hnames
      cases hnames
    | cons first scopes =>
      rw [hscopes] at hnames
      cases hnames
      exact ⟨[name], by simp [insert, hscopes, Frames.declare, Frames.names]⟩
  callDepth := rfl

theorem Grows.popScope {values : List (String × ν)} (h : (before.pushScope values).Grows after) :
    before.Same after.popScope where
  names := by
    obtain ⟨added, hadded⟩ := h.names (values.map Prod.fst) (Frames.names before.scopes) rfl
    have htail := congrArg List.tail hadded
    simpa [Frames.names, Session.popScope] using htail
  callDepth := h.callDepth

end Session

def Fault.propagates : Fault ν → Prop
  | .propagate _ => True
  | .error _ | .exhausted => False

/-- However it ends, the stack of scopes is as before. -/
abbrev Restores {α : Type} (run : Run ν ω α) : Prop :=
  Attempt.Keeps Session.Same Fault.propagates run

/-- However it ends, at most the innermost scope has new names. -/
abbrev Declares {α : Type} (run : Run ν ω α) : Prop :=
  Attempt.Keeps Session.Grows Fault.propagates run

section Rules

variable {α β : Type} {run : Run ν ω α} {next : α → Run ν ω β}

theorem Restores.declares (h : Restores run) : Declares run :=
  h.mono fun _ _ => Session.Same.grows

theorem restores_pure (value : α) : Restores (pure value : Run ν ω α) :=
  Attempt.keeps_pure Session.Same.refl value

theorem restores_fail (fault : Fault ν) : Restores (Attempt.fail fault : Run ν ω α) :=
  Attempt.keeps_fail Session.Same.refl fault

theorem restores_inspect (f : Session ν ω → α) : Restores (Attempt.inspect f : Run ν ω α) :=
  Attempt.keeps_inspect Session.Same.refl f

theorem restores_ofOption (fault : Fault ν) (result : Option α) :
    Restores (Attempt.ofOption fault result : Run ν ω α) :=
  Attempt.keeps_ofOption Session.Same.refl fault result

theorem restores_lift (result : Except String α) : Restores (lift result : Run ν ω α) := by
  cases result with
  | ok value => exact restores_pure value
  | error message => exact restores_fail _

theorem Restores.bind (h : Restores run) (hnext : ∀ value, Restores (next value)) :
    Restores (run >>= next) :=
  Attempt.Keeps.bind (fun _ _ _ hab hbc => hab.trans hbc) h hnext

theorem Declares.bind (h : Declares run) (hnext : ∀ value, Declares (next value)) :
    Declares (run >>= next) :=
  Attempt.Keeps.bind (fun _ _ _ hab hbc => hab.trans hbc) h hnext

theorem restores_onWorld (change : Frames String ν → ω → Except String ω) :
    Restores (onWorld change) := by
  intro session _
  unfold onWorld
  cases change session.scopes session.world with
  | ok world => exact ⟨rfl, rfl⟩
  | error message => exact Session.Same.refl session

theorem onWorld_fails {change : Frames String ν → ω → Except String ω} {session : Session ν ω}
    {fault : Fault ν} (h : (onWorld change session).1 = .error fault) : ¬ fault.propagates := by
  unfold onWorld at h
  cases hres : change session.scopes session.world with
  | ok world =>
    rw [hres] at h
    cases h
  | error message =>
    rw [hres] at h
    cases h
    exact id

theorem Declares.inScope {values : List (String × ν)} {run : Run ν ω α} (h : Declares run) :
    Restores (inScope values run) :=
  Attempt.Keeps.within h fun _ _ => Session.Grows.popScope

end Rules

/-! ## Writing to variables -/

section Writing

variable {host : Host τ ν ω} {session after : Session ν ω} {value : ν}

theorem same_writePlace {place : Place} (h : writePlace host session place value = some after) :
    session.Same after := by
  obtain ⟨root, -, h⟩ := Option.bind_eq_some_iff.mp h
  obtain ⟨new, -, h⟩ := Option.bind_eq_some_iff.mp h
  cases h
  exact ⟨Frames.names_set _ _ _, rfl⟩

theorem same_assign {name : String} (h : assign host session name value = some after) :
    session.Same after := by
  unfold assign at h
  split at h
  · cases h
  · split at h
    · split_ifs at h
      exact same_writePlace h
    · cases h
      exact ⟨Frames.names_update _ _ _, rfl⟩

theorem restores_replace {message : String} {change : Session ν ω → Option (Session ν ω)}
    (h : ∀ session after, change session = some after → session.Same after) :
    Restores (replace message change) := by
  intro session _
  unfold replace
  cases hchange : change session with
  | none => exact Session.Same.refl session
  | some after => exact h session after hchange

theorem restores_readAt (message : String) (place : Place) : Restores (readAt host message place) :=
  (restores_inspect _).bind fun _ => restores_ofOption _ _

theorem declares_assignOrInsert (name : String) (operator : AssignmentOperator) (value : ν) :
    Declares (assignOrInsert host name operator value) := by
  intro session _
  unfold assignOrInsert
  cases hassign : assign host session name value with
  | some after => exact (same_assign hassign).grows
  | none =>
    split_ifs
    · exact Session.grows_insert name value session
    · exact Session.Grows.refl session

end Writing

/-! ## Statements -/

/-- Evaluating an expression leaves the stack of scopes as it was. -/
structure Evaluator.Disciplined (evaluator : Evaluator ε ν ω) : Prop where
  evaluate : ∀ value, Restores (evaluator.evaluate value)
  consume : ∀ value, Restores (evaluator.consume value)
  dynamicPlace : ∀ value, Restores (evaluator.dynamicPlace value)

section Statements

variable {host : Host τ ν ω} {evaluator : Evaluator ε ν ω}
  {execute : Statement ε τ → Run ν ω (Flow ν)}

theorem restores_reconcile : Restores (reconcile host) := restores_onWorld _

theorem restores_condition (hdisc : evaluator.Disciplined) (message : String)
    (value : ε) : Restores (condition host evaluator message value) :=
  (hdisc.evaluate value).bind fun _ => restores_ofOption _ _

theorem restores_rangeEnd (hdisc : evaluator.Disciplined) (message : String)
    (value : ε) : Restores (rangeEnd host evaluator message value) :=
  (hdisc.evaluate value).bind fun _ => restores_ofOption _ _

theorem declares_executeContents (h : ∀ statement, Declares (execute statement))
    (block : List (Statement ε τ)) : Declares (executeContents host execute block) := by
  induction block with
  | nil => exact (restores_pure _).declares
  | cons statement block ih =>
    refine (h statement).bind fun flow => restores_reconcile.declares.bind fun _ => ?_
    cases flow with
    | normal => exact ih
    | returned value | broke | continued => exact (restores_pure _).declares

theorem restores_executeBlock (h : ∀ statement, Declares (execute statement))
    (block : List (Statement ε τ)) : Restores (executeBlock host execute block) :=
  Attempt.Keeps.followedBy (fun _ _ _ hab hbc => hab.trans hbc)
    (declares_executeContents h block).inScope restores_reconcile
    fun _ _ => onWorld_fails

theorem restores_rounds {round : Run ν ω (Option (Flow ν))} (h : Restores round) (fuel : Nat) :
    Restores (rounds round fuel) := by
  induction fuel with
  | zero => exact restores_fail _
  | succ fuel ih =>
    refine h.bind fun result => ?_
    cases result with
    | none => exact ih
    | some flow => exact restores_pure flow

theorem restores_forLoop {round : Int → Run ν ω (Option (Flow ν))}
    (h : ∀ value, Restores (round value)) (inclusive : Bool) (stop : Int) (fuel : Nat)
    (current : Int) : Restores (forLoop round inclusive stop fuel current) := by
  induction fuel generalizing current with
  | zero => exact restores_fail _
  | succ fuel ih =>
    unfold forLoop
    split
    · refine (h current).bind fun result => ?_
      cases result with
      | some flow => exact restores_pure flow
      | none =>
        dsimp only
        split
        · exact restores_pure _
        split
        · exact ih _
        · exact restores_fail _
    · exact restores_pure _

theorem restores_eachLoop {round : ν → Run ν ω (Option (Flow ν))}
    (h : ∀ value, Restores (round value)) (items : List ν) : Restores (eachLoop round items) := by
  induction items with
  | nil => exact restores_pure _
  | cons item items ih =>
    refine (h item).bind fun result => ?_
    cases result with
    | none => exact ih
    | some flow => exact restores_pure flow

theorem restores_roundWith {name : String} {body : Run ν ω (Flow ν)} (h : Declares body)
    (value : ν) : Restores (roundWith host name body value) :=
  (restores_onWorld _).bind fun _ => h.inScope.bind fun _ => restores_pure _

theorem restores_annotated (declared : Option τ) (value : ν) :
    Restores (annotated host declared value) := by
  cases declared with
  | none => exact restores_pure value
  | some declared =>
    unfold annotated
    split_ifs
    · exact restores_pure value
    · exact restores_lift _

theorem restores_initialValue (hdisc : evaluator.Disciplined) (value : Option ε) :
    Restores (initialValue host evaluator value) := by
  cases value with
  | none => exact restores_pure _
  | some value => exact hdisc.consume value

theorem declares_executeBinding (hdisc : evaluator.Disciplined) (name : String)
    (declared : Option τ) (value : Option ε) :
    Declares (executeBinding host evaluator name declared value) :=
  (restores_initialValue hdisc value).declares.bind fun _ =>
    (restores_annotated declared _).declares.bind fun _ =>
      Declares.bind (Attempt.keeps_modify (Session.grows_insert name _))
        fun _ => (restores_pure _).declares

theorem restores_combined {operator : AssignmentOperator} {left : Run ν ω ν}
    (h : Restores left) (right : ν) : Restores (combined host operator left right) := by
  unfold combined
  split_ifs
  · exact restores_pure right
  · exact h.bind fun _ => restores_lift _

theorem restores_coerceExisting (existing : Option ν) (right : ν) :
    Restores (coerceExisting host existing right) := by
  cases existing with
  | none => exact restores_pure right
  | some existing => exact restores_lift _

theorem declares_executeAssignment (hdisc : evaluator.Disciplined) (name : String)
    (operator : AssignmentOperator) (value : ε) :
    Declares (executeAssignment host evaluator name operator value) :=
  (hdisc.consume value).declares.bind fun _ =>
    (restores_inspect _).declares.bind fun _ =>
      (restores_coerceExisting _ _).declares.bind fun _ =>
        (restores_combined (restores_ofOption _ _) _).declares.bind fun _ =>
          (declares_assignOrInsert name operator _).bind fun _ => (restores_pure _).declares

theorem restores_executePlaceAssignment (hdisc : evaluator.Disciplined) (target : ε)
    (operator : AssignmentOperator) (value : ε) :
    Restores (executePlaceAssignment host evaluator target operator value) :=
  (hdisc.dynamicPlace target).bind fun _ =>
    (restores_ofOption _ _).bind fun _ =>
      (hdisc.consume value).bind fun _ =>
        (restores_combined (restores_readAt _ _) _).bind fun _ =>
          (restores_replace fun _ _ => same_writePlace).bind fun _ => restores_pure _

theorem restores_dereferenced (message : String) (value : ν) :
    Restores (dereferenced host message value) := by
  unfold dereferenced
  split
  · exact restores_readAt _ _
  · exact restores_pure value

theorem restores_iterated (hdisc : evaluator.Disciplined) (iterable : ε) :
    Restores (iterated host evaluator iterable) :=
  (hdisc.evaluate iterable).bind fun _ =>
    (restores_dereferenced _ _).bind fun _ => restores_ofOption _ _

/-- A statement adds at most names to the innermost scope. -/
theorem declares_executeStatement (hdisc : evaluator.Disciplined) (fuel : Nat)
    (statement : Statement ε τ) : Declares (executeStatement host evaluator fuel statement) := by
  induction fuel generalizing statement with
  | zero => exact (restores_fail _).declares
  | succ fuel ih =>
    refine (restores_onWorld _).declares.bind fun _ => ?_
    cases statement with
    | binding name declared value =>
      exact declares_executeBinding hdisc name declared value
    | assignment name operator value =>
      exact declares_executeAssignment hdisc name operator value
    | placeAssignment target operator value =>
      exact (restores_executePlaceAssignment hdisc target operator value).declares
    | expression value =>
      exact ((hdisc.evaluate value).bind fun _ => restores_pure _).declares
    | returns value =>
      cases value with
      | none => exact (restores_pure _).declares
      | some value =>
        exact ((hdisc.consume value).bind fun _ => restores_pure _).declares
    | ifThen value thenBranch =>
      refine ((restores_condition hdisc _ value).bind fun holds => ?_).declares
      cases holds with
      | true => exact restores_executeBlock ih thenBranch
      | false => exact restores_pure _
    | ifElse value thenBranch elseBranch =>
      refine ((restores_condition hdisc _ value).bind fun holds => ?_).declares
      cases holds with
      | true => exact restores_executeBlock ih thenBranch
      | false => exact restores_executeBlock ih elseBranch
    | whileLoop value body =>
      refine (restores_rounds ?_ fuel).declares
      refine (restores_condition hdisc _ value).bind fun holds => ?_
      cases holds with
      | true => exact (restores_executeBlock ih body).bind fun _ => restores_pure _
      | false => exact restores_pure _
    | forRange name start stop inclusive body =>
      refine ((restores_rangeEnd hdisc _ start).bind fun _ =>
        (restores_rangeEnd hdisc _ stop).bind fun _ => ?_).declares
      exact restores_forLoop
        (fun _ => restores_roundWith (declares_executeContents ih body) _) _ _ _ _
    | forEach name iterable body =>
      refine ((restores_iterated hdisc iterable).bind fun _ => ?_).declares
      exact restores_eachLoop (restores_roundWith (declares_executeContents ih body)) _
    | loop body =>
      refine (restores_rounds ?_ fuel).declares
      exact (restores_onWorld _).bind fun _ =>
        (restores_executeBlock ih body).bind fun _ => restores_pure _
    | unsafeBlock body => exact (restores_executeBlock ih body).declares
    | breaks | continues => exact (restores_pure _).declares

end Statements

end

end Disp.Interpreter
