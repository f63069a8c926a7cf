import Disp.Expansion.Expand
import Disp.Library.Accounting

/-!
# How far expansion can grow a program

Expansion pays for every array that it puts in the place of a call, but not for the copies of an
arm with `|` patterns, for the block of a closure only once however large it is, and for patterns
not at all.  Where it splits no arm and copies neither blocks nor patterns, the program grows by no
more nodes than are charged.
-/

namespace Disp.Expansion

open Disp.Library.Accounting List
open Disp.Library.Codec (bind_eq_ok)

/-! ## Programs without uncharged copies -/

mutual

def Pattern.orFree : Pattern → Bool
  | .or _ => false
  | .struct _ _ patterns _ => patternsOrFree patterns
  | .variant _ _ arguments => patternsOrFree arguments
  | _ => true

def patternsOrFree : List Pattern → Bool
  | [] => true
  | pattern :: rest => pattern.orFree && patternsOrFree rest

end

mutual

/-- The expression has no match and no closure with a block, so that `expression_nodes` counts all
of it. -/
def Expr.counted : Expr → Bool
  | .node _ parts => exprsCounted parts
  | .identifier _ => true
  | .matching _ _ => false
  | .closure _ _ (.expression value) => value.counted
  | .closure _ _ (.block _) => false

def exprsCounted : List Expr → Bool
  | [] => true
  | expr :: rest => expr.counted && exprsCounted rest

end

mutual

/-- Expansion leaves nothing but what `expression_nodes` counts; `calls` says so of what takes the
place of a call of `Meta`. -/
def Expr.countedAfter (calls : MetaName → List Expr → Bool) : Expr → Bool
  | .node form parts =>
    match metaCallName form parts with
    | some name => calls name parts.tail
    | none => exprsCountedAfter calls parts
  | .identifier _ => true
  | .matching _ _ => false
  | .closure _ _ (.expression value) => value.countedAfter calls
  | .closure _ _ (.block _) => false

def exprsCountedAfter (calls : MetaName → List Expr → Bool) : List Expr → Bool
  | [] => true
  | expr :: rest => expr.countedAfter calls && exprsCountedAfter calls rest

end

mutual

/-- Expansion meets no arm with a `|` pattern on its way through the expression; `calls` says what
it may meet at a call of `Meta`. -/
def Expr.plain (calls : MetaName → List Expr → Bool) : Expr → Bool
  | .node form parts =>
    match metaCallName form parts with
    | some name => calls name parts.tail
    | none => exprsPlain calls parts
  | .identifier _ => true
  | .matching value arms => value.plain calls && armsPlain calls arms
  | .closure _ _ body => body.plain calls

def exprsPlain (calls : MetaName → List Expr → Bool) : List Expr → Bool
  | [] => true
  | expr :: rest => expr.plain calls && exprsPlain calls rest

def guardPlain (calls : MetaName → List Expr → Bool) : Option Expr → Bool
  | none => true
  | some guard => guard.plain calls

def Arm.plain (calls : MetaName → List Expr → Bool) : Arm → Bool
  | .mk pattern _ guard value => pattern.orFree && (guardPlain calls guard && value.plain calls)

def armsPlain (calls : MetaName → List Expr → Bool) : List Arm → Bool
  | [] => true
  | arm :: rest => arm.plain calls && armsPlain calls rest

def ClosureBody.plain (calls : MetaName → List Expr → Bool) : ClosureBody → Bool
  | .expression value => value.plain calls
  | .block block => block.plain calls

def Block.plain (calls : MetaName → List Expr → Bool) : Block → Bool
  | .mk statements => statementsPlain calls statements

def statementsPlain (calls : MetaName → List Expr → Bool) : List Statement → Bool
  | [] => true
  | statement :: rest => statement.plain calls && statementsPlain calls rest

def Statement.plain (calls : MetaName → List Expr → Bool) : Statement → Bool
  | .mk _ values blocks => exprsPlain calls values && blocksPlain calls blocks

def blocksPlain (calls : MetaName → List Expr → Bool) : List Block → Bool
  | [] => true
  | block :: rest => block.plain calls && blocksPlain calls rest

end

/-- What holds of a call that is expanded: `copied` of the count and the template of
`Meta.repeat`, `mapped` of the count, the parameter and the body of `Meta.map`. -/
def callHolds (copied : Nat → Expr → Bool) (mapped : Nat → String → Expr → Bool)
    (name : MetaName) : List Expr → Bool
  | [countExpr, template] =>
    match metaCount name countExpr, name, mapper template with
    | .ok count, .repeatCopies, _ => copied count template
    | .ok count, .mapIndices, .ok (parameter, body) => mapped count parameter body
    | _, _, _ => true
  | _ => true

/-- `holds` of every copy that `Meta.map` makes of the body. -/
def eachCopy (holds : Expr → Bool) (count : Nat) (parameter : String) (body : Expr) : Bool :=
  (List.range count).all fun index => holds (substituteBoundIdentifier parameter index body)

/-- What `Expr.countedAfter` asks of a call when so many more levels are allowed.  Without copies
nothing of the template is left. -/
def countedCalls : Nat → MetaName → List Expr → Bool
  | 0 => fun _ _ => true
  | levels + 1 =>
    callHolds (fun count template => count == 0 || template.countedAfter (countedCalls levels))
      (eachCopy (Expr.countedAfter (countedCalls levels)))

/-- What `Expr.plain` asks of a call: what is copied more than once is counted in full.
`Meta.repeat` copies the template as expansion leaves it, `Meta.map` the body as it is written. -/
def plainCalls : Nat → MetaName → List Expr → Bool
  | 0 => fun _ _ => true
  | levels + 1 =>
    callHolds (fun count template => template.plain (plainCalls levels) &&
        (decide (count ≤ 1) || template.countedAfter (countedCalls levels)))
      fun count parameter body => (decide (count ≤ 1) || body.counted) &&
        eachCopy (Expr.plain (plainCalls levels)) count parameter body

def Function.plain (function : Function) : Bool :=
  function.external || function.body.plain (plainCalls maxExpansionDepth)

/-- Expansion splits no arm of the program, and every template that it copies more than once is
free of matches and of closures with blocks. -/
def Program.plain (program : Program) : Bool :=
  program.functions.all Function.plain &&
    program.implementations.all (·.all Function.plain)

/-! ## The two counts -/

mutual

theorem expressionNodes_of_counted :
    ∀ expr : Expr, expr.counted = true → expressionNodes expr = expr.nodes
  | .node _ parts, h => by
      rw [expressionNodes, Expr.nodes, partsNodes_of_counted parts h]
  | .identifier _, _ => rfl
  | .closure _ _ (.expression value), h => by
      rw [expressionNodes, Expr.nodes, bodyNodes, ClosureBody.nodes,
        expressionNodes_of_counted value h]

theorem partsNodes_of_counted :
    ∀ exprs : List Expr, exprsCounted exprs = true → partsNodes exprs = exprsNodes exprs
  | [], _ => rfl
  | expr :: rest, h => by
      rw [exprsCounted, Bool.and_eq_true] at h
      rw [partsNodes, exprsNodes, expressionNodes_of_counted expr h.1,
        partsNodes_of_counted rest h.2]

end

/-! ## Substitution -/

section Substitution

variable (name : String) (value : Nat)

mutual

theorem nodes_substitute : ∀ expr : Expr,
    (substituteBoundIdentifier name value expr).nodes = expr.nodes
  | .identifier identifier => by
      rw [substituteBoundIdentifier]
      split <;> rfl
  | .node form parts => by
      rw [substituteBoundIdentifier, Expr.nodes, Expr.nodes, nodes_substituteAll parts]
  | .matching matched arms => by
      rw [substituteBoundIdentifier, Expr.nodes, Expr.nodes, nodes_substitute matched,
        nodes_substituteArms arms]
  | .closure moveCaptures parameters body => by
      rw [substituteBoundIdentifier]
      split
      · rfl
      · rw [Expr.nodes, Expr.nodes, nodes_substituteBody body]

theorem nodes_substituteAll : ∀ exprs : List Expr,
    exprsNodes (substituteAll name value exprs) = exprsNodes exprs
  | [] => rfl
  | expr :: rest => by
      rw [substituteAll, exprsNodes, exprsNodes, nodes_substitute expr, nodes_substituteAll rest]

theorem nodes_substituteGuard : ∀ guard : Option Expr,
    guardNodes (substituteGuard name value guard) = guardNodes guard
  | none => rfl
  | some guard => nodes_substitute guard

theorem nodes_substituteArm : ∀ arm : Arm, (substituteArm name value arm).nodes = arm.nodes
  | .mk pattern group guard result => by
      rw [substituteArm]
      split
      · rfl
      · rw [Arm.nodes, Arm.nodes, nodes_substituteGuard guard, nodes_substitute result]

theorem nodes_substituteArms : ∀ arms : List Arm,
    armsNodes (substituteArms name value arms) = armsNodes arms
  | [] => rfl
  | arm :: rest => by
      rw [substituteArms, armsNodes, armsNodes, nodes_substituteArm arm,
        nodes_substituteArms rest]

theorem nodes_substituteBody : ∀ body : ClosureBody,
    (substituteBody name value body).nodes = body.nodes
  | .expression body => nodes_substitute body
  | .block _ => rfl

end

mutual

theorem counted_substitute : ∀ expr : Expr, expr.counted = true →
    (substituteBoundIdentifier name value expr).counted = true
  | .identifier identifier, _ => by
      rw [substituteBoundIdentifier]
      split <;> rfl
  | .node form parts, h => counted_substituteAll parts h
  | .closure moveCaptures parameters (.expression body), h => by
      rw [substituteBoundIdentifier]
      split
      · exact h
      · exact counted_substitute body h

theorem counted_substituteAll : ∀ exprs : List Expr, exprsCounted exprs = true →
    exprsCounted (substituteAll name value exprs) = true
  | [], _ => rfl
  | expr :: rest, h => by
      rw [exprsCounted, Bool.and_eq_true] at h
      rw [substituteAll, exprsCounted, counted_substitute expr h.1, counted_substituteAll rest h.2]
      rfl

end

end Substitution

/-! ## Patterns -/

theorem bounded_eq_ok {α : Type} {patterns found : List α} (h : bounded patterns = .ok found) :
    found = patterns := by
  unfold bounded at h
  split at h
  · cases h
  · exact (Except.ok.inj h).symm

mutual

/-- A pattern without `|` is its only alternative. -/
theorem patternAlternatives_of_orFree : ∀ (pattern : Pattern), pattern.orFree = true →
    ∀ alternatives, patternAlternatives pattern = .ok alternatives → alternatives = [pattern]
  | .or _, h, _, _ => nomatch h
  | .struct _ _ patterns _, h, alternatives, halts
  | .variant _ _ patterns, h, alternatives, halts => by
      rw [patternAlternatives] at halts
      obtain ⟨products, hproducts, halts⟩ := bind_eq_ok halts
      rw [patternProducts_of_orFree patterns h [] products hproducts] at halts
      exact (Except.ok.inj halts).symm
  | .wildcard, _, _, h | .binding _, _, _, h | .integer _, _, _, h | .negativeInteger _, _, _, h
  | .string _, _, _, h | .character _, _, _, h | .bool _, _, _, h => (Except.ok.inj h).symm

theorem patternProducts_of_orFree : ∀ (patterns : List Pattern), patternsOrFree patterns = true →
    ∀ product products, patternProducts [product] patterns = .ok products →
      products = [product ++ patterns]
  | [], _, product, products, h => by
      rw [append_nil]
      exact (Except.ok.inj h).symm
  | pattern :: rest, horFree, product, products, h => by
      rw [patternsOrFree, Bool.and_eq_true] at horFree
      rw [patternProducts] at h
      obtain ⟨alternatives, halts, h⟩ := bind_eq_ok h
      rw [patternAlternatives_of_orFree pattern horFree.1 alternatives halts] at h
      obtain ⟨next, hnext, h⟩ := bind_eq_ok h
      rw [bounded_eq_ok hnext] at h
      rw [patternProducts_of_orFree rest horFree.2 _ products h, append_assoc]
      rfl

end

/-! ## Accounts of expansion -/

/-- `run` returns something with no more nodes than `given` and those it is charged for. -/
abbrev Charged {α : Type} (run : ExpandM α) (nodes : α → Nat) (given : Nat)
    (ensured : α → Prop) : Prop :=
  Accounts Expander.generatedNodes maxGeneratedNodes run nodes given ensured

theorem charged_charge (name : MetaName) (nodes : Nat) :
    Charged (charge name nodes) (fun _ => nodes) 0 fun _ => True := by
  have hcharge : ∀ {state value state'}, charge name nodes state = .ok (value, state') →
      state'.generatedNodes = state.generatedNodes + nodes ∧
        state'.generatedNodes ≤ maxGeneratedNodes := by
    intro state value state' h
    unfold charge at h
    simp only at h
    split at h
    · cases h
    split at h
    · cases h
    · obtain ⟨-, rfl⟩ := Prod.mk.inj (Except.ok.inj h)
      exact ⟨rfl, Nat.le_of_not_lt ‹_›⟩
  refine ⟨fun h => ?_, fun h _ => (hcharge h).2, fun _ => trivial⟩
  have := (hcharge h).1
  omega

theorem charged_lift {α : Type} {result : Except Diagnostic α} {ensured : α → Prop}
    (h : ∀ value, result = .ok value → ensured value) :
    Charged (liftM result : ExpandM α) (fun _ => 0) 0 ensured := by
  cases result with
  | error diagnostic => exact .throw diagnostic
  | ok value => exact .pure (Nat.le_refl 0) (h value rfl)

theorem charged_patternGroup (alternatives : Nat) :
    Charged (patternGroup alternatives) (fun _ => 0) 0 fun _ => True := by
  have hgroup : ∀ {state value state'}, patternGroup alternatives state = .ok (value, state') →
      state'.generatedNodes = state.generatedNodes := by
    intro state value state' h
    unfold patternGroup at h
    split at h
    all_goals
      obtain ⟨-, rfl⟩ := Prod.mk.inj (Except.ok.inj h)
      rfl
  refine ⟨fun h => ?_, fun h hlimit => hgroup h ▸ hlimit, fun _ => trivial⟩
  rw [hgroup h]

theorem armsNodes_append (left right : List Arm) :
    armsNodes (left ++ right) = armsNodes left + armsNodes right := by
  induction left with
  | nil => simp [armsNodes]
  | cons arm rest ih => simp only [cons_append, armsNodes, ih, Nat.add_assoc]

theorem charged_splitArm {done : List Arm} {pattern : Pattern} (hpat : pattern.orFree = true)
    (guard : Option Expr) (value : Expr) :
    Charged (splitArm done pattern guard value) armsNodes
      (armsNodes done + (pattern.nodes + (guardNodes guard + value.nodes))) fun _ => True := by
  refine .mono (.bind (charged_lift (patternAlternatives_of_orFree pattern hpat))
    fun alternatives halts => ?_) (Nat.le_of_eq (Nat.zero_add _)) fun _ h => h
  subst halts
  split
  · exact .throw _
  · refine .bind (charged_patternGroup _) fun group _ => .pure ?_ trivial
    simp only [map_cons, map_nil, armsNodes_append, armsNodes, Arm.nodes]
    omega

theorem exprsNodes_tail (exprs : List Expr) : exprsNodes exprs.tail ≤ exprsNodes exprs := by
  cases exprs with
  | nil => exact Nat.le_refl _
  | cons expr rest => exact Nat.le_add_left _ _

/-- The calls of `Meta` that are `plain` are charged for what takes their place, and leave only
what is counted where `counted` says so. -/
def ChargesCalls (metaHandler : MetaName → List Expr → ExpandM Expr)
    (plain counted : MetaName → List Expr → Bool) : Prop :=
  ∀ name arguments, plain name arguments = true →
    Charged (metaHandler name arguments) Expr.nodes (exprsNodes arguments)
      fun expr => counted name arguments = true → expr.counted = true

section Walk

variable {metaHandler : MetaName → List Expr → ExpandM Expr}
  {plain counted : MetaName → List Expr → Bool}

mutual

theorem charged_expandExpr (hcalls : ChargesCalls metaHandler plain counted) :
    ∀ expr : Expr, expr.plain plain = true →
    Charged (expandExpr metaHandler expr) Expr.nodes expr.nodes
      fun after => expr.countedAfter counted = true → after.counted = true
  | .node form parts, hplain => by
      rw [Expr.plain] at hplain
      rw [expandExpr, Expr.countedAfter]
      cases hname : metaCallName form parts with
      | none =>
        rw [hname] at hplain
        rw [Expr.nodes]
        exact .map (charged_expandExprs hcalls parts hplain) (fun _ => Nat.le_refl _) fun _ h => h
      | some name =>
        rw [hname] at hplain
        refine .mono (hcalls name parts.tail hplain) ?_ fun _ h => h
        exact (exprsNodes_tail parts).trans (Nat.le_add_left _ _)
  | .identifier name, _ => .pure (Nat.le_refl _) fun _ => rfl
  | .matching value arms, hplain => by
      rw [Expr.plain, Bool.and_eq_true] at hplain
      have harms := (charged_expandArms hcalls arms hplain.2 []).mono
        (Nat.le_of_eq (Nat.zero_add _)) fun _ h => h
      exact .map₂ (charged_expandExpr hcalls value hplain.1) harms (fun _ _ => Nat.le_refl _)
        fun _ _ _ _ h => nomatch h
  | .closure moveCaptures parameters body, hplain => by
      refine .map (charged_expandBody hcalls body hplain) (fun _ => Nat.le_refl _)
        fun after hafter h => ?_
      cases body with
      | expression value =>
        obtain ⟨result, rfl, hcounted⟩ := hafter value rfl
        exact hcounted h
      | block block => cases h

theorem charged_expandExprs (hcalls : ChargesCalls metaHandler plain counted) :
    ∀ exprs : List Expr, exprsPlain plain exprs = true →
    Charged (expandExprs metaHandler exprs) exprsNodes (exprsNodes exprs)
      fun after => exprsCountedAfter counted exprs = true → exprsCounted after = true
  | [], _ => .pure (Nat.le_refl _) fun _ => rfl
  | expr :: rest, hplain => by
      rw [exprsPlain, Bool.and_eq_true] at hplain
      rw [exprsNodes, ← Nat.zero_add (_ + _)]
      refine .map₂ (charged_expandExpr hcalls expr hplain.1)
        (charged_expandExprs hcalls rest hplain.2)
        (fun _ _ => Nat.le_of_eq (Nat.zero_add _).symm) fun after others hafter hothers => ?_
      simp only [exprsCountedAfter, exprsCounted, Bool.and_eq_true]
      exact fun h => ⟨hafter h.1, hothers h.2⟩

theorem charged_expandGuard (hcalls : ChargesCalls metaHandler plain counted) :
    ∀ guard : Option Expr, guardPlain plain guard = true →
    Charged (expandGuard metaHandler guard) guardNodes (guardNodes guard) fun _ => True
  | none, _ => .pure (Nat.le_refl _) trivial
  | some guard, hplain => by
      rw [guardNodes, ← Nat.zero_add (Expr.nodes _)]
      exact .map (charged_expandExpr hcalls guard hplain)
        (fun _ => Nat.le_of_eq (Nat.zero_add _).symm) fun _ _ => trivial

theorem charged_expandArm (hcalls : ChargesCalls metaHandler plain counted) :
    ∀ arm : Arm, arm.plain plain = true → ∀ done : List Arm,
    Charged (expandArm metaHandler done arm) armsNodes (armsNodes done + arm.nodes) fun _ => True
  | .mk pattern group guard value, hplain, done => by
      rw [Arm.plain, Bool.and_eq_true, Bool.and_eq_true] at hplain
      have hsum : armsNodes done + (pattern.nodes + (guardNodes guard + value.nodes)) =
          guardNodes guard + (value.nodes + (armsNodes done + pattern.nodes)) := by omega
      rw [Arm.nodes, hsum]
      refine .bind (charged_expandGuard hcalls guard hplain.2.1) fun guard' _ => ?_
      rw [Nat.add_left_comm]
      refine .bind (charged_expandExpr hcalls value hplain.2.2) fun value' _ => ?_
      exact .mono (charged_splitArm hplain.1 guard' value') (by omega) fun _ h => h

theorem charged_expandArms (hcalls : ChargesCalls metaHandler plain counted) :
    ∀ arms : List Arm, armsPlain plain arms = true → ∀ done : List Arm,
    Charged (expandArms metaHandler done arms) armsNodes (armsNodes done + armsNodes arms)
      fun _ => True
  | [], _, done => .pure (Nat.le_refl _) trivial
  | arm :: rest, hplain, done => by
      rw [armsPlain, Bool.and_eq_true] at hplain
      rw [armsNodes, ← Nat.add_assoc]
      exact .bind (charged_expandArm hcalls arm hplain.1 done) fun done' _ =>
        charged_expandArms hcalls rest hplain.2 done'

theorem charged_expandBody (hcalls : ChargesCalls metaHandler plain counted) :
    ∀ body : ClosureBody, body.plain plain = true →
    Charged (expandBody metaHandler body) ClosureBody.nodes body.nodes
      fun after => ∀ value, body = .expression value →
        ∃ result, after = .expression result ∧
          (value.countedAfter counted = true → result.counted = true)
  | .expression value, hplain => by
      rw [ClosureBody.nodes, ← Nat.zero_add (Expr.nodes _)]
      refine .map (charged_expandExpr hcalls value hplain)
        (fun _ => Nat.le_of_eq (Nat.zero_add _).symm) fun after hafter other hother => ?_
      cases hother
      exact ⟨after, rfl, hafter⟩
  | .block block, hplain => by
      rw [ClosureBody.nodes, ← Nat.zero_add (Block.nodes _)]
      exact .map (charged_expandBlock hcalls block hplain)
        (fun _ => Nat.le_of_eq (Nat.zero_add _).symm) fun _ _ _ h => nomatch h

theorem charged_expandBlock (hcalls : ChargesCalls metaHandler plain counted) :
    ∀ block : Block, block.plain plain = true →
    Charged (expandBlock metaHandler block) Block.nodes block.nodes fun _ => True
  | .mk statements, hplain => by
      exact .map (charged_expandStatements hcalls statements hplain) (fun _ => Nat.le_refl _)
        fun _ _ => trivial

theorem charged_expandStatements (hcalls : ChargesCalls metaHandler plain counted) :
    ∀ statements : List Statement, statementsPlain plain statements = true →
    Charged (expandStatements metaHandler statements) statementsNodes
      (statementsNodes statements) fun _ => True
  | [], _ => .pure (Nat.le_refl _) trivial
  | statement :: rest, hplain => by
      rw [statementsPlain, Bool.and_eq_true] at hplain
      rw [statementsNodes, ← Nat.zero_add (_ + _)]
      exact .map₂ (charged_expandStatement hcalls statement hplain.1)
        (charged_expandStatements hcalls rest hplain.2)
        (fun _ _ => Nat.le_of_eq (Nat.zero_add _).symm) fun _ _ _ _ => trivial

theorem charged_expandStatement (hcalls : ChargesCalls metaHandler plain counted) :
    ∀ statement : Statement, statement.plain plain = true →
    Charged (expandStatement metaHandler statement) Statement.nodes statement.nodes fun _ => True
  | .mk form values blocks, hplain => by
      rw [Statement.plain, Bool.and_eq_true] at hplain
      exact .map₂ (charged_expandExprs hcalls values hplain.1)
        (charged_expandBlocks hcalls blocks hplain.2)
        (fun _ _ => Nat.le_refl _) fun _ _ _ _ => trivial

theorem charged_expandBlocks (hcalls : ChargesCalls metaHandler plain counted) :
    ∀ blocks : List Block, blocksPlain plain blocks = true →
    Charged (expandBlocks metaHandler blocks) blocksNodes (blocksNodes blocks) fun _ => True
  | [], _ => .pure (Nat.le_refl _) trivial
  | block :: rest, hplain => by
      rw [blocksPlain, Bool.and_eq_true] at hplain
      rw [blocksNodes, ← Nat.zero_add (_ + _)]
      exact .map₂ (charged_expandBlock hcalls block hplain.1)
        (charged_expandBlocks hcalls rest hplain.2)
        (fun _ _ => Nat.le_of_eq (Nat.zero_add _).symm) fun _ _ _ _ => trivial

end

end Walk

/-! ## Calls -/

theorem exprsNodes_replicate (count : Nat) (expr : Expr) :
    exprsNodes (List.replicate count expr) = expr.nodes * count := by
  induction count with
  | zero => rfl
  | succ count ih => rw [replicate_succ, exprsNodes, ih, Nat.mul_succ, Nat.add_comm]

theorem exprsCounted_replicate {count : Nat} {expr : Expr}
    (h : count ≠ 0 → expr.counted = true) : exprsCounted (List.replicate count expr) = true := by
  induction count with
  | zero => rfl
  | succ count ih =>
    rw [replicate_succ, exprsCounted, h (Nat.succ_ne_zero count),
      ih fun _ => h (Nat.succ_ne_zero count)]
    rfl

/-- The nodes that the copies of a template bring are those of the template, which the program
has already, and those that are charged. -/
theorem copies_paid {template : Expr} {count : Nat}
    (h : count ≤ 1 ∨ expressionNodes template = template.nodes) :
    template.nodes * count ≤ template.nodes + expressionNodes template * count := by
  obtain h | h := h
  · have hcopies := Nat.mul_le_mul_left template.nodes h
    omega
  · rw [h]
    exact Nat.le_add_left _ _

theorem mapper_eq_ok {template body : Expr} {parameter : String}
    (h : mapper template = .ok (parameter, body)) :
    template = .closure false [parameter] (.expression body) := by
  unfold mapper at h
  split at h
  · split at h
    · obtain ⟨rfl, rfl⟩ := Prod.mk.inj (Except.ok.inj h)
      rfl
    · cases h
  · cases h

section Copies

variable (parameter : String) (body : Expr)

theorem exprsNodes_copies (indices : List Nat) :
    exprsNodes (indices.map (substituteBoundIdentifier parameter · body)) =
      body.nodes * indices.length := by
  induction indices with
  | nil => rfl
  | cons index rest ih =>
    rw [map_cons, exprsNodes, ih, nodes_substitute, length_cons, Nat.mul_succ, Nat.add_comm]

variable {body} in
theorem partsNodes_copies (h : body.counted = true) (indices : List Nat) :
    partsNodes (indices.map (substituteBoundIdentifier parameter · body)) =
      body.nodes * indices.length := by
  rw [partsNodes_of_counted, exprsNodes_copies]
  induction indices with
  | nil => rfl
  | cons index rest ih => rw [map_cons, exprsCounted, counted_substitute _ _ body h, ih]; rfl

variable {body} in
theorem mapped_paid {count : Nat} (h : count ≤ 1 ∨ body.counted = true) :
    exprsNodes ((List.range count).map (substituteBoundIdentifier parameter · body)) ≤
      body.nodes +
        partsNodes ((List.range count).map (substituteBoundIdentifier parameter · body)) := by
  obtain h | h := h
  · have hcopies := Nat.mul_le_mul_left body.nodes h
    rw [exprsNodes_copies, length_range]
    omega
  · rw [exprsNodes_copies, partsNodes_copies parameter h]
    exact Nat.le_add_left _ _

variable {calls : MetaName → List Expr → Bool} {indices : List Nat}

theorem exprsPlain_copies (h : (indices.all fun index =>
      (substituteBoundIdentifier parameter index body).plain calls) = true) :
    exprsPlain calls (indices.map (substituteBoundIdentifier parameter · body)) = true := by
  induction indices with
  | nil => rfl
  | cons index rest ih =>
    rw [all_cons, Bool.and_eq_true] at h
    rw [map_cons, exprsPlain, h.1, ih h.2]
    rfl

theorem exprsCountedAfter_copies (h : (indices.all fun index =>
      (substituteBoundIdentifier parameter index body).countedAfter calls) = true) :
    exprsCountedAfter calls (indices.map (substituteBoundIdentifier parameter · body)) = true := by
  induction indices with
  | nil => rfl
  | cons index rest ih =>
    rw [all_cons, Bool.and_eq_true] at h
    rw [map_cons, exprsCountedAfter, h.1, ih h.2]
    rfl

end Copies

section Calls

variable {expand : Expr → ExpandM Expr} {levels : Nat}
  (hexpand : ∀ expr : Expr, expr.plain (plainCalls levels) = true →
    Charged (expand expr) Expr.nodes expr.nodes
      fun after => expr.countedAfter (countedCalls levels) = true → after.counted = true)

include hexpand

theorem charged_expandRepeat {template : Expr} {count : Nat}
    (hplain : template.plain (plainCalls levels) = true)
    (hcopied : count ≤ 1 ∨ template.countedAfter (countedCalls levels) = true) :
    Charged (expandRepeat expand count template) Expr.nodes template.nodes
      fun expr => count = 0 ∨ template.countedAfter (countedCalls levels) = true →
        expr.counted = true := by
  rw [← Nat.add_zero template.nodes]
  refine .bind (hexpand template hplain) fun after hafter => ?_
  have hpaid := copies_paid (hcopied.imp_right fun h => expressionNodes_of_counted after (hafter h))
  refine .mono (.bind (charged_charge _ _) fun _ _ => .pure ?_ ?_)
    (Nat.le_of_eq (Nat.zero_add _)) fun _ h => h
  · rw [Expr.nodes, exprsNodes_replicate]
    omega
  · exact fun h => exprsCounted_replicate fun hcount => hafter (h.resolve_left hcount)

/-- The copies that `Meta.map` makes are paid for before they are expanded. -/
theorem charged_expandMap {body : Expr} {parameter : String} {count : Nat}
    (hcopied : count ≤ 1 ∨ body.counted = true)
    (hplain : eachCopy (Expr.plain (plainCalls levels)) count parameter body = true) :
    Charged (expandMap expand count (.closure false [parameter] (.expression body))) Expr.nodes
      body.nodes fun expr =>
        eachCopy (Expr.countedAfter (countedCalls levels)) count parameter body = true →
          expr.counted = true := by
  have hpaid := mapped_paid parameter hcopied
  refine .mono (.bind (charged_lift fun _ h => (Except.ok.inj h).symm) fun result hres => ?_)
    (Nat.le_of_eq (Nat.zero_add _)) fun _ h => h
  subst hres
  refine .mono (.bind (charged_charge _ _) fun _ _ => .mono (hexpand (.node .array _)
    (exprsPlain_copies parameter body hplain)) ?_ fun _ h hcounted =>
      h (exprsCountedAfter_copies parameter body hcounted)) (Nat.le_of_eq (Nat.zero_add _))
        fun _ h => h
  rw [Expr.nodes]
  omega

theorem chargesCalls_expandMeta :
    ChargesCalls (expandMeta expand) (plainCalls (levels + 1)) (countedCalls (levels + 1)) := by
  intro name arguments hplain
  unfold expandMeta
  split
  · rename_i countExpr template
    refine .mono (.bind (charged_lift fun _ h => h) fun count hcount => ?_)
      (Nat.le_of_eq (Nat.zero_add _)) fun _ h => h
    cases name with
    | repeatCopies =>
      simp only [plainCalls, callHolds, hcount, Bool.and_eq_true, Bool.or_eq_true,
        decide_eq_true_eq] at hplain
      simp only [countedCalls, callHolds, hcount, Bool.or_eq_true, beq_iff_eq]
      refine (charged_expandRepeat hexpand hplain.1 hplain.2).mono ?_ fun _ h => h
      simp only [exprsNodes]
      omega
    | mapIndices =>
      cases hmapper : mapper template with
      | error diagnostic =>
        simp only [expandMap, hmapper]
        exact .throw _
      | ok result =>
        obtain ⟨parameter, body⟩ := result
        simp only [plainCalls, callHolds, hcount, hmapper, Bool.and_eq_true, Bool.or_eq_true,
          decide_eq_true_eq] at hplain
        simp only [countedCalls, callHolds, hcount, hmapper]
        rw [mapper_eq_ok hmapper]
        refine (charged_expandMap hexpand hplain.1 hplain.2).mono ?_ fun _ h => h
        simp only [exprsNodes, Expr.nodes, ClosureBody.nodes]
        omega
  · exact .throw _

end Calls

theorem charged_expandLevel (levels : Nat) (expr : Expr)
    (hplain : expr.plain (plainCalls levels) = true) :
    Charged (expandLevel levels expr) Expr.nodes expr.nodes
      fun after => expr.countedAfter (countedCalls levels) = true → after.counted = true := by
  induction levels generalizing expr with
  | zero => exact charged_expandExpr (fun _ _ _ => .throw _) expr hplain
  | succ levels ih => exact charged_expandExpr (chargesCalls_expandMeta ih) expr hplain

/-! ## Programs -/

theorem chargesCalls_top : ChargesCalls expandTopMeta (plainCalls maxExpansionDepth)
    (countedCalls maxExpansionDepth) :=
  chargesCalls_expandMeta (charged_expandLevel (maxExpansionDepth - 1))

theorem charged_expandFunction {function : Function} (hplain : function.plain = true) :
    Charged (expandFunction function) (fun after => after.body.nodes) function.body.nodes
      fun _ => True := by
  unfold expandFunction
  split
  · exact .pure (Nat.le_refl _) trivial
  · have hbody : function.body.plain (plainCalls maxExpansionDepth) = true := by
       simpa [Function.plain, *] using hplain
    rw [← Nat.zero_add function.body.nodes]
    exact .map (charged_expandBlock chargesCalls_top function.body hbody)
      (fun _ => Nat.le_of_eq (Nat.zero_add _).symm) fun _ h => h

theorem charged_expandFunctions {functions : List Function}
    (hplain : functions.all Function.plain = true) :
    Charged (expandFunctions functions) functionsNodes (functionsNodes functions)
      fun _ => True := by
  induction functions with
  | nil => exact .pure (Nat.le_refl _) trivial
  | cons function rest ih =>
    rw [all_cons, Bool.and_eq_true] at hplain
    rw [functionsNodes, ← Nat.zero_add (_ + _)]
    exact .map₂ (charged_expandFunction hplain.1) (ih hplain.2)
      (fun _ _ => Nat.le_of_eq (Nat.zero_add _).symm) fun _ _ _ _ => trivial

theorem charged_expandImplementations {implementations : List (List Function)}
    (hplain : implementations.all (·.all Function.plain) = true) :
    Charged (expandImplementations implementations) implementationsNodes
      (implementationsNodes implementations) fun _ => True := by
  induction implementations with
  | nil => exact .pure (Nat.le_refl _) trivial
  | cons methods rest ih =>
    rw [all_cons, Bool.and_eq_true] at hplain
    rw [implementationsNodes, ← Nat.zero_add (_ + _)]
    exact .map₂ (charged_expandFunctions hplain.1) (ih hplain.2)
      (fun _ _ => Nat.le_of_eq (Nat.zero_add _).symm) fun _ _ _ _ => trivial

theorem charged_expandProgram {program : Program} (hplain : program.plain = true) :
    Charged (expandProgram program) Program.nodes program.nodes fun _ => True := by
  rw [Program.plain, Bool.and_eq_true] at hplain
  rw [Program.nodes, ← Nat.zero_add (_ + _)]
  exact .map₂ (charged_expandFunctions hplain.1) (charged_expandImplementations hplain.2)
    (fun _ _ => Nat.le_of_eq (Nat.zero_add _).symm) fun _ _ _ _ => trivial

def integerStatement : Statement := .mk .expression [.node (.integer 1) []] []

def blockClosure : Expr := .closure false [] (.block (.mk (List.replicate 20 integerStatement)))

def programOf (value : Expr) : Program := ⟨[⟨false, .mk [.mk .expression [value] []]⟩], []⟩

/-- `Meta.repeat(count, template)`. -/
def repeatCall (count : Nat) (template : Expr) : Expr :=
  .node .call [.node (.fieldAccess "repeat") [.identifier "Meta"],
    .node (.integer count) [], template]

/-- `Meta.map(0, |i: int| match i { 1 | 2 => a, _ => b })`: the body is never walked. -/
def emptyMap : Expr :=
  .node .call [.node (.fieldAccess "map") [.identifier "Meta"], .node (.integer 0) [],
    .closure false ["i"] (.expression (.matching (.identifier "i")
      [.mk (.or [.integer 1, .integer 2]) none none (.identifier "a"),
        .mk .wildcard none none (.identifier "b")]))]

end Disp.Expansion
