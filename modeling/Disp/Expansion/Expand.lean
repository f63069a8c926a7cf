import Disp.Expansion.Ast

/-!
# Structured expansion

`expansion::expand`: calls of `Meta.repeat` and `Meta.map` are replaced by arrays, and arms of a
`match` with `|` patterns by one arm for each alternative.  Every replacement of a call is
charged for the nodes that `expression_nodes` counts.
-/

namespace Disp.Expansion

/-! ## Limits and diagnostics -/

def maxExpansionDepth : Nat := 64

def maxGeneratedNodes : Nat := 65536

def maxRepeatCount : Nat := 4096

/-- `usize::MAX`. -/
def maxUsize : Nat := 0xFFFFFFFFFFFFFFFF

/-- `u128::MAX`. -/
def maxU128 : Nat := 0xFFFFFFFFFFFFFFFFFFFFFFFFFFFFFFFF

inductive DiagnosticKind
  | parse
  | type

structure Diagnostic where
  kind : DiagnosticKind
  message : String
  help : Option String

def expansionError (message : String) : Diagnostic :=
  ⟨.parse, message,
    some "structured compile-time expansion is bounded and does not execute plugins"⟩

/-! ## Patterns -/

mutual

/-- `pattern_binding_names`, as a list for a set. -/
def patternBindingNames : Pattern → List String
  | .binding name => [name]
  | .or alternatives => patternsBindingNames alternatives
  | .struct _ _ patterns _ => patternsBindingNames patterns
  | .variant _ _ arguments => patternsBindingNames arguments
  | _ => []

def patternsBindingNames : List Pattern → List String
  | [] => []
  | pattern :: rest => patternBindingNames pattern ++ patternsBindingNames rest

end

def patternBinds (pattern : Pattern) (name : String) : Bool :=
  (patternBindingNames pattern).contains name

def sameNames (left right : List String) : Bool :=
  left.all right.contains && right.all left.contains

def tooManyAlternatives : Diagnostic :=
  let limit := maxRepeatCount
  ⟨.type, s!"pattern expands to more than {limit} alternatives", none⟩

def differentBindings : Diagnostic :=
  ⟨.type, "every `|` pattern alternative must bind the same names",
    some "add or remove bindings so every alternative exposes one contract"⟩

def bounded (patterns : List α) : Except Diagnostic (List α) :=
  if maxRepeatCount < patterns.length then .error tooManyAlternatives else .ok patterns

mutual

def patternAlternatives : Pattern → Except Diagnostic (List Pattern)
  | .or alternatives =>
    let expected := (alternatives.head?.map patternBindingNames).getD []
    orAlternatives expected [] alternatives
  | .variant typeName variant arguments => do
      let products ← patternProducts [[]] arguments
      pure (products.map (.variant typeName variant))
  | .struct typeName fields patterns rest => do
      let products ← patternProducts [[]] patterns
      pure (products.map (.struct typeName fields · rest))
  | pattern => pure [pattern]

def orAlternatives (expected : List String) (expanded : List Pattern) :
    List Pattern → Except Diagnostic (List Pattern)
  | [] => pure expanded
  | alternative :: rest =>
    if sameNames (patternBindingNames alternative) expected then do
      let alternatives ← patternAlternatives alternative
      let expanded ← bounded (expanded ++ alternatives)
      orAlternatives expected expanded rest
    else .error differentBindings

/-- Every choice of one alternative for each pattern. -/
def patternProducts (products : List (List Pattern)) :
    List Pattern → Except Diagnostic (List (List Pattern))
  | [] => pure products
  | argument :: rest => do
      let alternatives ← patternAlternatives argument
      let next ← bounded (products.flatMap fun product => alternatives.map (product ++ [·]))
      patternProducts next rest

end

/-! ## Substitution -/

mutual

/-- `substitute_bound_identifier`; it does not enter the block of a closure. -/
def substituteBoundIdentifier (name : String) (value : Nat) : Expr → Expr
  | .identifier identifier =>
    if identifier = name then .node (.integer value) [] else .identifier identifier
  | .node form parts => .node form (substituteAll name value parts)
  | .matching matched arms =>
    .matching (substituteBoundIdentifier name value matched) (substituteArms name value arms)
  | .closure moveCaptures parameters body =>
    if parameters.contains name then .closure moveCaptures parameters body
    else .closure moveCaptures parameters (substituteBody name value body)

def substituteAll (name : String) (value : Nat) : List Expr → List Expr
  | [] => []
  | expr :: rest => substituteBoundIdentifier name value expr :: substituteAll name value rest

def substituteGuard (name : String) (value : Nat) : Option Expr → Option Expr
  | none => none
  | some guard => some (substituteBoundIdentifier name value guard)

def substituteArm (name : String) (value : Nat) : Arm → Arm
  | .mk pattern group guard result =>
    if patternBinds pattern name then .mk pattern group guard result
    else .mk pattern group (substituteGuard name value guard)
      (substituteBoundIdentifier name value result)

def substituteArms (name : String) (value : Nat) : List Arm → List Arm
  | [] => []
  | arm :: rest => substituteArm name value arm :: substituteArms name value rest

def substituteBody (name : String) (value : Nat) : ClosureBody → ClosureBody
  | .expression body => .expression (substituteBoundIdentifier name value body)
  | .block block => .block block

end

/-! ## Counts -/

def checked (value : Nat) : Option (Bool × Nat) :=
  if value ≤ maxU128 then some (false, value) else none

def foldBinary (operator : BinaryOperator) (left right : Nat) : Option (Bool × Nat) :=
  match operator with
  | .add => checked (left + right)
  | .subtract => if right ≤ left then some (false, left - right) else none
  | .multiply => checked (left * right)
  | .divide => if right ≠ 0 then some (false, left / right) else none
  | .remainder => if right ≠ 0 then some (false, left % right) else none
  | _ => none

/-- `integer`: the sign and the magnitude of a constant integer expression. -/
def constantInteger : Expr → Option (Bool × Nat)
  | .node (.integer value) _ => some (false, value)
  | .node (.unary .negate) [operand] =>
    (constantInteger operand).map fun result => (result.2 != 0, result.2)
  | .node (.binary operator) [left, right] => do
      let (leftNegative, left) ← constantInteger left
      let (rightNegative, right) ← constantInteger right
      if leftNegative || rightNegative then none else foldBinary operator left right
  | _ => none

def expansionCount (expr : Expr) : Except Diagnostic Nat :=
  match constantInteger expr with
  | some (false, count) =>
    if count ≤ maxUsize then .ok count
    else .error (expansionError
      "structured expansion count does not fit the host-independent limit")
  | _ => .error (expansionError
      "structured expansion count must be a non-negative constant integer expression")

/-! ## The expander -/

structure Expansion where
  name : String
  generatedNodes : Nat

structure Expander where
  expansions : List Expansion
  generatedNodes : Nat
  /-- A `u32` that wraps around. -/
  nextPatternGroup : Nat

abbrev ExpandM := StateT Expander (Except Diagnostic)

inductive MetaName
  | repeatCopies
  | mapIndices

def MetaName.text : MetaName → String
  | .repeatCopies => "repeat"
  | .mapIndices => "map"

/-- `meta_call_name`, from the form of a node and its parts. -/
def metaCallName : Form → List Expr → Option MetaName
  | .call, .node (.fieldAccess field) [.identifier owner] :: _ =>
    if owner = "Meta" then
      if field = "repeat" then some .repeatCopies
      else if field = "map" then some .mapIndices
      else none
    else none
  | _, _ => none

def overflowed : Diagnostic := expansionError "generated syntax node count overflowed"

def charge (name : MetaName) (nodes : Nat) : ExpandM Unit := fun state =>
  let total := state.generatedNodes + nodes
  let limit := maxGeneratedNodes
  if maxUsize < nodes ∨ maxUsize < total then .error overflowed
  else if maxGeneratedNodes < total then
    .error (expansionError s!"structured expansion exceeded {limit} generated nodes")
  else
    .ok ((), { state with
      generatedNodes := total
      expansions := state.expansions ++ [⟨"Meta." ++ name.text, nodes⟩] })

/-- The group that the alternatives of one arm share. -/
def patternGroup (alternatives : Nat) : ExpandM (Option Nat) := fun state =>
  if 1 < alternatives then
    .ok (some state.nextPatternGroup,
      { state with nextPatternGroup := (state.nextPatternGroup + 1) % 0x100000000 })
  else .ok (none, state)

def tooManyArms : Diagnostic :=
  let limit := maxRepeatCount
  ⟨.type, s!"match expands to more than {limit} pattern alternatives",
    some "reduce nested `|` alternatives in this match"⟩

/-- The arms of one arm's alternatives after the arms that are there. -/
def splitArm (done : List Arm) (pattern : Pattern) (guard : Option Expr) (value : Expr) :
    ExpandM (List Arm) := do
  let alternatives ← (patternAlternatives pattern : Except Diagnostic (List Pattern))
  if maxRepeatCount < done.length + alternatives.length then throw tooManyArms
  else do
    let group ← patternGroup alternatives.length
    pure (done ++ alternatives.map fun pattern => Arm.mk pattern group guard value)

mutual

/-- `expand_expr`; `expandMeta` replaces the calls that `meta_call_name` recognizes. -/
def expandExpr (expandMeta : MetaName → List Expr → ExpandM Expr) : Expr → ExpandM Expr
  | .node form parts =>
    match metaCallName form parts with
    | some name => expandMeta name parts.tail
    | none => do
        let parts ← expandExprs expandMeta parts
        pure (.node form parts)
  | .identifier name => pure (.identifier name)
  | .matching value arms => do
      let value ← expandExpr expandMeta value
      let arms ← expandArms expandMeta [] arms
      pure (.matching value arms)
  | .closure moveCaptures parameters body => do
      let body ← expandBody expandMeta body
      pure (.closure moveCaptures parameters body)

def expandExprs (expandMeta : MetaName → List Expr → ExpandM Expr) :
    List Expr → ExpandM (List Expr)
  | [] => pure []
  | expr :: rest => do
      let expr ← expandExpr expandMeta expr
      let rest ← expandExprs expandMeta rest
      pure (expr :: rest)

def expandGuard (expandMeta : MetaName → List Expr → ExpandM Expr) :
    Option Expr → ExpandM (Option Expr)
  | none => pure none
  | some guard => do
      let guard ← expandExpr expandMeta guard
      pure (some guard)

def expandArm (expandMeta : MetaName → List Expr → ExpandM Expr) (done : List Arm) :
    Arm → ExpandM (List Arm)
  | .mk pattern _ guard value => do
      let guard ← expandGuard expandMeta guard
      let value ← expandExpr expandMeta value
      splitArm done pattern guard value

def expandArms (expandMeta : MetaName → List Expr → ExpandM Expr) (done : List Arm) :
    List Arm → ExpandM (List Arm)
  | [] => pure done
  | arm :: rest => do
      let done ← expandArm expandMeta done arm
      expandArms expandMeta done rest

def expandBody (expandMeta : MetaName → List Expr → ExpandM Expr) :
    ClosureBody → ExpandM ClosureBody
  | .expression value => do
      let value ← expandExpr expandMeta value
      pure (.expression value)
  | .block block => do
      let block ← expandBlock expandMeta block
      pure (.block block)

def expandBlock (expandMeta : MetaName → List Expr → ExpandM Expr) : Block → ExpandM Block
  | .mk statements => do
      let statements ← expandStatements expandMeta statements
      pure (.mk statements)

def expandStatements (expandMeta : MetaName → List Expr → ExpandM Expr) :
    List Statement → ExpandM (List Statement)
  | [] => pure []
  | statement :: rest => do
      let statement ← expandStatement expandMeta statement
      let rest ← expandStatements expandMeta rest
      pure (statement :: rest)

/-- `expand_statement`: the expressions of a statement come before its blocks. -/
def expandStatement (expandMeta : MetaName → List Expr → ExpandM Expr) :
    Statement → ExpandM Statement
  | .mk form values blocks => do
      let values ← expandExprs expandMeta values
      let blocks ← expandBlocks expandMeta blocks
      pure (.mk form values blocks)

def expandBlocks (expandMeta : MetaName → List Expr → ExpandM Expr) :
    List Block → ExpandM (List Block)
  | [] => pure []
  | block :: rest => do
      let block ← expandBlock expandMeta block
      let rest ← expandBlocks expandMeta rest
      pure (block :: rest)

end

def depthExceeded : Diagnostic :=
  let limit := maxExpansionDepth
  expansionError s!"structured expansion exceeded depth {limit}"

def metaCount (name : MetaName) (expr : Expr) : Except Diagnostic Nat := do
  let count ← expansionCount expr
  let text := name.text
  let limit := maxRepeatCount
  if maxRepeatCount < count then
    .error (expansionError s!"Meta.{text} count {count} exceeds the limit {limit}")
  else .ok count

/-- The body and the parameter of the closure that `Meta.map` takes. -/
def mapper : Expr → Except Diagnostic (String × Expr)
  | .closure false parameters (.expression body) =>
    match parameters with
    | [parameter] => .ok (parameter, body)
    | _ => .error (expansionError "Meta.map expects exactly one mapper parameter")
  | _ => .error (expansionError
      "Meta.map expects a non-moving one-parameter expression closure")

/-- `Meta.repeat`: the template is expanded before it is copied. -/
def expandRepeat (expand : Expr → ExpandM Expr) (count : Nat) (template : Expr) :
    ExpandM Expr := do
  let template ← expand template
  charge .repeatCopies (expressionNodes template * count + 1)
  pure (.node .array (List.replicate count template))

/-- `Meta.map`: the copies are expanded, each with its index. -/
def expandMap (expand : Expr → ExpandM Expr) (count : Nat) (template : Expr) : ExpandM Expr := do
  let (parameter, body) ← (mapper template : Except Diagnostic (String × Expr))
  let generated := (List.range count).map (substituteBoundIdentifier parameter · body)
  charge .mapIndices (1 + partsNodes generated)
  expand (.node .array generated)

/-- `expand_meta`, after its check of the depth; `expand` is `expand_expr` one level deeper. -/
def expandMeta (expand : Expr → ExpandM Expr) (name : MetaName) (arguments : List Expr) :
    ExpandM Expr :=
  match arguments with
  | [countExpr, template] => do
      let count ← (metaCount name countExpr : Except Diagnostic Nat)
      match name with
      | .repeatCopies => expandRepeat expand count template
      | .mapIndices => expandMap expand count template
  | _ =>
    let text := name.text
    throw (expansionError s!"Meta.{text} expects exactly two arguments")

/-- `expand_expr` when so many more levels are allowed. -/
def expandLevel : Nat → Expr → ExpandM Expr
  | 0 => expandExpr fun _ _ => throw depthExceeded
  | levels + 1 => expandExpr (expandMeta (expandLevel levels))

def expandTopMeta : MetaName → List Expr → ExpandM Expr :=
  expandMeta (expandLevel (maxExpansionDepth - 1))

def expandFunction (function : Function) : ExpandM Function :=
  if function.external then pure function
  else do
    let body ← expandBlock expandTopMeta function.body
    pure { function with body }

def expandFunctions : List Function → ExpandM (List Function)
  | [] => pure []
  | function :: rest => do
      let function ← expandFunction function
      let rest ← expandFunctions rest
      pure (function :: rest)

def expandImplementations : List (List Function) → ExpandM (List (List Function))
  | [] => pure []
  | methods :: rest => do
      let methods ← expandFunctions methods
      let rest ← expandImplementations rest
      pure (methods :: rest)

def expandProgram (program : Program) : ExpandM Program := do
  let functions ← expandFunctions program.functions
  let implementations ← expandImplementations program.implementations
  pure ⟨functions, implementations⟩

/-- `expansion::expand`: the program after expansion and the report. -/
def expand (program : Program) : Except Diagnostic (Program × Expander) :=
  expandProgram program ⟨[], 0, 0⟩

end Disp.Expansion
