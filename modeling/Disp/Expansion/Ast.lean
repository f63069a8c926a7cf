/-!
# Programs before expansion

The syntax that structured expansion works on.  Most expressions and statements are walked the
same way, part after part, so a node is written as its form, which holds what is not an
expression, with its parts in the order of the walk.
-/

namespace Disp.Expansion

/-! ## Patterns -/

inductive Pattern
  | wildcard
  | binding (name : String)
  | integer (value : Nat)
  | negativeInteger (value : Nat)
  | string (value : String)
  | character (value : Char)
  | bool (value : Bool)
  | or (alternatives : List Pattern)
  | struct (typeName : String) (fields : List String) (patterns : List Pattern) (rest : Bool)
  | variant (typeName : Option String) (variant : String) (arguments : List Pattern)

/-! ## Expressions and statements -/

inductive UnaryOperator
  | negate
  | not

inductive BinaryOperator
  | add
  | subtract
  | multiply
  | divide
  | remainder
  | equal
  | notEqual
  | less
  | lessEqual
  | greater
  | greaterEqual
  | and
  | or

inductive AssignmentOperator
  | assign
  | add
  | subtract
  | multiply
  | divide

inductive BindingKind
  | letBinding
  | varBinding
  | constBinding

inductive DataQueryKind
  | rows
  | count
  | exists
  | sum
  | average
  | min
  | max

/-- The expressions that are walked part after part. -/
inductive Form
  | array
  | integer (value : Nat)
  | float (value : Float)
  | string (value : String)
  | character (value : Char)
  | bool (value : Bool)
  | dataStore
  | dataWrite (replace : Bool)
  /-- The parts are the aggregate, the store, the predicate, the key of the order and the
  limit, those that are there. -/
  | dataQuery (kind : DataQueryKind) (schema : String) (aggregate predicate : Bool)
      (descending : Option Bool) (limit : Bool)
  | dataRemove (schema : String)
  | structConstruct (name : String) (fields : List String)
  | fieldAccess (field : String)
  | index
  | subslice
  | tryValue
  | awaitValue
  | spawnValue
  | moveValue
  | borrow (mutable : Bool)
  | dereference
  | unary (operator : UnaryOperator)
  | binary (operator : BinaryOperator)
  /-- The callee comes before the arguments. -/
  | call

inductive StatementForm
  | binding (kind : BindingKind) (name : String)
  | assignment (name : String) (operator : AssignmentOperator)
  | placeAssignment (operator : AssignmentOperator)
  | expression
  | returnValue
  | ifElse
  | whileLoop
  | forRange (name : String) (inclusive : Bool)
  | forEach (name : String)
  | loopForever
  | unsafeBlock
  | breakLoop
  | continueLoop

mutual

inductive Expr
  | node (form : Form) (parts : List Expr)
  | identifier (name : String)
  | matching (value : Expr) (arms : List Arm)
  | closure (moveCaptures : Bool) (parameters : List String) (body : ClosureBody)

inductive Arm
  | mk (pattern : Pattern) (alternativeGroup : Option Nat) (guard : Option Expr) (value : Expr)

inductive ClosureBody
  | expression (value : Expr)
  | block (block : Block)

inductive Block
  | mk (statements : List Statement)

inductive Statement
  | mk (form : StatementForm) (values : List Expr) (blocks : List Block)

end

structure Function where
  external : Bool
  body : Block

/-- The functions of a program, and the methods of each of its implementations. -/
structure Program where
  functions : List Function
  implementations : List (List Function)

/-! ## Counting nodes -/

mutual

def Pattern.nodes : Pattern → Nat
  | .or alternatives => 1 + patternsNodes alternatives
  | .struct _ _ patterns _ => 1 + patternsNodes patterns
  | .variant _ _ arguments => 1 + patternsNodes arguments
  | _ => 1

def patternsNodes : List Pattern → Nat
  | [] => 0
  | pattern :: rest => pattern.nodes + patternsNodes rest

end

mutual

/-- The number of syntax nodes of an expression, those of patterns and in the blocks of closures
included. -/
def Expr.nodes : Expr → Nat
  | .node _ parts => 1 + exprsNodes parts
  | .identifier _ => 1
  | .matching value arms => 1 + (value.nodes + armsNodes arms)
  | .closure _ _ body => 1 + body.nodes

def exprsNodes : List Expr → Nat
  | [] => 0
  | expr :: rest => expr.nodes + exprsNodes rest

def guardNodes : Option Expr → Nat
  | none => 0
  | some guard => guard.nodes

def Arm.nodes : Arm → Nat
  | .mk pattern _ guard value => pattern.nodes + (guardNodes guard + value.nodes)

def armsNodes : List Arm → Nat
  | [] => 0
  | arm :: rest => arm.nodes + armsNodes rest

def ClosureBody.nodes : ClosureBody → Nat
  | .expression value => value.nodes
  | .block block => block.nodes

def Block.nodes : Block → Nat
  | .mk statements => 1 + statementsNodes statements

def statementsNodes : List Statement → Nat
  | [] => 0
  | statement :: rest => statement.nodes + statementsNodes rest

def Statement.nodes : Statement → Nat
  | .mk _ values blocks => 1 + (exprsNodes values + blocksNodes blocks)

def blocksNodes : List Block → Nat
  | [] => 0
  | block :: rest => block.nodes + blocksNodes rest

end

def functionsNodes : List Function → Nat
  | [] => 0
  | function :: rest => function.body.nodes + functionsNodes rest

def implementationsNodes : List (List Function) → Nat
  | [] => 0
  | methods :: rest => functionsNodes methods + implementationsNodes rest

def Program.nodes (program : Program) : Nat :=
  functionsNodes program.functions + implementationsNodes program.implementations

mutual

/-- `expression_nodes`: the block of a closure counts as one node, a pattern as none. -/
def expressionNodes : Expr → Nat
  | .node _ parts => 1 + partsNodes parts
  | .identifier _ => 1
  | .matching value arms => 1 + (expressionNodes value + armExpressionNodes arms)
  | .closure _ _ body => 1 + bodyNodes body

def partsNodes : List Expr → Nat
  | [] => 0
  | expr :: rest => expressionNodes expr + partsNodes rest

def guardExpressionNodes : Option Expr → Nat
  | none => 0
  | some guard => expressionNodes guard

def armNodes : Arm → Nat
  | .mk _ _ guard value => guardExpressionNodes guard + expressionNodes value

def armExpressionNodes : List Arm → Nat
  | [] => 0
  | arm :: rest => armNodes arm + armExpressionNodes rest

def bodyNodes : ClosureBody → Nat
  | .expression value => expressionNodes value
  | .block _ => 1

end

end Disp.Expansion
