import Mathlib.Algebra.Order.Ring.Int
import Mathlib.Data.List.Basic

/-!
# Function bodies of the ownership checker

The statements and expressions of a function body as far as they move, borrow and
assign local variables and their fields, with the types the checker tracks.
-/

namespace Disp.Ownership

/-- The checker's types of locals: `Ty::Copy` stands for every scalar. -/
inductive Ty
  | copy
  | owned (name : String)
  | reference (inner : Ty) (mutable : Bool)
  | list (element : Ty)
  deriving DecidableEq, Repr

def Ty.isReference : Ty → Bool
  | .reference _ _ => true
  | _ => false

/-- `ty_contains_reference`, for types whose fields hold no references. -/
def Ty.containsReference : Ty → Bool
  | .reference _ _ => true
  | .list element => element.containsReference
  | _ => false

structure StructDeclaration where
  name : String
  fields : List (String × Ty)
  deriving Repr

/-- A variable or a field reached from it. -/
structure PlaceExpr where
  root : String
  fields : List String
  deriving DecidableEq, Repr

inductive Expr
  /-- A literal, or a call that takes no local and returns a new value. -/
  | value (ty : Ty)
  | use (place : PlaceExpr)
  | move (place : PlaceExpr)
  | borrow (mutable : Bool) (place : PlaceExpr)
  deriving DecidableEq, Repr

inductive Statement
  | binding (mutable : Bool) (name : String) (annotated : Option Ty) (value : Option Expr)
  | assignment (name : String) (value : Expr)
  | placeAssignment (target : PlaceExpr) (value : Expr)
  | expression (value : Expr)
  | returns (value : Option Expr)
  | ifElse (condition : Expr) (thenBranch elseBranch : List Statement)
  | whileLoop (condition : Expr) (body : List Statement)
  | forRange (name : String) (first last : Expr) (body : List Statement)
  | forEach (name : String) (iterable : PlaceExpr) (body : List Statement)
  | loop (body : List Statement)
  | breaks
  | continues
  deriving Repr

structure Function where
  parameters : List (String × Ty)
  returnType : Option Ty
  body : List Statement
  deriving Repr

structure Program where
  structs : List StructDeclaration
  copyTypes : List String
  functions : List Function
  deriving Repr

/-- `ty_is_copy`. -/
def Program.tyIsCopy (program : Program) : Ty → Bool
  | .copy => true
  | .owned name => program.copyTypes.contains name
  | .reference _ mutable => !mutable
  | .list _ => false

/-! ## Names used by a block -/

/-- `collect_expr_names`. -/
def Expr.names : Expr → List String
  | .value _ => []
  | .use place | .move place | .borrow _ place => [place.root]

mutual

/-- `collect_statement_names`: the variables a statement mentions, not counting the
ones it binds. -/
def Statement.names : Statement → List String
  | .binding _ _ _ value => (value.map Expr.names).getD []
  | .assignment name value => name :: value.names
  | .placeAssignment target value => target.root :: value.names
  | .expression value => value.names
  | .returns value => (value.map Expr.names).getD []
  | .ifElse condition thenBranch elseBranch =>
    condition.names ++ blockNames thenBranch ++ blockNames elseBranch
  | .whileLoop condition body => condition.names ++ blockNames body
  | .forRange _ first last body => first.names ++ last.names ++ blockNames body
  | .forEach _ iterable body => iterable.root :: blockNames body
  | .loop body => blockNames body
  | .breaks | .continues => []

/-- `collect_block_names`. -/
def blockNames : List Statement → List String
  | [] => []
  | statement :: statements => statement.names ++ blockNames statements

end

/-- `block_last_uses`, counting from `index`: the last statement that mentions a name. -/
def lastUse (name : String) : Nat → List Statement → Option Nat
  | _, [] => none
  | index, statement :: statements =>
    match lastUse name (index + 1) statements with
    | some last => some last
    | none => if statement.names.contains name then some index else none

end Disp.Ownership
