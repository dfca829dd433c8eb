import Chunkwise.Program.Value
import Chunkwise.Syntax.Expr

/-!
Resolved and typed code. Every name has become a slot, a field index or a method by the time code
has this form; only a call through an interface searches for its target when it runs.
-/
namespace Chunkwise

/-- How an operation represents its numbers. -/
inductive NumKind where
  | int
  | double
  deriving DecidableEq, Repr

inductive CompareOp where
  | lt | le | gt | ge
  deriving DecidableEq, Repr

/-- An operation on two values. -/
inductive ValueOp where
  | arith (op : ArithOp) (kind : NumKind)
  | compare (op : CompareOp) (kind : NumKind)
  | concat
  | equal
  | notEqual
  deriving DecidableEq, Repr

/-- A method of a type by its position there, or a helper of the host. -/
inductive MethodRef where
  | member (type : Path) (index : Nat)
  | helper (index : Nat)
  deriving DecidableEq, Repr

mutual

/-- A location that can be read and assigned. -/
inductive Place where
  | frame (index : Nat)
  | static (slot : Nat)
  | field (target : BoundExpr) (index : Nat)

inductive BoundExpr where
  | const (value : Value)
  | load (place : Place)
  | thisRef
  | assign (place : Place) (value : BoundExpr)
  | compound (place : Place) (op : ValueOp) (value : BoundExpr)
  | step (place : Place) (op : StepOp) (leading : Bool) (kind : NumKind)
  | neg (kind : NumKind) (operand : BoundExpr)
  | not (operand : BoundExpr)
  | binary (op : ValueOp) (left right : BoundExpr)
  | both (left right : BoundExpr)
  | either (left right : BoundExpr)
  | coalesce (left right : BoundExpr)
  | cond (test yes no : BoundExpr)
  | callStatic (method : MethodRef) (args : List BoundExpr)
  | callDirect (receiver : BoundExpr) (method : MethodRef) (args : List BoundExpr)
  | callVirtual (receiver : BoundExpr) (method : MethodRef) (args : List BoundExpr)
  | new (type : Path) (constructor : Option Nat) (args : List BoundExpr)
  | toText (operand : BoundExpr)
  | textLength (operand : BoundExpr)
  | widen (operand : BoundExpr)

end

inductive BoundStmt where
  | expr (expr : BoundExpr)
  /-- Evaluates and records the value as the result of the unit. -/
  | capture (expr : BoundExpr)
  | block (body : List BoundStmt)
  | ifElse (test : BoundExpr) (yes : BoundStmt) (no : Option BoundStmt)
  | whileDo (test : BoundExpr) (body : BoundStmt)
  | doWhile (body : BoundStmt) (test : BoundExpr)
  | forLoop (init : List BoundStmt) (test : Option BoundExpr) (update : List BoundExpr)
      (body : BoundStmt)
  | breakLoop
  | continueLoop
  | returnValue (value : Option BoundExpr)
  | throwValue (value : BoundExpr)

/-- A body with the number of frame slots it needs; parameters take the first ones. -/
structure Code where
  body : List BoundStmt
  locals : Nat

end Chunkwise
