import Chunkwise.Source.Span

namespace Chunkwise

structure Ident where
  name : String
  span : Span
  deriving DecidableEq, Repr

/-- A dotted name. -/
structure QualifiedName where
  parts : List Ident
  span : Span
  deriving DecidableEq, Repr

namespace QualifiedName

def segments (q : QualifiedName) : List String := q.parts.map Ident.name

def text (q : QualifiedName) : String := ".".intercalate q.segments

end QualifiedName

/-- A type as written; `infer` stands for a type taken from the initial value. -/
inductive TypeExpr where
  | bool
  | int
  | long
  | double
  | string
  | object
  | void
  | infer
  | named (name : QualifiedName)
  deriving DecidableEq, Repr

def TypeExpr.text : TypeExpr → String
  | .bool => "bool"
  | .int => "int"
  | .long => "long"
  | .double => "double"
  | .string => "string"
  | .object => "object"
  | .void => "void"
  | .infer => "var"
  | .named name => name.text

structure TypeRef where
  type : TypeExpr
  span : Span
  deriving DecidableEq, Repr

inductive UnaryOp where
  | neg
  | plus
  | not
  deriving DecidableEq, Repr

def UnaryOp.text : UnaryOp → String
  | .neg => "-"
  | .plus => "+"
  | .not => "!"

inductive BinaryOp where
  | coalesce
  | or | and
  | eq | ne
  | lt | le | gt | ge
  | add | sub
  | mul | div | rem
  deriving DecidableEq, Repr

def BinaryOp.text : BinaryOp → String
  | .coalesce => "??"
  | .or => "||"
  | .and => "&&"
  | .eq => "=="
  | .ne => "!="
  | .lt => "<"
  | .le => "<="
  | .gt => ">"
  | .ge => ">="
  | .add => "+"
  | .sub => "-"
  | .mul => "*"
  | .div => "/"
  | .rem => "%"

/-- The arithmetic operators, which may also stand before an equals sign. -/
inductive ArithOp where
  | add | sub | mul | div | rem
  deriving DecidableEq, Repr

def ArithOp.toBinary : ArithOp → BinaryOp
  | .add => .add
  | .sub => .sub
  | .mul => .mul
  | .div => .div
  | .rem => .rem

def ArithOp.text (op : ArithOp) : String := op.toBinary.text

/-- Plain assignment has no operator. -/
abbrev AssignOp := Option ArithOp

def AssignOp.text : AssignOp → String
  | none => "="
  | some op => op.text ++ "="

/-- Which way `++` and `--` step. -/
inductive StepOp where
  | increment
  | decrement
  deriving DecidableEq, Repr

def StepOp.text : StepOp → String
  | .increment => "++"
  | .decrement => "--"

inductive Expr where
  | int (span : Span) (value : Int64)
  | double (span : Span) (value : Float)
  | str (span : Span) (value : String)
  | bool (span : Span) (value : Bool)
  | null (span : Span)
  | thisRef (span : Span)
  | name (span : Span) (id : String)
  | member (span : Span) (target : Expr) (name : Ident)
  | call (span : Span) (callee : Expr) (args : List Expr)
  | new (span : Span) (type : TypeRef) (args : List Expr)
  | unary (span : Span) (op : UnaryOp) (operand : Expr)
  | binary (span : Span) (op : BinaryOp) (left right : Expr)
  | assign (span : Span) (op : AssignOp) (target value : Expr)
  | step (span : Span) (op : StepOp) (leading : Bool) (target : Expr)
  | cond (span : Span) (test yes no : Expr)
  | paren (span : Span) (inner : Expr)

def Expr.span : Expr → Span
  | int s _ | double s _ | str s _ | bool s _ | null s | thisRef s | name s _
  | member s _ _ | call s _ _ | new s _ _ | unary s _ _ | binary s _ _ _ | assign s _ _ _
  | step s _ _ _ | cond s _ _ _ | paren s _ => s

end Chunkwise
