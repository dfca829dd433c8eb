import Chunkwise.Syntax.Expr

namespace Chunkwise

/-- One name of a declaration with its initial value. -/
structure Declarator where
  name : Ident
  init : Option Expr
  span : Span

structure LocalDecl where
  isConst : Bool
  type : TypeRef
  declarators : List Declarator
  span : Span

/-- The first clause of a `for` statement. -/
inductive ForInit where
  | none
  | declare (decl : LocalDecl)
  | exprs (exprs : List Expr)

inductive Stmt where
  | empty (span : Span)
  | block (span : Span) (body : List Stmt)
  | declare (span : Span) (decl : LocalDecl)
  | expr (span : Span) (expr : Expr)
  | ifElse (span : Span) (test : Expr) (yes : Stmt) (no : Option Stmt)
  | whileDo (span : Span) (test : Expr) (body : Stmt)
  | doWhile (span : Span) (body : Stmt) (test : Expr)
  | forLoop (span : Span) (init : ForInit) (test : Option Expr) (update : List Expr) (body : Stmt)
  | breakLoop (span : Span)
  | continueLoop (span : Span)
  | returnValue (span : Span) (value : Option Expr)
  | throwValue (span : Span) (value : Option Expr)

def Stmt.span : Stmt → Span
  | empty s | block s _ | declare s _ | expr s _ | ifElse s _ _ _ | whileDo s _ _
  | doWhile s _ _ | forLoop s _ _ _ _ | breakLoop s | continueLoop s | returnValue s _
  | throwValue s _ => s

/-- Statements between braces. -/
structure Block where
  stmts : List Stmt
  span : Span

structure StatementUnit where
  stmts : List Stmt
  span : Span

end Chunkwise
