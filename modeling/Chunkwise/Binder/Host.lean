import Chunkwise.Binder.Stmt

/-!
The statements of a chunk are the body of an unnamed host method. A declaration at the top creates
a variable of the session, and so does an assignment to a name that means nothing yet. The value of
a final expression is the result of the chunk.
-/
namespace Chunkwise.Bind

variable [NameLookup]

/-- Creates a variable of the session and brings it into scope. -/
def addVariable (name : String) (type : Ty) (isReadonly : Bool) : Bind Nat := do
  let slot ← addSlot name type
  updateScopes fun s => (s.defineVariable name slot type isReadonly).2
  Attempt.modify fun s => { s with newVariables := s.newVariables ++ [⟨name, slot, isReadonly⟩] }
  return slot

def setVariable (slot : Nat) (e : BoundExpr) : BoundStmt := .expr (.assign (.static slot) e)

/-- Whether a name means nothing here. -/
def isUnbound (name : String) : Bind Bool := do
  let known ← Attempt.gets fun s =>
    (s.body.scopes.lookup name).isSome || (s.registry.lookup name).isSome ||
    !(Builtin.helpersNamed name).isEmpty
  if known then return false
  else return (← NameLookup.find (← body).ctx name).isNone

/-- An assignment that declares its variable with the type of the value. -/
def implicitVariable (name : String) (e : Expr) : Bind BoundStmt := do
  let v ← value e
  if v.type = .null then refuse (.implicitFromNull name) e.span
  else
    let slot ← addVariable name v.type false
    return setVariable slot v.expr

/-- One name of a top-level declaration; the code sets it if it has an initial value. -/
def hostVariable (decl : LocalDecl) (d : Declarator) : Bind (Option BoundStmt) := do
  if (← body).scopes.definedHere d.name.name then
    refuse (.duplicateVariable d.name.name) d.name.span
  else
    let (t, init) ← declarator decl d
    let slot ← addVariable d.name.name t decl.isConst
    return init.map (setVariable slot)

def hostVariables (decl : LocalDecl) : Bind (List BoundStmt) := do
  return (← Attempt.keepSome (hostVariable decl) decl.declarators).filterMap id

/-- The name that a plain assignment would declare if it meant nothing. -/
def implicitTarget? : Expr → Option (String × Expr)
  | .assign _ none (.name _ id) e => some (id, e)
  | _ => none

/-- Assignments and steps yield no result of the chunk. -/
def yieldsResult : Expr → Bool
  | .assign .. | .step .. => false
  | _ => true

def hostExpr (isLast : Bool) (e : Expr) : Bind BoundStmt := do
  let v ← expr e
  if isLast && yieldsResult e && v.type != .void then return .capture v.expr
  else return .expr v.expr

/-- A top-level expression statement. -/
def hostExprStmt (isLast : Bool) (e : Expr) : Bind BoundStmt := do
  match implicitTarget? e with
  | some (name, value) =>
    if ← isUnbound name then implicitVariable name value
    else hostExpr isLast e
  | none => hostExpr isLast e

/-- The code of one top-level statement; none of it if it has a problem. -/
def hostStmt (isLast : Bool) : Stmt → Bind (List BoundStmt)
  | .declare _ decl => hostVariables decl
  | .expr _ e => do return (← Attempt.optional (hostExprStmt isLast e)).toList
  | s => do return (← Attempt.optional (stmt s)).toList

def hostStmts : List Stmt → Bind (List BoundStmt)
  | [] => return []
  | s :: rest => do
    let bound ← hostStmt rest.isEmpty s
    let more ← hostStmts rest
    return bound ++ more

end Chunkwise.Bind
