import Chunkwise.Binder.Expr
import Chunkwise.Syntax.Stmt

namespace Chunkwise.Bind

variable [NameLookup]

/-- Runs `p` in a scope of its own. -/
def within {α : Type} (kind : ScopeKind) (p : Bind α) : Bind α := do
  updateScopes (·.push kind)
  let a? ← Attempt.optional p
  updateScopes Scopes.pop
  Attempt.ofOption a?

/-- The type of a declarator and its initial value. The name is not in scope yet while the value is
bound. -/
def declarator (decl : LocalDecl) (d : Declarator) : Bind (Ty × Option BoundExpr) := do
  if decl.isConst && d.init.isNone then refuse (.constantWithoutValue d.name.name) d.span
  else if decl.type.type = .infer then
    match d.init with
    | none => refuse .varWithoutValue d.span
    | some init =>
      let v ← value init
      if v.type = .null then refuse .varFromNull init.span
      else return (v.type, some v.expr)
  else
    let t ← resolveValueType (← body).ctx decl.type
    match d.init with
    | some init => return (t, some (← converted t init))
    | none => return (t, none)

/-- Puts a local into the current scope. -/
def defineLocal (name : Ident) (type : Ty) (isReadonly : Bool) : Bind Nat := do
  let (slot?, scopes) := (← body).scopes.defineLocal name.name type isReadonly
  match slot? with
  | some slot =>
    updateScopes fun _ => scopes
    return slot
  | none => refuse (.duplicateLocal name.name) name.span

/-- A local is set each time its declaration runs, to its default if it has no initial value. -/
def localVariable (decl : LocalDecl) (d : Declarator) : Bind BoundStmt := do
  let (t, init) ← declarator decl d
  let default := (← image).defaultValue t
  let slot ← defineLocal d.name t decl.isConst
  return .expr (.assign (.frame slot) (init.getD (.const default)))

def localDecl (decl : LocalDecl) : Bind (List BoundStmt) :=
  Attempt.keepSome (localVariable decl) decl.declarators

def jump (s : BoundStmt) (span : Span) : Bind BoundStmt := do
  if (← body).scopes.inLoop then return s
  else refuse .jumpOutsideLoop span

def returned (value : Option Expr) (span : Span) : Bind BoundStmt := do
  match (← body).returns with
  | none => refuse .returnAtTop span
  | some t =>
    match value with
    | none =>
      if t = .void then return .returnValue none
      else refuse (.valueRequired t.text) span
    | some e =>
      if t = .void then refuse .valueFromVoid span
      else return .returnValue (some (← converted t e))

def thrown (e : Option Expr) (span : Span) : Bind BoundStmt := do
  match e with
  | some e => return .throwValue (← value e).expr
  | none => refuse .throwNothing span

/-- The statement that does nothing. -/
def skip : BoundStmt := .block []

def forInit : ForInit → Bind (List BoundStmt)
  | .none => return []
  | .declare decl => localDecl decl
  | .exprs es => Attempt.keepSome (fun e => do return .expr (← expr e).expr) es

/-- A condition that may be left out; one with a problem is left out too. -/
def optionalCondition : Option Expr → Bind (Option BoundExpr)
  | none => return none
  | some e => Attempt.optional (condition e)

mutual

def stmt : Stmt → Bind BoundStmt
  | .empty _ => Attempt.fail
  | .block _ body => do return .block (← within .block (stmts body))
  | .declare _ decl => do return .block (← localDecl decl)
  | .expr _ e => do return .expr (← expr e).expr
  | .ifElse _ test yes none => do
    let c? ← Attempt.optional (condition test)
    let yes? ← Attempt.optional (within .block (stmt yes))
    let c ← Attempt.ofOption c?
    return .ifElse c (yes?.getD skip) none
  | .ifElse _ test yes (some no) => do
    let c? ← Attempt.optional (condition test)
    let yes? ← Attempt.optional (within .block (stmt yes))
    let no? ← Attempt.optional (within .block (stmt no))
    let c ← Attempt.ofOption c?
    return .ifElse c (yes?.getD skip) no?
  | .whileDo _ test body => do
    let c? ← Attempt.optional (condition test)
    let body? ← Attempt.optional (within .loop (stmt body))
    let c ← Attempt.ofOption c?
    return .whileDo c (body?.getD skip)
  | .doWhile _ body test => do
    let body? ← Attempt.optional (within .loop (stmt body))
    let c ← condition test
    return .doWhile (body?.getD skip) c
  | .forLoop _ init test update body =>
    within .loop do
      let init ← forInit init
      let test ← optionalCondition test
      let update ← Attempt.keepSome (fun e => do return (← expr e).expr) update
      let body? ← Attempt.optional (within .block (stmt body))
      return .forLoop init test update (body?.getD skip)
  | .breakLoop span => jump .breakLoop span
  | .continueLoop span => jump .continueLoop span
  | .returnValue span e => returned e span
  | .throwValue span e => thrown e span

/-- The statements that can be bound, in order. -/
def stmts : List Stmt → Bind (List BoundStmt)
  | [] => return []
  | s :: rest => do
    let s? ← Attempt.optional (stmt s)
    let bound ← stmts rest
    return s?.toList ++ bound

end

end Chunkwise.Bind
