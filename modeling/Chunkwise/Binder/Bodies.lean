import Chunkwise.Binder.Populate
import Chunkwise.Binder.Stmt
import Chunkwise.Program.Reach

namespace Chunkwise.Bind

variable [NameLookup]

/-- An initial value of a field: code for a static one, an indexed value for an object's. -/
inductive FieldInit where
  | static (code : BoundStmt)
  | ofObject (index : Nat) (value : BoundExpr)

def staticInit (d : DeclaredType) (name : String) (init : Expr) : Bind FieldInit := do
  let f ← Attempt.ofOption ((← typeDef d.path).static? name)
  setBody (.method d.inside none .void)
  let e ← converted f.type init
  return .static (.expr (.assign (.static f.slot) e))

def objectInit (d : DeclaredType) (name : String) (init : Expr) : Bind FieldInit := do
  let (index, f) ← Attempt.ofOption ((← typeDef d.path).field? name)
  setBody (.method d.inside (some d.path) .void)
  let e ← converted f.type init
  return .ofObject index e

def declaratorInit (d : DeclaredType) (field : FieldDecl) (v : Declarator) :
    Bind (Option FieldInit) := do
  match v.init with
  | none => return none
  | some init =>
    let isStatic := field.modifiers.contains .staticMember || field.modifiers.contains .constField
    if isStatic then return some (← staticInit d v.name.name init)
    else return some (← objectInit d v.name.name init)

def fieldInits (d : DeclaredType) : List MemberDecl → Bind (List FieldInit)
  | [] => return []
  | .field f :: rest => do
    let found ← Attempt.keepSome (declaratorInit d f) f.declarators
    let more ← fieldInits d rest
    return found.filterMap id ++ more
  | _ :: rest => fieldInits d rest

def FieldInit.static? : FieldInit → Option BoundStmt
  | .static code => some code
  | .ofObject .. => none

def FieldInit.ofObject? : FieldInit → Option (Nat × BoundExpr)
  | .static _ => none
  | .ofObject index e => some (index, e)

/-- Binds the initializers of a type and returns those of its static fields. -/
def bindFieldInits (d : DeclaredType) : Bind (List BoundStmt) := do
  let inits ← fieldInits d d.members
  updateType d.path fun t => { t with inits := inits.filterMap FieldInit.ofObject? }
  return inits.filterMap FieldInit.static?

/-- Binds the body of a method whose parameters are the first locals. A method with a result must
not fall off its end. -/
def methodCode (context : BodyContext) (m : Method) (body : Block) (span : Span) : Bind Code := do
  setBody context
  let _ ← Attempt.forAll (fun (p : String × Ty) =>
    updateScopes fun s => (s.defineLocal p.1 p.2 false).2) m.params
  let code ← stmts body.stmts
  if m.returns ≠ .void ∧ BoundStmt.allComplete code then
    refuse (.missingReturn m.owner m.name) span
  else return ⟨code, (← Bind.body).scopes.slotCount⟩

/-- Replaces the body of the method at a position. -/
def withBody (ms : List Method) (index : Nat) (code : Code) : List Method :=
  ms.modify index fun m => { m with body := .code code }

def bindMethod (d : DeclaredType) (m : MethodDecl × Nat) : Bind Unit := do
  match m.1.body with
  | none => return ()
  | some block =>
    let method ← Attempt.ofOption ((← typeDef d.path).methods[m.2]?)
    let thisType := if method.isStatic then none else some d.path
    let code ← methodCode (.method d.inside thisType method.returns) method block m.1.name.span
    updateType d.path fun t => { t with methods := withBody t.methods m.2 code }

def bindConstructor (d : DeclaredType) (c : ConstructorDecl × Nat) : Bind Unit := do
  let method ← Attempt.ofOption ((← typeDef d.path).constructors[c.2]?)
  let context := { BodyContext.method d.inside (some d.path) .void with inConstructor := true }
  let code ← methodCode context method c.1.body c.1.name.span
  updateType d.path fun t => { t with constructors := withBody t.constructors c.2 code }

/-- Binds all code of a type and returns the initializers of its static fields. -/
def bindBodies (p : PopulatedType) : Bind (List BoundStmt) := do
  if p.decl.head.kind = .enumKind ∨ p.decl.head.kind = .interfaceKind then return []
  else
    let statics ← bindFieldInits p.decl
    let _ ← Attempt.forAll (bindMethod p.decl) p.methods
    let _ ← Attempt.forAll (bindConstructor p.decl) p.constructors
    return statics

def bindAllBodies (ps : List PopulatedType) : Bind (List BoundStmt) := do
  return (← Attempt.keepSome bindBodies ps).flatten

end Chunkwise.Bind
