import Chunkwise.Attempt
import Chunkwise.Binder.Scope
import Chunkwise.Diagnostic.Log
import Chunkwise.Image.Undo
import Chunkwise.Image.Builtin
import Chunkwise.Program.Registry

/-!
Binding one chunk works on the image itself and records its additions in an undo log. All else
that it creates, such as slots, stays in this state until the chunk as a whole succeeds.
-/
namespace Chunkwise

/-- Where code stands: a namespace and the names of the types around it, outermost first. -/
structure TypeContext where
  space : Path
  enclosing : List String
  deriving DecidableEq, Repr

namespace TypeContext

def top : TypeContext := ⟨[], []⟩

/-- The path of the innermost container. -/
def container (ctx : TypeContext) : Path := ctx.space ++ ctx.enclosing

/-- The context inside the type called `name`. -/
def nested (ctx : TypeContext) (name : String) : TypeContext :=
  { ctx with enclosing := ctx.enclosing ++ [name] }

/-- The enclosing types, innermost first. -/
def types (ctx : TypeContext) : List Path :=
  ((List.range ctx.enclosing.length).map fun i => ctx.space ++ ctx.enclosing.take (i + 1)).reverse

/-- The enclosing namespaces, innermost first and the global one last. -/
def spaces (ctx : TypeContext) : List Path :=
  ((List.range (ctx.space.length + 1)).map fun i => ctx.space.take i).reverse

end TypeContext

/-- The body that is being bound. -/
structure BodyContext where
  ctx : TypeContext
  /-- The type of `this`; none in static code and in a host unit. -/
  thisType : Option Path
  /-- The declared return type; none for a host unit. -/
  returns : Option Ty
  inConstructor : Bool
  scopes : Scopes
  deriving DecidableEq, Repr

namespace BodyContext

def host : BodyContext := ⟨.top, none, none, false, .ofKind .host⟩

def method (ctx : TypeContext) (thisType : Option Path) (returns : Ty) : BodyContext :=
  ⟨ctx, thisType, some returns, false, .ofKind .method⟩

def isHost (b : BodyContext) : Bool := b.returns.isNone

end BodyContext

/-- A variable that a chunk creates; it is registered when the chunk succeeds. -/
structure PendingVariable where
  name : String
  slot : Nat
  isReadonly : Bool
  deriving DecidableEq, Repr

/-- Resolved names by container and name. -/
abbrev NameCache := List ((String × String) × Entity)

structure BindState where
  image : Image
  undo : UndoLog
  issues : Log Issue
  /-- The variables registered before this attempt. -/
  registry : Registry
  /-- The storage of the session and the slots that this attempt adds. -/
  store : Store
  cache : NameCache
  /-- Directives of this chunk, which its own code sees. -/
  usings : List Using
  newVariables : List PendingVariable
  declared : List Path
  body : BodyContext

def BindState.start (image : Image) (registry : Registry) (store : Store) : BindState :=
  ⟨image, .empty, .empty, registry, store, [], [], [], [], .host⟩

/-- Binding keeps its issues when it gives up. -/
abbrev Bind := Attempt BindState

namespace Bind

def image : Bind Image := Attempt.gets BindState.image

def body : Bind BodyContext := Attempt.gets BindState.body

def hasErrors : Bind Bool := Attempt.gets fun s => s.issues.hasAny

def report (p : Problem) (span : Span) : Bind Unit :=
  Attempt.modify fun s => { s with issues := s.issues.push ⟨p, span⟩ }

def refuse {α : Type} (p : Problem) (span : Span) : Bind α := do
  report p span
  Attempt.fail

def setBody (b : BodyContext) : Bind Unit := Attempt.modify fun s => { s with body := b }

def updateScopes (f : Scopes → Scopes) : Bind Unit :=
  Attempt.modify fun s => { s with body := { s.body with scopes := f s.body.scopes } }

def updateType (path : Path) (f : TypeDef → TypeDef) : Bind Unit :=
  Attempt.modify fun s => { s with image := s.image.updateType path f }

/-- The definition of a type; a path that names none counts as a class without members. -/
def typeDef (path : Path) : Bind TypeDef :=
  Attempt.gets fun s => (s.image.typeDef? path).getD (.bare .classKind false false)

/-- A new slot that holds the default value of its type. -/
def addSlot (name : String) (type : Ty) : Bind Nat := fun s =>
  let (slot, store) := s.store.addSlot name type (s.image.defaultValue type)
  (some slot, { s with store })

end Bind

end Chunkwise
