import Chunkwise.Program.Members

/-!
Everything a session has declared: namespaces and types by path in order of declaration, the
using directives in force and the list of committed types. A nested type lies under the path of
the type that contains it.
-/
namespace Chunkwise

inductive Container where
  | space
  | type (decl : TypeDef)

structure Entry where
  path : Path
  container : Container

/-- What a name can denote in the image. -/
inductive Entity where
  | space (path : Path)
  | type (path : Path)
  deriving DecidableEq, Repr

def Entity.path : Entity → Path
  | space path | type path => path

structure Using where
  aliasName : Option String
  target : Entity
  /-- The target as written. -/
  targetName : String
  deriving DecidableEq, Repr

namespace Using

def text (u : Using) : String :=
  match u.aliasName with
  | some aliasName => s!"using {aliasName} = {u.targetName};"
  | none => s!"using {u.targetName};"

def sameDirective (u v : Using) : Bool := u.aliasName == v.aliasName && u.targetName == v.targetName

end Using

structure Image where
  entries : List Entry
  usings : List Using
  declared : List Path

namespace Image

/-- The container at a path below the global namespace. -/
def find? (im : Image) (path : Path) : Option Entry := im.entries.find? fun e => e.path == path

/-- Resolves an absolute path; the empty one is the global namespace. -/
def lookup (im : Image) (path : Path) : Option Entity :=
  if path.isEmpty then some (.space [])
  else match im.find? path with
    | some ⟨_, .space⟩ => some (.space path)
    | some ⟨_, .type _⟩ => some (.type path)
    | none => none

/-- Resolves a name directly inside a container. -/
def child (im : Image) (parent : Entity) (name : String) : Option Entity :=
  im.lookup (parent.path ++ [name])

def typeDef? (im : Image) (path : Path) : Option TypeDef :=
  match im.find? path with
  | some ⟨_, .type d⟩ => some d
  | _ => none

/-- The type nested in another under this name. -/
def nestedType? (im : Image) (outer : Path) (name : String) : Option Path :=
  match im.child (.type outer) name with
  | some (.type path) => some path
  | _ => none

/-- Whether a dotted name denotes something. -/
def contains (im : Image) (dotted : String) : Bool := (im.lookup (.ofText dotted)).isSome

/-- Replaces the definition of the type at `path`. -/
def updateType (im : Image) (path : Path) (f : TypeDef → TypeDef) : Image :=
  { im with entries := im.entries.map fun e =>
      match e.container with
      | .type d => if e.path == path then ⟨e.path, .type (f d)⟩ else e
      | .space => e }

def addUsing (im : Image) (u : Using) : Image :=
  if im.usings.any u.sameDirective then im else { im with usings := im.usings ++ [u] }

/-- Adds what a successful unit declares. A directive already in force is not repeated. -/
def commit (im : Image) (usings : List Using) (types : List Path) : Image :=
  let im := usings.foldl addUsing im
  { im with declared := im.declared ++ types }

def activeUsings (im : Image) : List String := im.usings.map Using.text

def declaredTypes (im : Image) : List String := im.declared.map Path.text

def kind? (im : Image) (path : Path) : Option TypeKind := (im.typeDef? path).map TypeDef.kind

/-- Whether null is a value of the type. -/
def isNullable (im : Image) : Ty → Bool
  | .string | .object | .null => true
  | .named path => im.kind? path != some .enumKind
  | _ => false

/-- Whether a type lists another among its interfaces. -/
def implements (im : Image) (path interface : Path) : Bool :=
  match im.typeDef? path with
  | some d => d.interfaces.contains interface
  | none => false

def isAssignable (im : Image) (source target : Ty) : Bool :=
  source == target ||
  match source, target with
  | .void, _ | _, .void => false
  | .null, t => im.isNullable t
  | .int, .long | .int, .double | .long, .double => true
  | _, .object => true
  | .named a, .named b => im.implements a b
  | _, _ => false

/-- The value of a fresh variable of the type. -/
def defaultValue (im : Image) : Ty → Value
  | .bool => .bool false
  | .int | .long => .int 0
  | .double => .double 0.0
  | .named path => if im.kind? path = some .enumKind then .enum path 0 else .null
  | _ => .null

end Image

end Chunkwise
