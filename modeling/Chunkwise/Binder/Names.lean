import Chunkwise.Binder.State
import Chunkwise.Syntax.Decl

/-!
A simple name is looked for in the enclosing types, then in the enclosing namespaces, then among
the aliases, and at last among the types of the namespaces in use. What was found once is
remembered for the rest of the attempt. All further binding asks `NameLookup` what a simple name
denotes, so that how names are looked up is said in one place.
-/
namespace Chunkwise

/-- A way to look up a simple name in a context. -/
class NameLookup where
  find : TypeContext → String → Bind (Option Entity)

namespace BindState

/-- The directives in force, those of this chunk last. -/
def allUsings (s : BindState) : List Using := s.image.usings ++ s.usings

def lookupAlias? (s : BindState) (name : String) : Option Entity :=
  (s.allUsings.find? fun u => u.aliasName == some name).map Using.target

/-- The type that an open namespace brings into scope. -/
def openType? (s : BindState) (name : String) (u : Using) : Option Entity :=
  match u.aliasName, u.target with
  | none, .space path =>
    match s.image.child (.space path) name with
    | some (.type type) => some (.type type)
    | _ => none
  | _, _ => none

/-- What a simple name denotes in a context, without the cache. -/
def lookupUncached (s : BindState) (ctx : TypeContext) (name : String) : Option Entity :=
  (ctx.types.findSome? fun outer => (s.image.nestedType? outer name).map Entity.type) <|>
  (ctx.spaces.findSome? fun space => s.image.child (.space space) name) <|>
  s.lookupAlias? name <|>
  s.allUsings.findSome? (s.openType? name)

def cacheKey (ctx : TypeContext) (name : String) : String × String :=
  (Path.text ctx.container, name)

end BindState

namespace Bind

/-- What a simple name denotes in a context. -/
def lookupEntity (ctx : TypeContext) (name : String) : Bind (Option Entity) := fun s =>
  match s.cache.lookup (BindState.cacheKey ctx name) with
  | some found => (some (some found), s)
  | none =>
    match s.lookupUncached ctx name with
    | some found =>
      (some (some found), { s with cache := (BindState.cacheKey ctx name, found) :: s.cache })
    | none => (some none, s)

instance cachedLookup : NameLookup := ⟨lookupEntity⟩

variable [NameLookup]

/-- Follows names down from an entity. -/
def descend (im : Image) (e : Entity) : List String → Option Entity
  | [] => some e
  | name :: names =>
    match im.child e name with
    | some e' => descend im e' names
    | none => none

/-- What a dotted name denotes: its first part is looked up, the others are children. -/
def lookupQualified (ctx : TypeContext) (q : QualifiedName) : Bind (Option Entity) := do
  match q.segments with
  | [] => return none
  | first :: rest =>
    match ← NameLookup.find ctx first with
    | some e => return descend (← image) e rest
    | none => return none

/-- The type that a type reference names. -/
def resolveType (ctx : TypeContext) (ref : TypeRef) : Bind Ty := do
  match ref.type with
  | .bool => return .bool
  | .int => return .int
  | .long => return .long
  | .double => return .double
  | .string => return .string
  | .object => return .object
  | .void => return .void
  | .infer => refuse .varOutsideLocal ref.span
  | .named name =>
    match ← lookupQualified ctx name with
    | some (.type path) => return .named path
    | some (.space _) => refuse (.namespaceAsType name.text) ref.span
    | none => refuse (.unknownType name.text) ref.span

/-- The type of a value, which is not void. -/
def resolveValueType (ctx : TypeContext) (ref : TypeRef) : Bind Ty := do
  let t ← resolveType ctx ref
  if t = .void then refuse .voidType ref.span
  else return t

end Bind

end Chunkwise
