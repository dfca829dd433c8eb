import Chunkwise.Binder.Names

/-!
The first stage of binding declarations puts every namespace and type of a chunk into the image,
outer ones before inner ones, so that later stages find each of them whatever the order of
declaration.
-/
namespace Chunkwise

/-- A type that this chunk declares, and the context of its declaration. -/
structure DeclaredType where
  head : TypeHead
  members : List MemberDecl
  ctx : TypeContext

namespace DeclaredType

def name (d : DeclaredType) : String := d.head.name.name

def path (d : DeclaredType) : Path := d.ctx.container ++ [d.name]

def inside (d : DeclaredType) : TypeContext := d.ctx.nested d.name

end DeclaredType

namespace Bind

/-- Runs an edit of the image that records its additions. -/
def edit (f : Image → UndoLog → Except DeclareError Unit × Image × UndoLog) :
    Bind (Except DeclareError Unit) := fun s =>
  let (result, image, undo) := f s.image s.undo
  (some result, { s with image, undo })

/-- How a message names a container. -/
def containerText (path : Path) : String :=
  if path.isEmpty then "<global namespace>" else path.text

/-- Declares one type without its members. -/
def declareHead (ctx : TypeContext) (head : TypeHead) : Bind Unit := do
  let parent := ctx.container
  let name := head.name.name
  let d := TypeDef.bare head.kind (head.modifiers.contains .staticMember)
    (head.modifiers.contains .abstractMember)
  match ← edit (fun im undo => im.declareType parent name d undo) with
  | .ok () => Attempt.modify fun s => { s with declared := s.declared ++ [parent ++ [name]] }
  | .error (.duplicate name) =>
    refuse (.duplicateInContainer (containerText parent) name) head.name.span
  | .error _ => refuse (.cannotDeclareType (Path.text (parent ++ [name]))) head.name.span

mutual

/-- Declares a nested type and the types nested in it. A type that cannot be declared is left out
with all that is nested in it. -/
def declareInner (ctx : TypeContext) : MemberDecl → Bind (List DeclaredType)
  | .nested _ head members => do
    match ← Attempt.optional (declareHead ctx head) with
    | some () =>
      let inner ← declareNested (ctx.nested head.name.name) members
      return ⟨head, members, ctx⟩ :: inner
    | none => return []
  | _ => return []

/-- Declares the types nested in a type. -/
def declareNested (ctx : TypeContext) : List MemberDecl → Bind (List DeclaredType)
  | [] => return []
  | m :: rest => do
    let found ← declareInner ctx m
    let more ← declareNested ctx rest
    return found ++ more

end

def declareType (space : Path) (decl : TypeDecl) : Bind (List DeclaredType) := do
  let ctx : TypeContext := ⟨space, []⟩
  match ← Attempt.optional (declareHead ctx decl.head) with
  | some () =>
    let inner ← declareNested (ctx.nested decl.head.name.name) decl.members
    return ⟨decl.head, decl.members, ctx⟩ :: inner
  | none => return []

/-- Makes sure that a namespace exists. -/
def declareSpace (path : Path) (name : QualifiedName) : Bind Unit := do
  match ← edit (fun im undo => im.declareNamespace path undo) with
  | .ok () => return ()
  | .error (.notANamespace segment) => refuse (.namespaceInType segment) name.span
  | .error _ => refuse (.cannotDeclareNamespace name.text) name.span

mutual

/-- Declares a type, or a namespace with its members. -/
def declareMember (space : Path) : NamespaceMember → Bind (List DeclaredType)
  | .space _ name members => do
    let path := space ++ name.segments
    match ← Attempt.optional (declareSpace path name) with
    | some () => declareMembers path members
    | none => return []
  | .type decl => declareType space decl

/-- Declares the members of a namespace in order. -/
def declareMembers (space : Path) : List NamespaceMember → Bind (List DeclaredType)
  | [] => return []
  | m :: rest => do
    let found ← declareMember space m
    let more ← declareMembers space rest
    return found ++ more

end

end Bind

end Chunkwise
