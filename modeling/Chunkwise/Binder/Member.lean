import Chunkwise.Binder.Names

namespace Chunkwise

/-- How the methods of a group are called. -/
inductive Dispatch where
  | direct
  /-- Through an interface. -/
  | virtual
  /-- Conversion to text, which every value has. -/
  | toText
  deriving DecidableEq, Repr

structure MethodGroup where
  name : String
  /-- The object through which the methods were reached. -/
  receiver : Option BoundExpr
  candidates : List (MethodRef × Method)
  dispatch : Dispatch

inductive Resolved where
  | value (expr : BoundExpr) (type : Ty)
  | place (place : Place) (type : Ty) (isReadonly : Bool)
  | type (path : Path)
  | space (path : Path)
  | methods (group : MethodGroup)

/-- A bound expression with its static type. -/
structure Typed where
  expr : BoundExpr
  type : Ty

/-- An argument, with the place to blame if it does not fit. -/
structure Arg where
  expr : BoundExpr
  type : Ty
  span : Span

namespace Resolved

def ofEntity : Entity → Resolved
  | .type path => .type path
  | .space path => .space path

def ofStatic (f : StaticField) : Resolved := .place (.static f.slot) f.type f.isReadonly

def ofEnum (path : Path) (n : Int64) : Resolved := .value (.const (.enum path n)) (.named path)

def ofBinding : Binding → Resolved
  | .frame slot ty isReadonly => .place (.frame slot) ty isReadonly
  | .variable slot ty isReadonly => .place (.static slot) ty isReadonly

end Resolved

/-- The methods of a type under a name. -/
def TypeDef.candidates (d : TypeDef) (path : Path) (name : String) : List (MethodRef × Method) :=
  (d.methodsNamed name).map fun (i, m) => (.member path i, m)

/-- The helpers of the host under a name. -/
def Builtin.helpersNamed (name : String) : List (MethodRef × Method) :=
  (helpers.zipIdx.filter fun (m, _) => m.name == name).map fun (m, i) => (.helper i, m)

def Path.last (p : Path) : String := (p.getLast?).getD ""

namespace Bind

variable [NameLookup]

/-- What a simple name means as a member of an enclosing type; none if it has no such member. -/
def enclosingMember (outer : Path) (id : Ident) : Bind (Option Resolved) := do
  let d ← typeDef outer
  let b ← body
  match d.field? id.name with
  | some (index, f) =>
    if b.thisType == some outer then
      return some (.place (.field .thisRef index) f.type (f.isReadonly && !b.inConstructor))
    else refuse (.fieldNeedsObject outer.last id.name) id.span
  | none =>
    match d.static? id.name with
    | some f => return some (.ofStatic f)
    | none =>
      match d.enumValue? id.name with
      | some n => return some (.ofEnum outer n)
      | none =>
        let methods := d.candidates outer id.name
        if !methods.isEmpty then
          let receiver := if b.thisType == some outer then some BoundExpr.thisRef else none
          return some (.methods ⟨id.name, receiver, methods, .direct⟩)
        else return ((← image).nestedType? outer id.name).map Resolved.type

/-- The first enclosing type that has a member of this name. -/
def enclosingMembers (id : Ident) : List Path → Bind (Option Resolved)
  | [] => return none
  | outer :: rest => do
    match ← enclosingMember outer id with
    | some r => return some r
    | none => enclosingMembers id rest

/-- A registered variable, visible to top-level statements only. -/
def registered (name : String) : Bind (Option Resolved) := fun s =>
  if s.body.isHost then
    match s.registry.lookup name with
    | some v =>
      match s.store.slots[v.slot]? with
      | some slot => (some (some (.place (.static v.slot) slot.type v.isReadonly)), s)
      | none => (some none, s)
    | none => (some none, s)
  else (some none, s)

def hostHelper (name : String) : Bind (Option Resolved) := do
  let helpers := Builtin.helpersNamed name
  if (← body).isHost && !helpers.isEmpty then
    return some (.methods ⟨name, none, helpers, .direct⟩)
  else return none

/-- What a simple name means in the body that is being bound. -/
def resolveName (id : Ident) : Bind Resolved := do
  let b ← body
  match b.scopes.lookup id.name with
  | some binding => return .ofBinding binding
  | none =>
    match ← registered id.name with
    | some r => return r
    | none =>
      match ← enclosingMembers id b.ctx.types with
      | some r => return r
      | none =>
        match ← hostHelper id.name with
        | some r => return r
        | none =>
          match ← NameLookup.find b.ctx id.name with
          | some e => return .ofEntity e
          | none => refuse (.unknownName id.name) id.span

/-- A member reached through the name of its type. -/
def staticMember (path : Path) (id : Ident) : Bind Resolved := do
  let d ← typeDef path
  match if d.kind = .enumKind then d.enumValue? id.name else none with
  | some n => return .ofEnum path n
  | none =>
    match d.static? id.name with
    | some f => return .ofStatic f
    | none =>
      match (← image).nestedType? path id.name with
      | some nested => return .type nested
      | none =>
        let methods := d.candidates path id.name
        if !methods.isEmpty then return .methods ⟨id.name, none, methods, .direct⟩
        else if (d.field? id.name).isSome then
          refuse (.fieldNeedsObject path.last id.name) id.span
        else refuse (.unknownMember path.text id.name) id.span

/-- A member of an object of a class or struct; none if it has no such member. -/
def objectMember (target : BoundExpr) (path : Path) (d : TypeDef) (id : Ident) :
    Bind (Option Resolved) := do
  match d.field? id.name with
  | some (index, f) =>
    let b ← body
    let isThis := match target with
      | .thisRef => true
      | _ => false
    let writable := b.inConstructor && b.thisType == some path && isThis
    return some (.place (.field target index) f.type (f.isReadonly && !writable))
  | none =>
    let methods := d.candidates path id.name
    let ofObject := methods.filter fun m => !m.2.isStatic
    if !ofObject.isEmpty then
      return some (.methods ⟨id.name, some target, ofObject, .direct⟩)
    else if !methods.isEmpty || (d.static? id.name).isSome then
      refuse (.staticThroughObject path.text id.name) id.span
    else return none

/-- A member that values of a declared type have. -/
def namedMember (target : BoundExpr) (path : Path) (id : Ident) : Bind (Option Resolved) := do
  let d ← typeDef path
  match d.kind with
  | .classKind | .structKind => objectMember target path d id
  | .interfaceKind =>
    let methods := d.candidates path id.name
    if methods.isEmpty then return none
    else return some (.methods ⟨id.name, some target, methods, .virtual⟩)
  | .enumKind => return none

/-- A member reached through a value. -/
def valueMember (target : BoundExpr) (type : Ty) (id : Ident) : Bind Resolved := do
  if id.name = "ToString" ∧ type ≠ .void then
    return .methods ⟨id.name, some target, [], .toText⟩
  else if type = .string ∧ id.name = "Length" then
    return .value (.textLength target) .int
  else
    let found ← match type with
      | .named path => namedMember target path id
      | _ => pure none
    match found with
    | some r => return r
    | none => refuse (.unknownMember type.text id.name) id.span

/-- The member `id` of whatever the target denotes. -/
def memberOf (target : Resolved) (id : Ident) : Bind Resolved := do
  match target with
  | .space path =>
    match (← image).child (.space path) id.name with
    | some e => return .ofEntity e
    | none => refuse (.unknownInNamespace id.name (Path.text path)) id.span
  | .type path => staticMember path id
  | .methods group => refuse (.memberOfMethod group.name id.name) id.span
  | .value e t => valueMember e t id
  | .place p t _ => valueMember (.load p) t id

end Bind

end Chunkwise
