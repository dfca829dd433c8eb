import Chunkwise.Binder.Declare

/-!
The second stage resolves using directives and gives the declared types their interfaces, fields,
methods, constructors and enum values. At the end every class and struct is checked against the
interfaces it lists.
-/
namespace Chunkwise

/-- A declared type with the positions of its methods and constructors, which still lack bodies. -/
structure PopulatedType where
  decl : DeclaredType
  methods : List (MethodDecl × Nat)
  constructors : List (ConstructorDecl × Nat)

namespace Bind

variable [NameLookup]

/-- The target of a directive, which is an absolute path. Only an alias may stand for a type. -/
def usingTarget (u : UsingDirective) : Bind Entity := do
  match (← image).lookup u.target.segments with
  | some (.space path) => return .space path
  | some (.type path) =>
    if u.aliasName.isSome then return .type path
    else refuse (.usingOfType u.target.text) u.target.span
  | none => refuse (.unknownUsing u.target.text) u.target.span

/-- Whether an alias stands for another target already. -/
def aliasTaken (aliasName target : String) : Bind Bool := Attempt.gets fun s =>
  s.allUsings.any fun v => v.aliasName == some aliasName && v.targetName != target

def bindUsing (u : UsingDirective) : Bind Unit := do
  let target ← usingTarget u
  let aliasName := u.aliasName.map Ident.name
  match aliasName with
  | some name =>
    if ← aliasTaken name u.target.text then refuse (.usingAliasClash name) u.span
  | none => pure ()
  Attempt.modify fun s => { s with usings := s.usings ++ [⟨aliasName, target, u.target.text⟩] }

def bindUsings (us : List UsingDirective) : Bind Unit := do
  let _ ← Attempt.forAll bindUsing us

/-- The interface that a base names; none for the underlying type of an enum. -/
def resolveBase (d : DeclaredType) (base : QualifiedName) : Bind (Option Path) := do
  let isEnum := d.head.kind == .enumKind
  if isEnum && (base.text == "int" || base.text == "long") then return none
  else
    match ← lookupQualified d.ctx base with
    | some (.type path) =>
      if (← typeDef path).kind = .interfaceKind then
        if isEnum then refuse (.enumWithInterface d.name) base.span
        else return some path
      else refuse (.notAnInterface path.text) base.span
    | _ => refuse (.unknownType base.text) base.span

def populateBases (d : DeclaredType) : Bind Unit := do
  let found ← Attempt.keepSome (resolveBase d) d.head.bases
  updateType d.path fun t => { t with interfaces := found.filterMap id }

/-- Whether a name is in use among the fields, nested types and methods of a type. -/
def memberTaken (path : Path) (name : String) : Bind Bool := do
  let t ← typeDef path
  return (t.field? name).isSome || (t.static? name).isSome ||
    ((← image).nestedType? path name).isSome || !(t.methodsNamed name).isEmpty

def populateDeclarator (d : DeclaredType) (field : FieldDecl) (type : Ty) (v : Declarator) :
    Bind Unit := do
  let isConst := field.modifiers.contains .constField
  let isStatic := isConst || field.modifiers.contains .staticMember
  let isReadonly := isConst || field.modifiers.contains .readonlyField
  let name := v.name.name
  if ← memberTaken d.path name then refuse (.duplicateMember d.name name) v.name.span
  else if isConst && v.init.isNone then refuse .constFieldWithoutValue v.span
  else if isStatic then
    let slot ← addSlot name type
    updateType d.path fun t => { t with statics := t.statics ++ [⟨name, slot, type, isReadonly⟩] }
  else
    updateType d.path fun t => { t with fields := t.fields ++ [⟨name, type, isReadonly⟩] }

def populateField (d : DeclaredType) (field : FieldDecl) : Bind Unit := do
  let t ← typeDef d.path
  let isStatic := field.modifiers.contains .constField || field.modifiers.contains .staticMember
  if t.kind = .interfaceKind then refuse .fieldInInterface field.span
  else if !isStatic && t.isStatic then refuse (.instanceInStatic d.name) field.span
  else
    let type ← resolveValueType d.inside field.type
    let _ ← Attempt.forAll (populateDeclarator d field type) field.declarators

/-- Parameters by name and type. A repeated name and a bad type each spoil the list, which is read
to its end all the same. -/
def resolveParams (ctx : TypeContext) (seen : List (String × Ty)) :
    List Param → Bind (List (String × Ty))
  | [] => return []
  | p :: rest => do
    if seen.any fun q => q.1 == p.name.name then
      report (.duplicateParameter p.name.name) p.name.span
      let _ ← resolveParams ctx seen rest
      Attempt.fail
    else
      match ← Attempt.optional (resolveValueType ctx p.type) with
      | some type =>
        let param := (p.name.name, type)
        let others ← resolveParams ctx (seen ++ [param]) rest
        return param :: others
      | none =>
        let _ ← resolveParams ctx seen rest
        Attempt.fail

/-- The rules on bodies and modifiers of a method. -/
def checkMethod (d : DeclaredType) (t : TypeDef) (m : MethodDecl) : Bind Unit := do
  let name := m.name.name
  let isStatic := m.modifiers.contains .staticMember
  let isAbstract := m.modifiers.contains .abstractMember
  if t.kind = .interfaceKind then
    if m.body.isSome || isStatic then refuse (.interfaceMemberWithBody name) m.name.span
  else if m.body.isNone && !isAbstract then refuse (.missingBody d.name name) m.name.span
  else if isAbstract then
    if m.body.isSome || isStatic then refuse (.abstractWithBody d.name name) m.name.span
    else if !t.isAbstract then refuse (.abstractInConcrete d.name name) m.name.span
  if !isStatic && t.isStatic then refuse (.instanceInStatic d.name) m.name.span

def sameParams (ps qs : List (String × Ty)) : Bool := ps.map Prod.snd == qs.map Prod.snd

/-- Adds a method without a body and returns its position. -/
def populateMethod (d : DeclaredType) (m : MethodDecl) : Bind Nat := do
  let t ← typeDef d.path
  let name := m.name.name
  checkMethod d t m
  let returns ← resolveType d.inside m.returns
  let params ← resolveParams d.inside [] m.params
  let clash := (t.field? name).isSome || (t.static? name).isSome ||
    (t.methodsNamed name).any fun q => sameParams q.2.params params
  if clash then refuse (.duplicateSignature d.name name) m.name.span
  else
    let isAbstract := t.kind == .interfaceKind || m.modifiers.contains .abstractMember
    let method : Method := ⟨name, d.path.text, params, returns, m.modifiers.contains .staticMember,
      if isAbstract then .abstractMember else .missing⟩
    updateType d.path fun t => { t with methods := t.methods ++ [method] }
    return t.methods.length

/-- Adds a constructor without a body and returns its position. -/
def populateConstructor (d : DeclaredType) (c : ConstructorDecl) : Bind Nat := do
  let t ← typeDef d.path
  if t.kind = .interfaceKind then refuse .interfaceWithConstructor c.name.span
  else if c.modifiers.contains .staticMember then refuse .staticConstructor c.name.span
  else if t.isStatic then refuse (.staticWithConstructor d.name) c.name.span
  else
    let params ← resolveParams d.inside [] c.params
    if t.constructors.any fun q => sameParams q.params params then
      refuse (.duplicateConstructor d.name) c.name.span
    else
      let method : Method := ⟨".ctor", d.path.text, params, .void, false, .missing⟩
      updateType d.path fun t => { t with constructors := t.constructors ++ [method] }
      return t.constructors.length

/-- The number that an enum initializer stands for: a literal or an earlier member, perhaps with
signs and parentheses. -/
def enumConstant? (previous : List (String × Int64)) : Expr → Option Int64
  | .int _ n => some n
  | .paren _ e => enumConstant? previous e
  | .unary _ .neg e => (enumConstant? previous e).map fun n => -n
  | .unary _ .plus e => enumConstant? previous e
  | .name _ id => previous.lookup id
  | _ => none

/-- A member without an initializer is one more than the member before it. -/
def enumMember (type : String) (values : List (String × Int64)) (next : Int64)
    (m : EnumMemberDecl) : Bind Int64 := do
  if values.any fun v => v.1 == m.name.name then
    refuse (.duplicateMember type m.name.name) m.name.span
  else
    match m.value with
    | none => return next
    | some e =>
      match enumConstant? values e with
      | some n => return n
      | none => refuse (.enumValueNotConstant m.name.name) e.span

def enumMembers (type : String) (values : List (String × Int64)) (next : Int64) :
    List MemberDecl → Bind (List (String × Int64))
  | [] => return values
  | .enumMember m :: rest => do
    match ← Attempt.optional (enumMember type values next m) with
    | some n => enumMembers type (values ++ [(m.name.name, n)]) (n + 1) rest
    | none => enumMembers type values next rest
  | _ :: rest => enumMembers type values next rest

def populateEnum (d : DeclaredType) : Bind Unit := do
  let values ← enumMembers d.name [] 0 d.members
  updateType d.path fun t => { t with enumMembers := values }

/-- Adds the members of a class, struct or interface in order. -/
def populateMembers (d : DeclaredType) (p : PopulatedType) : List MemberDecl → Bind PopulatedType
  | [] => return p
  | .field f :: rest => do
    let _ ← Attempt.optional (populateField d f)
    populateMembers d p rest
  | .method m :: rest => do
    match ← Attempt.optional (populateMethod d m) with
    | some i => populateMembers d { p with methods := p.methods ++ [(m, i)] } rest
    | none => populateMembers d p rest
  | .constructor c :: rest => do
    match ← Attempt.optional (populateConstructor d c) with
    | some i => populateMembers d { p with constructors := p.constructors ++ [(c, i)] } rest
    | none => populateMembers d p rest
  | _ :: rest => populateMembers d p rest

def populateType (d : DeclaredType) : Bind PopulatedType := do
  populateBases d
  if d.head.kind = .enumKind then
    populateEnum d
    return ⟨d, [], []⟩
  else populateMembers d ⟨d, [], []⟩ d.members

/-- Whether a type has an object method with the signature and result of an interface member. -/
def isImplemented (t : TypeDef) (wanted : Method) : Bool :=
  (t.methodsNamed wanted.name).any fun m =>
    !m.2.isStatic && m.2.returns == wanted.returns && sameParams m.2.params wanted.params

def checkInterface (d : DeclaredType) (interface : Path) : Bind Unit := do
  let required ← typeDef interface
  let t ← typeDef d.path
  let missing := required.methods.filter fun m => !isImplemented t m
  let _ ← Attempt.forAll (fun (m : Method) =>
    report (.notImplemented d.path.text interface.text m.name m.paramText) d.head.name.span) missing

def checkConformance (d : DeclaredType) : Bind Unit := do
  let t ← typeDef d.path
  if t.hasObjects then
    let _ ← Attempt.forAll (checkInterface d) t.interfaces

def populateTypes (ds : List DeclaredType) : Bind (List PopulatedType) := do
  let populated ← Attempt.keepSome populateType ds
  let _ ← Attempt.forAll checkConformance ds
  return populated

end Bind

end Chunkwise
