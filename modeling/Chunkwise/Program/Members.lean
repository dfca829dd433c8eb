import Chunkwise.Program.Code
import Chunkwise.Syntax.Decl

namespace Chunkwise

/-- The built-in method bodies. -/
inductive Native where
  | writeLine
  | writeBlankLine
  | write
  | absInt | absDouble
  | maxInt | maxDouble
  | minInt | minDouble
  | sqrt
  | pow
  deriving DecidableEq, Repr

inductive MethodBody where
  | missing
  | abstractMember
  | native (body : Native)
  | code (body : Code)

structure Method where
  name : String
  /-- The full name of the declaring type. -/
  owner : String
  params : List (String × Ty)
  returns : Ty
  isStatic : Bool
  body : MethodBody

namespace Method

def paramTypes (m : Method) : List Ty := m.params.map Prod.snd

def isAbstract (m : Method) : Bool :=
  match m.body with
  | .abstractMember => true
  | _ => false

/-- The types of the parameters as a message lists them. -/
def paramText (m : Method) : String := ", ".intercalate (m.paramTypes.map Ty.text)

def signature (m : Method) : String :=
  s!"{m.returns.text} {m.owner}.{m.name}({m.paramText})"

def sameSignature (m n : Method) : Bool := m.name == n.name && m.paramTypes == n.paramTypes

end Method

/-- A field shared by all objects, stored in a slot of the session. -/
structure StaticField where
  name : String
  slot : Nat
  type : Ty
  isReadonly : Bool
  deriving DecidableEq, Repr

structure InstanceField where
  name : String
  type : Ty
  isReadonly : Bool
  deriving DecidableEq, Repr

structure TypeDef where
  kind : TypeKind
  isStatic : Bool
  isAbstract : Bool
  interfaces : List Path
  statics : List StaticField
  fields : List InstanceField
  methods : List Method
  constructors : List Method
  enumMembers : List (String × Int64)
  /-- Initial values of instance fields, by index, in source order. -/
  inits : List (Nat × BoundExpr)

namespace TypeDef

/-- A type without members; an interface is abstract whatever it says. -/
def bare (kind : TypeKind) (isStatic isAbstract : Bool) : TypeDef :=
  ⟨kind, isStatic, isAbstract || kind == .interfaceKind, [], [], [], [], [], [], []⟩

def hasObjects (d : TypeDef) : Bool := d.kind == .classKind || d.kind == .structKind

def static? (d : TypeDef) (name : String) : Option StaticField :=
  d.statics.find? fun f => f.name == name

def field? (d : TypeDef) (name : String) : Option (Nat × InstanceField) :=
  match d.fields.findIdx? fun f => f.name == name with
  | some i => (d.fields[i]?).map fun f => (i, f)
  | none => none

/-- The positions of the methods of a name, in order of declaration. -/
def methodsNamed (d : TypeDef) (name : String) : List (Nat × Method) :=
  (d.methods.zipIdx.filter fun (m, _) => m.name == name).map fun (m, i) => (i, m)

/-- The concrete object method with the signature of an interface member. -/
def implementation? (d : TypeDef) (wanted : Method) : Option Method :=
  d.methods.find? fun m => !m.isStatic && !m.isAbstract && m.sameSignature wanted

def enumValue? (d : TypeDef) (name : String) : Option Int64 := d.enumMembers.lookup name

/-- The first member with this number. -/
def enumName? (d : TypeDef) (n : Int64) : Option String :=
  (d.enumMembers.find? fun m => m.2 == n).map Prod.fst

end TypeDef

end Chunkwise
