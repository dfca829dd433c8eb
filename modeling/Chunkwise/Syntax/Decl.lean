import Chunkwise.Syntax.Stmt

namespace Chunkwise

inductive TypeKind where
  | classKind
  | structKind
  | interfaceKind
  | enumKind
  deriving DecidableEq, Repr

def TypeKind.text : TypeKind → String
  | .classKind => "class"
  | .structKind => "struct"
  | .interfaceKind => "interface"
  | .enumKind => "enum"

/-- Accessibility is read and not enforced. -/
inductive Modifier where
  | publicAccess
  | privateAccess
  | protectedAccess
  | internalAccess
  | staticMember
  | abstractMember
  | sealedType
  | readonlyField
  | constField
  | virtualMember
  | overrideMember
  deriving DecidableEq, Repr

def Modifier.text : Modifier → String
  | .publicAccess => "public"
  | .privateAccess => "private"
  | .protectedAccess => "protected"
  | .internalAccess => "internal"
  | .staticMember => "static"
  | .abstractMember => "abstract"
  | .sealedType => "sealed"
  | .readonlyField => "readonly"
  | .constField => "const"
  | .virtualMember => "virtual"
  | .overrideMember => "override"

structure FieldDecl where
  modifiers : List Modifier
  type : TypeRef
  declarators : List Declarator
  span : Span

structure Param where
  type : TypeRef
  name : Ident
  span : Span
  deriving DecidableEq, Repr

/-- A method without a body is abstract or belongs to an interface. -/
structure MethodDecl where
  modifiers : List Modifier
  returns : TypeRef
  name : Ident
  params : List Param
  body : Option Block
  span : Span

structure ConstructorDecl where
  modifiers : List Modifier
  name : Ident
  params : List Param
  body : Block
  span : Span

structure EnumMemberDecl where
  name : Ident
  value : Option Expr
  span : Span

/-- The part of a type declaration before its members. -/
structure TypeHead where
  attributes : List QualifiedName
  modifiers : List Modifier
  kind : TypeKind
  name : Ident
  bases : List QualifiedName
  deriving DecidableEq, Repr

inductive MemberDecl where
  | field (decl : FieldDecl)
  | method (decl : MethodDecl)
  | constructor (decl : ConstructorDecl)
  | enumMember (decl : EnumMemberDecl)
  | nested (span : Span) (head : TypeHead) (members : List MemberDecl)

structure TypeDecl where
  head : TypeHead
  members : List MemberDecl
  span : Span

inductive NamespaceMember where
  | space (span : Span) (name : QualifiedName) (members : List NamespaceMember)
  | type (decl : TypeDecl)

structure UsingDirective where
  aliasName : Option Ident
  target : QualifiedName
  span : Span
  deriving DecidableEq, Repr

structure DeclarationUnit where
  usings : List UsingDirective
  members : List NamespaceMember
  span : Span

end Chunkwise
