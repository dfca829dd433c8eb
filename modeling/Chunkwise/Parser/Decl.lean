import Chunkwise.Parser.Stmt
import Chunkwise.Syntax.Decl

/-!
Using directives come first, then namespaces and types. Namespaces and types nest without a
limit of their own; the tokens that are left bound the nesting.
-/
namespace Chunkwise.Parser

def usingAlias : Parser (Option Ident) := do
  let named ← Attempt.gets fun c =>
    c.current.kind.isIdent && c.ahead 1 == .symbol .assign
  if named then
    let aliasName ← identifier
    advance
    return some aliasName
  else return none

def usingDirective : Parser UsingDirective := do
  let start ← currentSpan
  expectKeyword .usingKw
  let aliasName ← usingAlias
  let target ← qualifiedName
  expectSymbol .semicolon
  return ⟨aliasName, target, ← spanFrom start⟩

def usingRound (us : List UsingDirective) : Parser (List UsingDirective ⊕ List UsingDirective) := do
  if !(← checkKeyword .usingKw) then return .inr us
  if ← tooManyErrors then return .inr us
  match ← Attempt.optional usingDirective with
  | some u => return .inl (us ++ [u])
  | none =>
    synchronize
    return .inl us

def usingDirectives : Parser (List UsingDirective) := repeatFrom usingRound []

/-- The arguments of an attribute are read and dropped. -/
def attributeRound (qs : List QualifiedName) : Parser (List QualifiedName ⊕ List QualifiedName) := do
  let qs := qs ++ [← qualifiedName]
  if ← checkSymbol .openParen then
    let _ ← arguments expression
  if ← eatSymbol .comma then return .inl qs
  else return .inr qs

/-- Attribute names up to the closing bracket. -/
def attributeGroup (found : List QualifiedName) : Parser (List QualifiedName) := do
  let found ← repeatFrom attributeRound found
  expectSymbol .closeBracket
  return found

def groupRound (qs : List QualifiedName) : Parser (List QualifiedName ⊕ List QualifiedName) := do
  if ← eatSymbol .openBracket then return .inl (← attributeGroup qs)
  else return .inr qs

def attributes : Parser (List QualifiedName) := repeatFrom groupRound []

def modifier? : TokenKind → Option Modifier
  | .keyword .publicKw => some .publicAccess
  | .keyword .privateKw => some .privateAccess
  | .keyword .protectedKw => some .protectedAccess
  | .keyword .internalKw => some .internalAccess
  | .keyword .staticKw => some .staticMember
  | .keyword .abstractKw => some .abstractMember
  | .keyword .sealedKw => some .sealedType
  | .keyword .readonlyKw => some .readonlyField
  | .keyword .constKw => some .constField
  | .keyword .virtualKw => some .virtualMember
  | .keyword .overrideKw => some .overrideMember
  | _ => none

def modifierRound (ms : List Modifier) : Parser (List Modifier ⊕ List Modifier) := do
  match modifier? (← kind) with
  | some m =>
    advance
    return .inl (ms ++ [m])
  | none => return .inr ms

def modifiers : Parser (List Modifier) := repeatFrom modifierRound []

def typeKind? : TokenKind → Option TypeKind
  | .keyword .classKw => some .classKind
  | .keyword .structKw => some .structKind
  | .keyword .interfaceKw => some .interfaceKind
  | .keyword .enumKw => some .enumKind
  | _ => none

/-- The name of a base; an enum may name its underlying integer type. -/
def baseName (kind : TypeKind) : Parser QualifiedName := do
  let k ← Parser.kind
  let span ← currentSpan
  if kind == .enumKind && (k == .keyword .intKw || k == .keyword .longKw) then
    advance
    return ⟨[⟨k.text, span⟩], span⟩
  else qualifiedName

def baseRound (kind : TypeKind) (qs : List QualifiedName) :
    Parser (List QualifiedName ⊕ List QualifiedName) := do
  if ← eatSymbol .comma then return .inl (qs ++ [← baseName kind])
  else return .inr qs

def bases (kind : TypeKind) : Parser (List QualifiedName) := do
  if ← eatSymbol .colon then repeatFrom (baseRound kind) [← baseName kind]
  else return []

/-- What stands between the modifiers of a type and its opening brace. -/
def typeHead (attributes : List QualifiedName) (modifiers : List Modifier) : Parser TypeHead := do
  match typeKind? (← kind) with
  | some k =>
    advance
    let name ← identifier
    return ⟨attributes, modifiers, k, name, ← bases k⟩
  | none => expected "'class', 'struct', 'interface' or 'enum'"

def paramRound (ps : List Param) : Parser (List Param ⊕ List Param) := do
  let type ← typeRef
  let name ← identifier
  let ps := ps ++ [⟨type, name, type.span.merge name.span⟩]
  if ← eatSymbol .comma then return .inl ps
  expectSymbol .closeParen
  return .inr ps

def params : Parser (List Param) := do
  expectSymbol .openParen
  if ← eatSymbol .closeParen then return []
  repeatFrom paramRound []

/-- Whether a name and an opening parenthesis stand here. -/
def looksLikeMethod : Parser Bool := Attempt.gets fun c =>
  c.current.kind.isIdent && c.ahead 1 == .symbol .openParen

def enumMemberRound (ms : List MemberDecl) : Parser (List MemberDecl ⊕ List MemberDecl) := do
  if ← checkSymbol .closeBrace then return .inr ms
  let name ← identifier
  let value ← initializer
  let ms := ms ++ [.enumMember ⟨name, value, ← spanFrom name.span⟩]
  if ← eatSymbol .comma then return .inl ms
  else return .inr ms

def enumMembers : Parser (List MemberDecl) := repeatFrom enumMemberRound []

def constructorDecl (start : Span) (modifiers : List Modifier) : Parser MemberDecl := do
  let name ← identifier
  let ps ← params
  let b ← body
  return .constructor ⟨modifiers, name, ps, b, ← spanFrom start⟩

def methodBody : Parser (Option Block) := do
  if ← eatSymbol .semicolon then return none
  else return some (← body)

def methodDecl (start : Span) (modifiers : List Modifier) (returns : TypeRef) :
    Parser MemberDecl := do
  let name ← identifier
  let ps ← params
  let b ← methodBody
  return .method ⟨modifiers, returns, name, ps, b, ← spanFrom start⟩

def fieldDecl (start : Span) (modifiers : List Modifier) (type : TypeRef) :
    Parser MemberDecl := do
  let names ← declarators
  expectSymbol .semicolon
  return .field ⟨modifiers, type, names, ← spanFrom start⟩

/-- Reads the type whose attributes and modifiers stand before the cursor. -/
abbrev TypeParser := Span → List QualifiedName → List Modifier → Parser TypeDecl

/-- A member of the type called `owner`. -/
def member (nested : TypeParser) (owner : String) : Parser MemberDecl := do
  let start ← currentSpan
  let attrs ← attributes
  let mods ← modifiers
  let k ← kind
  if (typeKind? k).isSome then
    let decl ← nested start attrs mods
    return .nested decl.span decl.head decl.members
  else if k == .ident owner && (← looksLikeMethod) then constructorDecl start mods
  else
    let type ← typeRef
    if ← looksLikeMethod then methodDecl start mods type
    else fieldDecl start mods type

/-- A member cut off by the end of input gives up the whole type; any other bad member is skipped. -/
def memberRound (nested : TypeParser) (owner : String) (ms : List MemberDecl) :
    Parser (List MemberDecl ⊕ List MemberDecl) := do
  if ← checkSymbol .closeBrace then return .inr ms
  if ← atEnd then return .inr ms
  if ← tooManyErrors then return .inr ms
  let before ← currentSpan
  match ← Attempt.optional (member nested owner) with
  | some m => return .inl (ms ++ [m])
  | none =>
    if ← atEnd then Attempt.fail
    else resume before ms

/-- The members up to the closing brace. -/
def memberList (nested : TypeParser) (owner : String) : Parser (List MemberDecl) :=
  repeatFrom (memberRound nested owner) []

def typeAfterModifiers : (limit : Nat) → TypeParser
  | 0, _, _, _ => Attempt.fail
  | limit + 1, start, attrs, mods => do
    let head ← typeHead attrs mods
    expectSymbol .openBrace
    let members ←
      if head.kind = .enumKind then enumMembers
      else memberList (typeAfterModifiers limit) head.name.name
    expectSymbol .closeBrace
    let _ ← eatSymbol .semicolon
    return ⟨head, members, ← spanFrom start⟩

def typeDecl : Parser TypeDecl := do
  let start ← currentSpan
  let attrs ← attributes
  let mods ← modifiers
  let limit ← Attempt.gets Cursor.remaining
  typeAfterModifiers limit start attrs mods

/-- A namespace, given the parser of what stands between its braces. -/
def namespaceWith (inner : Parser (List NamespaceMember)) : Parser NamespaceMember := do
  let start ← currentSpan
  expectKeyword .namespaceKw
  let name ← qualifiedName
  expectSymbol .openBrace
  let members ← inner
  expectSymbol .closeBrace
  return .space (← spanFrom start) name members

def namespaceMember (inner : Parser (List NamespaceMember)) : Parser NamespaceMember := do
  if ← checkKeyword .namespaceKw then namespaceWith inner
  else return .type (← typeDecl)

/-- The members of a namespace: up to the end of input at the top, else up to a closing brace. -/
def namespaceMembers : (limit : Nat) → (topLevel : Bool) → Parser (List NamespaceMember)
  | 0, _ => Attempt.fail
  | limit + 1, topLevel =>
    elements (if topLevel then pure false else checkSymbol .closeBrace)
      (namespaceMember (namespaceMembers limit false))

def declarationUnit : Parser DeclarationUnit := do
  let start ← currentSpan
  let usings ← usingDirectives
  let limit ← Attempt.gets Cursor.remaining
  let members ← namespaceMembers limit true
  return ⟨usings, members, ← spanFrom start⟩

end Chunkwise.Parser
