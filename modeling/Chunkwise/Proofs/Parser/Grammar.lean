import Chunkwise.Syntax.Decl
import Chunkwise.Token.Basic
import Mathlib.Computability.Language
import Mathlib.Order.CompletePartialOrder

/-!
The sentences that a tree stands for, as languages over token kinds. A terminal is given by its
spelling, a production is a product of languages, and a choice that a tree does not record is a sum.
Spans do not matter.
-/
namespace Chunkwise.Grammar

/-- An operator or a piece of punctuation. -/
def sign (text : String) : Language TokenKind := {w | ∃ s : Symbol, s.text = text ∧ w = [.symbol s]}

def word (text : String) : Language TokenKind := {w | ∃ k : Keyword, k.text = text ∧ w = [.keyword k]}

def ident (id : Ident) : Language TokenKind := {[.ident id.name]}

def opt (l : Language TokenKind) : Language TokenKind := 1 + l

/-- One or more, with a separator between them. -/
def sepBy (sep : Language TokenKind) : List (Language TokenKind) → Language TokenKind
  | [] => 0
  | [l] => l
  | l :: ls => l * sep * sepBy sep ls

/-- None or more, with commas between them. -/
def commaList (ls : List (Language TokenKind)) : Language TokenKind :=
  if ls.isEmpty then 1 else sepBy (sign ",") ls

/-- `Ident { "." Ident }` -/
def qualified (q : QualifiedName) : Language TokenKind := sepBy (sign ".") (q.parts.map ident)

/-- The two spellings of the floating type are one type. -/
def type (t : TypeRef) : Language TokenKind :=
  match t.type with
  | .named name => qualified name
  | .double => word "double" + word "float"
  | builtin => word builtin.text

def opRank : BinaryOp → Nat
  | .coalesce => 2
  | .or => 3
  | .and => 4
  | .eq | .ne => 5
  | .lt | .le | .gt | .ge => 6
  | .add | .sub => 7
  | .mul | .div | .rem => 8

/-- The production of an expression: assignment has rank 0, a conditional 1, binary operators 2 to 8,
prefix operators 9, postfix ones 10, and what stands alone 11. -/
def rank : Expr → Nat
  | .assign .. => 0
  | .cond .. => 1
  | .binary _ op _ _ => opRank op
  | .unary .. | .step _ _ true _ => 9
  | .member .. | .call .. | .step _ _ false _ => 10
  | _ => 11

/-- An operand must bind at least as tightly as its place asks for. -/
def ranked (r : Nat) (e : Expr) (l : Language TokenKind) : Language TokenKind :=
  if r ≤ rank e then l else 0

mutual

/-- The sentences of an expression by its own production. `??` groups to the right, the other binary
operators to the left. -/
def produced : Expr → Language TokenKind
  | .int _ n => {[.int n]}
  | .double _ x => {[.double x]}
  | .str _ s => {[.str s]}
  | .bool _ b => word (if b then "true" else "false")
  | .null _ => word "null"
  | .thisRef _ => word "this"
  | .name _ id => {[.ident id]}
  | .paren _ e => sign "(" * ranked 0 e (produced e) * sign ")"
  | .new _ t args => word "new" * type t * (sign "(" * commaList (producedAll args) * sign ")")
  | .member _ e name => ranked 10 e (produced e) * sign "." * ident name
  | .call _ e args => ranked 10 e (produced e) * (sign "(" * commaList (producedAll args) * sign ")")
  | .step _ op false e => ranked 10 e (produced e) * sign op.text
  | .step _ op true e => sign op.text * ranked 9 e (produced e)
  | .unary _ op e => sign op.text * ranked 9 e (produced e)
  | .binary _ .coalesce a b => ranked 3 a (produced a) * sign "??" * ranked 2 b (produced b)
  | .binary _ op a b =>
    ranked (opRank op) a (produced a) * sign op.text * ranked (opRank op + 1) b (produced b)
  | .cond _ test yes no => ranked 2 test (produced test) * sign "?" * ranked 0 yes (produced yes) *
      sign ":" * ranked 0 no (produced no)
  | .assign _ op target value =>
    ranked 1 target (produced target) * sign op.text * ranked 0 value (produced value)

def producedAll : List Expr → List (Language TokenKind)
  | [] => []
  | e :: es => ranked 0 e (produced e) :: producedAll es

end

/-- The sentences of an expression at a place of rank `r`. -/
def exprAt (r : Nat) (e : Expr) : Language TokenKind := ranked r e (produced e)

def expr (e : Expr) : Language TokenKind := exprAt 0 e

/-- `"(" [ Expression { "," Expression } ] ")"` -/
def arguments (args : List Expr) : Language TokenKind :=
  sign "(" * commaList (args.map expr) * sign ")"

/-- `[ "=" Expression ]` -/
def initializer : Option Expr → Language TokenKind
  | none => 1
  | some e => sign "=" * expr e

def declarator (d : Declarator) : Language TokenKind := ident d.name * initializer d.init

/-- `[ "const" ] Type Declarator { "," Declarator }` -/
def localDecl (d : LocalDecl) : Language TokenKind :=
  (if d.isConst then word "const" else 1) * type d.type *
    sepBy (sign ",") (d.declarators.map declarator)

/-- `"(" Expression ")"` -/
def condition (e : Expr) : Language TokenKind := sign "(" * expr e * sign ")"

def forInit : ForInit → Language TokenKind
  | .none => 1
  | .declare d => localDecl d
  | .exprs es => sepBy (sign ",") (es.map expr)

def optionalExpr : Option Expr → Language TokenKind
  | none => 1
  | some e => expr e

mutual

def stmt : Stmt → Language TokenKind
  | .empty _ => sign ";"
  | .block _ body => sign "\x7b" * stmts body * sign "\x7d"
  | .declare _ d => localDecl d * sign ";"
  | .expr _ e => expr e * sign ";"
  | .ifElse _ test yes none => word "if" * condition test * stmt yes
  | .ifElse _ test yes (some no) => word "if" * condition test * stmt yes * word "else" * stmt no
  | .whileDo _ test body => word "while" * condition test * stmt body
  | .doWhile _ body test => word "do" * stmt body * word "while" * condition test * sign ";"
  | .forLoop _ init test update body =>
    word "for" * sign "(" * forInit init * sign ";" * optionalExpr test * sign ";" *
      commaList (update.map expr) * sign ")" * stmt body
  | .breakLoop _ => word "break" * sign ";"
  | .continueLoop _ => word "continue" * sign ";"
  | .returnValue _ value => word "return" * optionalExpr value * sign ";"
  | .throwValue _ value => word "throw" * optionalExpr value * sign ";"

def stmts : List Stmt → Language TokenKind
  | [] => 1
  | s :: rest => stmt s * stmts rest

end

def block (b : Block) : Language TokenKind := sign "\x7b" * stmts b.stmts * sign "\x7d"

/-- The statements of a chunk; the last expression may lack its semicolon. -/
def hostStmts : List Stmt → Language TokenKind
  | [] => 1
  | [.expr _ e] => expr e * opt (sign ";")
  | s :: rest => stmt s * hostStmts rest

def statementUnit (u : StatementUnit) : Language TokenKind := hostStmts u.stmts

/-- `[ Ident "=" ]` -/
def usingAlias : Option Ident → Language TokenKind
  | none => 1
  | some id => ident id * sign "="

/-- `"using" [ Ident "=" ] QualifiedName ";"` -/
def usingDirective (u : UsingDirective) : Language TokenKind :=
  word "using" * usingAlias u.aliasName * qualified u.target * sign ";"

/-- An attribute may have arguments, of which the tree has no trace. -/
def attributeName (q : QualifiedName) : Language TokenKind :=
  qualified q * opt {w | ∃ args, w ∈ arguments args}

def attributeNames (qs : List QualifiedName) : Language TokenKind :=
  sepBy (sign ",") (qs.map attributeName)

def attributeGroup (qs : List QualifiedName) : Language TokenKind :=
  sign "[" * attributeNames qs * sign "]"

/-- Attributes in groups; how they are grouped is not recorded. -/
def attributes (qs : List QualifiedName) : Language TokenKind :=
  {w | ∃ groups : List (List QualifiedName), groups.flatten = qs ∧
    w ∈ (groups.map attributeGroup).prod}

def modifiers (ms : List Modifier) : Language TokenKind := (ms.map fun m => word m.text).prod

/-- The integer type that underlies an enum. -/
def underlying (kind : TypeKind) (q : QualifiedName) : Language TokenKind :=
  {w | kind = .enumKind ∧ ∃ text, (text = "int" ∨ text = "long") ∧ q.segments = [text] ∧ w ∈ word text}

def baseName (kind : TypeKind) (q : QualifiedName) : Language TokenKind :=
  qualified q + underlying kind q

/-- `[ ":" Base { "," Base } ]` -/
def bases (kind : TypeKind) (qs : List QualifiedName) : Language TokenKind :=
  if qs.isEmpty then 1 else sign ":" * sepBy (sign ",") (qs.map (baseName kind))

def typeHead (h : TypeHead) : Language TokenKind :=
  attributes h.attributes * modifiers h.modifiers * word h.kind.text * ident h.name *
    bases h.kind h.bases

def param (p : Param) : Language TokenKind := type p.type * ident p.name

/-- `"(" [ Param { "," Param } ] ")"` -/
def params (ps : List Param) : Language TokenKind := sign "(" * commaList (ps.map param) * sign ")"

def enumMember (m : EnumMemberDecl) : Language TokenKind := ident m.name * initializer m.value

def methodBody : Option Block → Language TokenKind
  | none => sign ";"
  | some b => block b

/-- Attributes of a member that is not a type, which the tree does not record. -/
def lostAttributes : Language TokenKind := {w | ∃ qs, w ∈ attributes qs}

def fieldDecl (d : FieldDecl) : Language TokenKind :=
  lostAttributes * modifiers d.modifiers * type d.type *
    sepBy (sign ",") (d.declarators.map declarator) * sign ";"

def methodDecl (d : MethodDecl) : Language TokenKind :=
  lostAttributes * modifiers d.modifiers * type d.returns * ident d.name * params d.params *
    methodBody d.body

/-- A constructor has the name of its type. -/
def constructorDecl (owner : String) (d : ConstructorDecl) : Language TokenKind :=
  if d.name.name = owner then
    lostAttributes * modifiers d.modifiers * ident d.name * params d.params * block d.body
  else 0

/-- `[ EnumMember { "," EnumMember } [ "," ] ]`; an enum has no other members. -/
def enumList : List MemberDecl → Language TokenKind
  | [] => 1
  | [.enumMember m] => enumMember m * opt (sign ",")
  | .enumMember m :: rest => enumMember m * sign "," * enumList rest
  | _ => 0

/-- A type with its members; a semicolon may follow. -/
def typeWith (h : TypeHead) (members : Language TokenKind) : Language TokenKind :=
  typeHead h * sign "\x7b" * members * sign "\x7d" * opt (sign ";")

mutual

/-- A member of the type called `owner`, which is no enum. -/
def member (owner : String) : MemberDecl → Language TokenKind
  | .field d => fieldDecl d
  | .method d => methodDecl d
  | .constructor d => constructorDecl owner d
  | .enumMember _ => 0
  | .nested _ h ms => typeWith h (if h.kind = .enumKind then enumList ms else members h.name.name ms)

def members (owner : String) : List MemberDecl → Language TokenKind
  | [] => 1
  | m :: rest => member owner m * members owner rest

end

def typeDecl (d : TypeDecl) : Language TokenKind :=
  typeWith d.head (if d.head.kind = .enumKind then enumList d.members
    else members d.head.name.name d.members)

mutual

def namespaceMember : NamespaceMember → Language TokenKind
  | .space _ name ms =>
    word "namespace" * qualified name * sign "\x7b" * namespaceMembers ms * sign "\x7d"
  | .type d => typeDecl d

def namespaceMembers : List NamespaceMember → Language TokenKind
  | [] => 1
  | m :: rest => namespaceMember m * namespaceMembers rest

end

/-- `{ UsingDirective } { NamespaceMember }` -/
def declarationUnit (u : DeclarationUnit) : Language TokenKind :=
  (u.usings.map usingDirective).prod * namespaceMembers u.members

end Chunkwise.Grammar
