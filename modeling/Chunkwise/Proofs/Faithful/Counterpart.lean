import Chunkwise.Binder.Bodies
import Chunkwise.Binder.Host
import Mathlib.Data.List.Forall2

/-!
Which bound code is the counterpart of which source code, told by the form of both and without a word
about binding. Each part of the source has its own counterpart in the bound code, in the same place.
Names are free: a name may stand for any location, type or method.
-/
namespace Chunkwise

/-- Names only, which leave nothing to evaluate. -/
inductive Qualifies : Expr → Prop where
  | name {span : Span} {id : String} : Qualifies (.name span id)
  | member {span : Span} {target : Expr} {id : Ident} (h : Qualifies target) :
      Qualifies (.member span target id)
  | paren {span : Span} {inner : Expr} (h : Qualifies inner) : Qualifies (.paren span inner)

/-- Which operations of the machine an operator stands for. -/
inductive Performs : BinaryOp → ValueOp → Prop where
  | arith (op : ArithOp) (kind : NumKind) : Performs op.toBinary (.arith op kind)
  | concat : Performs .add .concat
  | equal : Performs .eq .equal
  | notEqual : Performs .ne .notEqual
  | lt (kind : NumKind) : Performs .lt (.compare .lt kind)
  | le (kind : NumKind) : Performs .le (.compare .le kind)
  | gt (kind : NumKind) : Performs .gt (.compare .gt kind)
  | ge (kind : NumKind) : Performs .ge (.compare .ge kind)

mutual

/-- The expression computes the bound one; any part may be widened. -/
inductive Shows : Expr → BoundExpr → Prop where
  | int {span : Span} (n : Int64) : Shows (.int span n) (.const (.int n))
  | double {span : Span} (x : Float) : Shows (.double span x) (.const (.double x))
  | str {span : Span} (s : String) : Shows (.str span s) (.const (.str s))
  | bool {span : Span} (b : Bool) : Shows (.bool span b) (.const (.bool b))
  | null {span : Span} : Shows (.null span) (.const .null)
  | thisRef {span : Span} : Shows (.thisRef span) .thisRef
  | enumMember {e : Expr} (h : Qualifies e) (path : Path) (n : Int64) : Shows e (.const (.enum path n))
  | load {e : Expr} {p : Place} (h : Locates e p) : Shows e (.load p)
  | paren {span : Span} {e : Expr} {b : BoundExpr} (h : Shows e b) : Shows (.paren span e) b
  | widened {e : Expr} {b : BoundExpr} (h : Shows e b) : Shows e (.widen b)
  | textLength {span : Span} {e : Expr} {b : BoundExpr} {id : Ident} (h : Shows e b) :
      Shows (.member span e id) (.textLength b)
  | toText {span : Span} {callee : Expr} {b : BoundExpr} (h : Owns callee (some b)) :
      Shows (.call span callee []) (.toText b)
  | callStatic {span : Span} {callee : Expr} {args : List Expr} {bs : List BoundExpr}
      (h : Qualifies callee) (hargs : List.Forall₂ Shows args bs) (method : MethodRef) :
      Shows (.call span callee args) (.callStatic method bs)
  | callDirect {span : Span} {callee : Expr} {b : BoundExpr} {args : List Expr} {bs : List BoundExpr}
      (h : Owns callee (some b)) (hargs : List.Forall₂ Shows args bs) (method : MethodRef) :
      Shows (.call span callee args) (.callDirect b method bs)
  | callVirtual {span : Span} {callee : Expr} {b : BoundExpr} {args : List Expr} {bs : List BoundExpr}
      (h : Owns callee (some b)) (hargs : List.Forall₂ Shows args bs) (method : MethodRef) :
      Shows (.call span callee args) (.callVirtual b method bs)
  | new {span : Span} {type : TypeRef} {args : List Expr} {bs : List BoundExpr}
      (hargs : List.Forall₂ Shows args bs) (path : Path) (constructor : Option Nat) :
      Shows (.new span type args) (.new path constructor bs)
  | negated {span span' : Span} (n : Int64) : Shows (.unary span .neg (.int span' n)) (.const (.int (-n)))
  | neg {span : Span} {e : Expr} {b : BoundExpr} (h : Shows e b) (kind : NumKind) :
      Shows (.unary span .neg e) (.neg kind b)
  | plus {span : Span} {e : Expr} {b : BoundExpr} (h : Shows e b) : Shows (.unary span .plus e) b
  | not {span : Span} {e : Expr} {b : BoundExpr} (h : Shows e b) : Shows (.unary span .not e) (.not b)
  | binary {span : Span} {op : BinaryOp} {how : ValueOp} {l r : Expr} {bl br : BoundExpr}
      (hop : Performs op how) (hl : Shows l bl) (hr : Shows r br) :
      Shows (.binary span op l r) (.binary how bl br)
  | both {span : Span} {l r : Expr} {bl br : BoundExpr} (hl : Shows l bl) (hr : Shows r br) :
      Shows (.binary span .and l r) (.both bl br)
  | either {span : Span} {l r : Expr} {bl br : BoundExpr} (hl : Shows l bl) (hr : Shows r br) :
      Shows (.binary span .or l r) (.either bl br)
  | coalesce {span : Span} {l r : Expr} {bl br : BoundExpr} (hl : Shows l bl) (hr : Shows r br) :
      Shows (.binary span .coalesce l r) (.coalesce bl br)
  | assign {span : Span} {target value : Expr} {p : Place} {b : BoundExpr} (hp : Locates target p)
      (h : Shows value b) : Shows (.assign span none target value) (.assign p b)
  | compound {span : Span} {op : ArithOp} {how : ValueOp} {target value : Expr} {p : Place}
      {b : BoundExpr} (hop : Performs op.toBinary how) (hp : Locates target p) (h : Shows value b) :
      Shows (.assign span (some op) target value) (.compound p how b)
  | step {span : Span} {target : Expr} {p : Place} (hp : Locates target p) (op : StepOp)
      (leading : Bool) (kind : NumKind) :
      Shows (.step span op leading target) (.step p op leading kind)
  | cond {span : Span} {test yes no : Expr} {bt by_ bn : BoundExpr} (ht : Shows test bt)
      (hy : Shows yes by_) (hn : Shows no bn) : Shows (.cond span test yes no) (.cond bt by_ bn)

/-- The expression names the location. -/
inductive Locates : Expr → Place → Prop where
  | frame {span : Span} {id : String} (index : Nat) : Locates (.name span id) (.frame index)
  | static {e : Expr} (h : Qualifies e) (slot : Nat) : Locates e (.static slot)
  | own {span : Span} {id : String} (index : Nat) : Locates (.name span id) (.field .thisRef index)
  | field {span : Span} {e : Expr} {b : BoundExpr} {id : Ident} (h : Shows e b) (index : Nat) :
      Locates (.member span e id) (.field b index)
  | paren {span : Span} {e : Expr} {p : Place} (h : Locates e p) : Locates (.paren span e) p

/-- The expression names methods, and these belong to the object, if there is one. -/
inductive Owns : Expr → Option BoundExpr → Prop where
  | names {e : Expr} (h : Qualifies e) : Owns e none
  | own {span : Span} {id : String} : Owns (.name span id) (some .thisRef)
  | member {span : Span} {e : Expr} {b : BoundExpr} {id : Ident} (h : Shows e b) :
      Owns (.member span e id) (some b)
  | paren {span : Span} {e : Expr} {b? : Option BoundExpr} (h : Owns e b?) : Owns (.paren span e) b?

end

def Stmt.isEmpty : Stmt → Bool
  | .empty _ => true
  | _ => false

/-- The statements that are not empty. -/
def Stmt.written (ss : List Stmt) : List Stmt := ss.filter fun s => !s.isEmpty

/-- A local is set to its initial value, or to some constant if it has none. -/
inductive Declarator.Sets (d : Declarator) : BoundStmt → Prop where
  | initial {e : Expr} {b : BoundExpr} (hinit : d.init = some e) (h : Shows e b) (slot : Nat) :
      d.Sets (.expr (.assign (.frame slot) b))
  | default (hinit : d.init = none) (slot : Nat) (v : Value) :
      d.Sets (.expr (.assign (.frame slot) (.const v)))

/-- An expression that is evaluated for its effect. -/
inductive Expr.Runs (e : Expr) : BoundStmt → Prop where
  | run {b : BoundExpr} (h : Shows e b) : e.Runs (.expr b)

inductive ForInit.Begins : ForInit → List BoundStmt → Prop where
  | none : ForInit.none.Begins []
  | declare {decl : LocalDecl} {bs : List BoundStmt}
      (h : List.Forall₂ Declarator.Sets decl.declarators bs) : (ForInit.declare decl).Begins bs
  | exprs {es : List Expr} {bs : List BoundStmt} (h : List.Forall₂ Expr.Runs es bs) :
      (ForInit.exprs es).Begins bs

/-- The bound statement does what the statement says: every statement in it that is not empty, every
declarator and every clause of a loop has its counterpart, once and in the same order. A body that is
empty becomes one that does nothing. -/
inductive Enacts : Stmt → BoundStmt → Prop where
  | block {span : Span} {body : List Stmt} {bs : List BoundStmt}
      (h : List.Forall₂ Enacts (Stmt.written body) bs) : Enacts (.block span body) (.block bs)
  | declare {span : Span} {decl : LocalDecl} {bs : List BoundStmt}
      (h : List.Forall₂ Declarator.Sets decl.declarators bs) : Enacts (.declare span decl) (.block bs)
  | expr {span : Span} {e : Expr} {b : BoundExpr} (h : Shows e b) : Enacts (.expr span e) (.expr b)
  | ifElse {span : Span} {test : Expr} {yes : Stmt} {no : Option Stmt} {c : BoundExpr}
      {by_ bn : Option BoundStmt} (htest : Shows test c)
      (hyes : List.Forall₂ Enacts (Stmt.written [yes]) by_.toList)
      (hno : List.Forall₂ Enacts (Stmt.written no.toList) bn.toList) :
      Enacts (.ifElse span test yes no) (.ifElse c (by_.getD Bind.skip) bn)
  | whileDo {span : Span} {test : Expr} {body : Stmt} {c : BoundExpr} {b : Option BoundStmt}
      (htest : Shows test c) (hbody : List.Forall₂ Enacts (Stmt.written [body]) b.toList) :
      Enacts (.whileDo span test body) (.whileDo c (b.getD Bind.skip))
  | doWhile {span : Span} {body : Stmt} {test : Expr} {b : Option BoundStmt} {c : BoundExpr}
      (hbody : List.Forall₂ Enacts (Stmt.written [body]) b.toList) (htest : Shows test c) :
      Enacts (.doWhile span body test) (.doWhile (b.getD Bind.skip) c)
  | forLoop {span : Span} {init : ForInit} {test : Option Expr} {update : List Expr} {body : Stmt}
      {is : List BoundStmt} {c : Option BoundExpr} {us : List BoundExpr} {b : Option BoundStmt}
      (hinit : init.Begins is) (htest : List.Forall₂ Shows test.toList c.toList)
      (hupdate : List.Forall₂ Shows update us)
      (hbody : List.Forall₂ Enacts (Stmt.written [body]) b.toList) :
      Enacts (.forLoop span init test update body) (.forLoop is c us (b.getD Bind.skip))
  | breakLoop {span : Span} : Enacts (.breakLoop span) .breakLoop
  | continueLoop {span : Span} : Enacts (.continueLoop span) .continueLoop
  | returnValue {span : Span} {value : Option Expr} {b : Option BoundExpr}
      (h : List.Forall₂ Shows value.toList b.toList) : Enacts (.returnValue span value) (.returnValue b)
  | throwValue {span : Span} {e : Expr} {b : BoundExpr} (h : Shows e b) :
      Enacts (.throwValue span (some e)) (.throwValue b)

/-- The declarators with an initial value. -/
def Declarator.initialized (ds : List Declarator) : List Declarator := ds.filter fun d => d.init.isSome

/-- A variable of the session is set to its initial value. -/
def Declarator.SetsVariable (d : Declarator) (b : BoundStmt) : Prop :=
  ∃ e be slot, d.init = some e ∧ Shows e be ∧ b = Bind.setVariable slot be

/-- The code of a statement at the top of a chunk. -/
def Stmt.EnactedAtTop : Stmt → List BoundStmt → Prop
  | .declare _ decl, bs =>
    List.Forall₂ Declarator.SetsVariable (Declarator.initialized decl.declarators) bs
  | .expr _ e, bs => ∃ b, Shows e b ∧ (bs = [.expr b] ∨ bs = [.capture b])
  | s, bs => List.Forall₂ Enacts (Stmt.written [s]) bs

/-- The code is made of the counterparts of the statements, one after the other. -/
def StatementUnit.EnactedBy (u : StatementUnit) (code : Code) : Prop :=
  ∃ parts, List.Forall₂ Stmt.EnactedAtTop u.stmts parts ∧ code.body = parts.flatten

mutual

/-- The types that a member declares, a type before the types nested in it. -/
def MemberDecl.types (ctx : TypeContext) : MemberDecl → List DeclaredType
  | .nested _ head members =>
    ⟨head, members, ctx⟩ :: MemberDecl.nestedTypes (ctx.nested head.name.name) members
  | _ => []

def MemberDecl.nestedTypes (ctx : TypeContext) : List MemberDecl → List DeclaredType
  | [] => []
  | m :: rest => m.types ctx ++ MemberDecl.nestedTypes ctx rest

end

mutual

/-- The types that a member of a namespace declares. -/
def NamespaceMember.types (space : Path) : NamespaceMember → List DeclaredType
  | .space _ name members => NamespaceMember.allTypes (space ++ name.segments) members
  | .type decl => ⟨decl.head, decl.members, ⟨space, []⟩⟩ ::
      MemberDecl.nestedTypes (TypeContext.nested ⟨space, []⟩ decl.head.name.name) decl.members

def NamespaceMember.allTypes (space : Path) : List NamespaceMember → List DeclaredType
  | [] => []
  | m :: rest => m.types space ++ NamespaceMember.allTypes space rest

end

/-- The types that a chunk declares, in order of declaration. -/
def DeclarationUnit.types (u : DeclarationUnit) : List DeclaredType :=
  NamespaceMember.allTypes [] u.members

def MemberDecl.method? : MemberDecl → Option MethodDecl
  | .method m => some m
  | _ => none

def MemberDecl.constructor? : MemberDecl → Option ConstructorDecl
  | .constructor c => some c
  | _ => none

/-- Fields that all objects have in common. -/
def FieldDecl.isShared (f : FieldDecl) : Bool :=
  f.modifiers.contains .staticMember || f.modifiers.contains .constField

/-- The declarators of a member that is a field, shared or not. -/
def MemberDecl.declarators (shared : Bool) : MemberDecl → List Declarator
  | .field f => if f.isShared = shared then f.declarators else []
  | _ => []

/-- The declarators of fields in source order. -/
def MemberDecl.allDeclarators (shared : Bool) (ms : List MemberDecl) : List Declarator :=
  ms.flatMap (MemberDecl.declarators shared)

/-- The body of a method does what the block says. -/
def Block.EnactedBy (b : Block) (body : MethodBody) : Prop :=
  ∃ code, body = .code code ∧ List.Forall₂ Enacts (Stmt.written b.stmts) code.body

/-- The method has the code of its declaration, and none if that has no body. -/
structure MethodDecl.FormedBy (m : MethodDecl) (method : Method) : Prop where
  name : method.name = m.name.name
  body : match m.body with
    | some b => b.EnactedBy method.body
    | none => method.body = .abstractMember

def ConstructorDecl.FormedBy (c : ConstructorDecl) (method : Method) : Prop :=
  c.body.EnactedBy method.body

/-- The initial value of a field of every object. -/
def Declarator.SetsField (t : TypeDef) (v : Declarator) (init : Nat × BoundExpr) : Prop :=
  ∃ e f, v.init = some e ∧ t.field? v.name.name = some (init.1, f) ∧ Shows e init.2

/-- A shared field is set to its initial value. -/
def Declarator.SetsStatic (t : TypeDef) (v : Declarator) (b : BoundStmt) : Prop :=
  ∃ e be f, v.init = some e ∧ t.static? v.name.name = some f ∧ Shows e be ∧
    b = .expr (.assign (.static f.slot) be)

/-- The definition has the code of the declaration: every method, every constructor and every initial
value of a field, in source order. -/
structure DeclaredType.FormedBy (d : DeclaredType) (t : TypeDef) : Prop where
  methods : List.Forall₂ MethodDecl.FormedBy (d.members.filterMap MemberDecl.method?) t.methods
  constructors : List.Forall₂ ConstructorDecl.FormedBy (d.members.filterMap MemberDecl.constructor?)
    t.constructors
  inits : List.Forall₂ (Declarator.SetsField t)
    (Declarator.initialized (MemberDecl.allDeclarators false d.members)) t.inits

/-- The code sets the shared fields of the declared type in source order. -/
def DeclaredType.StaticsSetBy (d : DeclaredType) (t : TypeDef) (code : List BoundStmt) : Prop :=
  List.Forall₂ (Declarator.SetsStatic t)
    (Declarator.initialized (MemberDecl.allDeclarators true d.members)) code

/-- Every type of the chunk is in the image with its code, and the code of the chunk sets the shared
fields of one type after the other in order of declaration. -/
structure DeclarationUnit.FormedBy (u : DeclarationUnit) (im : Image) (code : Code) : Prop where
  distinct : (u.types.map DeclaredType.path).Nodup
  types : ∃ parts, List.Forall₂ (fun d part => ∃ t, im.typeDef? d.path = some t ∧ d.FormedBy t ∧
    d.StaticsSetBy t part) u.types parts ∧ code.body = parts.flatten

end Chunkwise
