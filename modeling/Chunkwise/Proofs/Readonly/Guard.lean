import Chunkwise.Proofs.Faithful.Counterpart
import Chunkwise.Proofs.Binder.Expr

/-!
A guard tells which locations code may write: no constant local, no slot that is closed, and a
read-only field of an object only through `this` in a constructor of its type. `Permits` reads bound
code beside its source: the code of a declarator sets the local or the variable that it declares,
constant or not, and all other code writes nothing but what the guard allows.
-/
namespace Chunkwise

structure Guard where
  image : Image
  /-- The static slots and their types. -/
  slots : Nat → Ty → Prop
  /-- The static slots that may be written. -/
  opens : Nat → Prop

/-- Where code stands. -/
structure Site where
  /-- The type of `this`. -/
  self : Option Path
  inConstructor : Bool
  /-- The locals declared so far by frame slot: their types, and whether they are constants. -/
  frame : List (Ty × Bool)

namespace Site

def locals (w : Site) : Locals := fun i => (w.frame[i]?).map Prod.fst

/-- The site after the declaration of a local. -/
def push (w : Site) (t : Ty) (isConst : Bool) : Site := { w with frame := w.frame ++ [(t, isConst)] }

/-- The top of a chunk and the initial values of static fields. -/
def top : Site := ⟨none, false, []⟩

/-- The parameters of a method may be assigned. -/
def ofMethod (self : Option Path) (inConstructor : Bool) (m : Method) : Site :=
  ⟨self, inConstructor, m.paramTypes.map fun t => (t, false)⟩

theorem locals_push (w : Site) (t : Ty) (isConst : Bool) :
    (w.push t isConst).locals = w.locals.set w.frame.length t := by
  funext i
  simp only [locals, push, Locals.set]
  rcases Nat.lt_trichotomy i w.frame.length with h | rfl | h
  · rw [List.getElem?_append_left h, if_neg (Nat.ne_of_lt h)]
  · simp
  · rw [if_neg (Nat.ne_of_gt h), List.getElem?_eq_none (by simp; omega),
      List.getElem?_eq_none (by omega)]

end Site

namespace Guard

def typing (g : Guard) (w : Site) : TypingContext := ⟨g.image, g.slots, w.locals, w.self⟩

/-- The locations that code at a site may write. The field of an object is one of the object's type,
which is the type of `this` if the object is `this`. -/
def Allows (g : Guard) (w : Site) : Place → Prop
  | .frame i => ∃ t, w.frame[i]? = some (t, false)
  | .static i => g.opens i
  | .field target i => ∃ p d f, target.HasType (g.typing w) (.named p) ∧
      g.image.typeDef? p = some d ∧ d.fields[i]? = some f ∧
      (f.isReadonly = true → target = .thisRef ∧ w.inConstructor = true)

def Safe (g : Guard) (w : Site) (e : BoundExpr) : Prop := e.WritesOnly (g.Allows w)

/-- The code of a declarator gives the next frame slot its first value. -/
inductive Declares (g : Guard) (isConst : Bool) : Site → Declarator → BoundStmt → Site → Prop where
  | intro {w : Site} {d : Declarator} {e : BoundExpr} {t : Ty}
      (sets : d.Sets (.expr (.assign (.frame w.frame.length) e))) (fits : e.Fits (g.typing w) t)
      (safe : g.Safe w e) :
      Declares g isConst w d (.expr (.assign (.frame w.frame.length) e)) (w.push t isConst)

end Guard

/-- Two lists correspond element by element, each from the site where the one before ends. -/
inductive Threads {α β : Type} (R : Site → α → β → Site → Prop) :
    Site → List α → List β → Site → Prop where
  | nil {w : Site} : Threads R w [] [] w
  | cons {w w₁ w₂ : Site} {a : α} {b : β} {as : List α} {bs : List β} (first : R w a b w₁)
      (rest : Threads R w₁ as bs w₂) : Threads R w (a :: as) (b :: bs) w₂

namespace Guard

/-- The first clause of a loop. -/
inductive PermitsInit (g : Guard) : Site → ForInit → List BoundStmt → Site → Prop where
  | none {w : Site} : PermitsInit g w .none [] w
  | declare {w w' : Site} {decl : LocalDecl} {bs : List BoundStmt}
      (h : Threads (g.Declares decl.isConst) w decl.declarators bs w') :
      PermitsInit g w (.declare decl) bs w'
  | exprs {w : Site} {es : List Expr} {bs : List BoundStmt}
      (h : List.Forall₂ (fun _ b => ∃ e, b = .expr e ∧ g.Safe w e) es bs) :
      PermitsInit g w (.exprs es) bs w

/-- From the locals declared before a statement to those declared after it. Locals of blocks that have
been left keep their slots. -/
inductive Permits (g : Guard) : Site → Stmt → BoundStmt → Site → Prop where
  | block {w w' : Site} {span : Span} {body : List Stmt} {bs : List BoundStmt}
      (h : Threads (Permits g) w (Stmt.written body) bs w') :
      Permits g w (.block span body) (.block bs) w'
  | declare {w w' : Site} {span : Span} {decl : LocalDecl} {bs : List BoundStmt}
      (h : Threads (g.Declares decl.isConst) w decl.declarators bs w') :
      Permits g w (.declare span decl) (.block bs) w'
  | expr {w : Site} {span : Span} {e : Expr} {b : BoundExpr} (h : g.Safe w b) :
      Permits g w (.expr span e) (.expr b) w
  | ifElse {w w₁ w₂ : Site} {span : Span} {test : Expr} {yes : Stmt} {no : Option Stmt}
      {c : BoundExpr} {by_ bn : Option BoundStmt} (htest : g.Safe w c)
      (hyes : Threads (Permits g) w (Stmt.written [yes]) by_.toList w₁)
      (hno : Threads (Permits g) w₁ (Stmt.written no.toList) bn.toList w₂) :
      Permits g w (.ifElse span test yes no) (.ifElse c (by_.getD Bind.skip) bn) w₂
  | whileDo {w w' : Site} {span : Span} {test : Expr} {body : Stmt} {c : BoundExpr}
      {b : Option BoundStmt} (htest : g.Safe w c)
      (hbody : Threads (Permits g) w (Stmt.written [body]) b.toList w') :
      Permits g w (.whileDo span test body) (.whileDo c (b.getD Bind.skip)) w'
  | doWhile {w w' : Site} {span : Span} {body : Stmt} {test : Expr} {b : Option BoundStmt}
      {c : BoundExpr} (hbody : Threads (Permits g) w (Stmt.written [body]) b.toList w')
      (htest : g.Safe w' c) :
      Permits g w (.doWhile span body test) (.doWhile (b.getD Bind.skip) c) w'
  | forLoop {w w₁ w₂ : Site} {span : Span} {init : ForInit} {test : Option Expr}
      {update : List Expr} {body : Stmt} {is : List BoundStmt} {c : Option BoundExpr}
      {us : List BoundExpr} {b : Option BoundStmt} (hinit : g.PermitsInit w init is w₁)
      (htest : ∀ e, c = some e → g.Safe w₁ e) (hupdate : ∀ e ∈ us, g.Safe w₁ e)
      (hbody : Threads (Permits g) w₁ (Stmt.written [body]) b.toList w₂) :
      Permits g w (.forLoop span init test update body) (.forLoop is c us (b.getD Bind.skip)) w₂
  | breakLoop {w : Site} {span : Span} : Permits g w (.breakLoop span) .breakLoop w
  | continueLoop {w : Site} {span : Span} : Permits g w (.continueLoop span) .continueLoop w
  | returnValue {w : Site} {span : Span} {value : Option Expr} {b : Option BoundExpr}
      (h : ∀ e, b = some e → g.Safe w e) :
      Permits g w (.returnValue span value) (.returnValue b) w
  | throwValue {w : Site} {span : Span} {e : Expr} {b : BoundExpr} (h : g.Safe w b) :
      Permits g w (.throwValue span (some e)) (.throwValue b) w

/-- The code of the declarators of variables: each sets its own variable if it has an initial value. -/
inductive DeclaresVariables (g : Guard) (w : Site) (isConst : Bool) :
    List Declarator → List PendingVariable → List BoundStmt → Prop where
  | nil : DeclaresVariables g w isConst [] [] []
  | unset {d : Declarator} {slot : Nat} {ds : List Declarator} {vs : List PendingVariable}
      {bs : List BoundStmt} (hinit : d.init = none) (rest : DeclaresVariables g w isConst ds vs bs) :
      DeclaresVariables g w isConst (d :: ds) (⟨d.name.name, slot, isConst⟩ :: vs) bs
  | set {d : Declarator} {slot : Nat} {e : BoundExpr} {ds : List Declarator}
      {vs : List PendingVariable} {bs : List BoundStmt}
      (hsets : d.SetsVariable (Bind.setVariable slot e)) (safe : g.Safe w e)
      (rest : DeclaresVariables g w isConst ds vs bs) :
      DeclaresVariables g w isConst (d :: ds) (⟨d.name.name, slot, isConst⟩ :: vs)
        (Bind.setVariable slot e :: bs)

/-- A top-level statement with the variables that it declares. An assignment that declares its variable
declares one that may be assigned. -/
inductive PermitsAtTop (g : Guard) :
    Site → Stmt → List PendingVariable → List BoundStmt → Site → Prop where
  | declare {w : Site} {span : Span} {decl : LocalDecl} {vs : List PendingVariable}
      {bs : List BoundStmt} (h : g.DeclaresVariables w decl.isConst decl.declarators vs bs) :
      PermitsAtTop g w (.declare span decl) vs bs w
  | expr {w : Site} {span : Span} {e : Expr} {vs : List PendingVariable} {b : BoundExpr}
      {c : BoundStmt} (hcode : c = .expr b ∨ c = .capture b) (h : g.Safe w b)
      (hvs : ∀ v ∈ vs, v.isReadonly = false) : PermitsAtTop g w (.expr span e) vs [c] w
  | other {w w' : Site} {s : Stmt} {bs : List BoundStmt} (hdeclare : ∀ span decl, s ≠ .declare span decl)
      (hexpr : ∀ span e, s ≠ .expr span e) (h : Threads g.Permits w (Stmt.written [s]) bs w') :
      PermitsAtTop g w s [] bs w'

/-- The statements of a chunk one after the other. -/
inductive PermitsAllAtTop (g : Guard) :
    Site → List Stmt → List PendingVariable → List BoundStmt → Site → Prop where
  | nil {w : Site} : PermitsAllAtTop g w [] [] [] w
  | cons {w w₁ w₂ : Site} {s : Stmt} {rest : List Stmt} {vs ws : List PendingVariable}
      {bs cs : List BoundStmt} (first : g.PermitsAtTop w s vs bs w₁)
      (others : PermitsAllAtTop g w₁ rest ws cs w₂) :
      PermitsAllAtTop g w (s :: rest) (vs ++ ws) (bs ++ cs) w₂

def PermitsBody (g : Guard) (w : Site) (b : Block) (code : Code) : Prop :=
  ∃ w', Threads g.Permits w (Stmt.written b.stmts) code.body w'

/-- All code of a type: the initial values of the fields of its objects and the bodies of its methods
and constructors, each beside its own declaration. -/
structure PermitsType (g : Guard) (d : DeclaredType) (t : TypeDef) : Prop where
  inits : ∀ x ∈ t.inits, g.Safe ⟨some d.path, false, []⟩ x.2
  methods : ∀ (i : Nat) (m : Method) (code : Code), t.methods[i]? = some m → m.body = .code code →
    ∃ (decl : MethodDecl) (block : Block),
      (d.members.filterMap MemberDecl.method?)[i]? = some decl ∧ decl.body = some block ∧
      g.PermitsBody (.ofMethod (m.self d.path) false m) block code
  constructors : ∀ (i : Nat) (m : Method) (code : Code), t.constructors[i]? = some m →
    m.body = .code code → ∃ decl : ConstructorDecl,
      (d.members.filterMap MemberDecl.constructor?)[i]? = some decl ∧
      g.PermitsBody (.ofMethod (some d.path) true m) decl.body code

/-- The code of a chunk of declarations sets shared fields, each to the initial value of its own
declarator. -/
def PermitsStatics (g : Guard) (u : DeclarationUnit) (code : Code) : Prop :=
  (∃ parts, List.Forall₂ (fun d part => ∃ t, g.image.typeDef? d.path = some t ∧
    d.StaticsSetBy t part) u.types parts ∧ code.body = parts.flatten) ∧
  ∀ p e, .expr (.assign p e) ∈ code.body → g.Safe .top e

end Guard

end Chunkwise
