import Chunkwise.Binder.Member
import Chunkwise.Program.Reach
import Mathlib.Data.List.Forall2

/-!
Code is the same up to the numbers of its slots: one relation tells which frame slots stand for each other,
and another one which static slots. Code that is the same up to a move of its frame slots is moved code:
`lift` moves it, so that it can run behind the locals of other code, and may turn a result into a plain
expression.
-/
namespace Chunkwise

mutual

inductive Place.Same (F S : Nat → Nat → Prop) : Place → Place → Prop where
  | frame {i j : Nat} (h : F i j) : Place.Same F S (.frame i) (.frame j)
  | static {i j : Nat} (h : S i j) : Place.Same F S (.static i) (.static j)
  | field {e e' : BoundExpr} (h : BoundExpr.Same F S e e') (i : Nat) :
      Place.Same F S (.field e i) (.field e' i)

inductive BoundExpr.Same (F S : Nat → Nat → Prop) : BoundExpr → BoundExpr → Prop where
  | const (v : Value) : BoundExpr.Same F S (.const v) (.const v)
  | thisRef : BoundExpr.Same F S .thisRef .thisRef
  | load {p p' : Place} (hp : Place.Same F S p p') : BoundExpr.Same F S (.load p) (.load p')
  | assign {p p' : Place} {e e' : BoundExpr} (hp : Place.Same F S p p') (he : BoundExpr.Same F S e e') :
      BoundExpr.Same F S (.assign p e) (.assign p' e')
  | compound {p p' : Place} {e e' : BoundExpr} (hp : Place.Same F S p p') (op : ValueOp)
      (he : BoundExpr.Same F S e e') : BoundExpr.Same F S (.compound p op e) (.compound p' op e')
  | step {p p' : Place} (hp : Place.Same F S p p') (op : StepOp) (leading : Bool) (kind : NumKind) :
      BoundExpr.Same F S (.step p op leading kind) (.step p' op leading kind)
  | neg {e e' : BoundExpr} (kind : NumKind) (he : BoundExpr.Same F S e e') :
      BoundExpr.Same F S (.neg kind e) (.neg kind e')
  | not {e e' : BoundExpr} (he : BoundExpr.Same F S e e') : BoundExpr.Same F S (.not e) (.not e')
  | binary {l l' r r' : BoundExpr} (op : ValueOp) (hl : BoundExpr.Same F S l l')
      (hr : BoundExpr.Same F S r r') : BoundExpr.Same F S (.binary op l r) (.binary op l' r')
  | both {l l' r r' : BoundExpr} (hl : BoundExpr.Same F S l l') (hr : BoundExpr.Same F S r r') :
      BoundExpr.Same F S (.both l r) (.both l' r')
  | either {l l' r r' : BoundExpr} (hl : BoundExpr.Same F S l l') (hr : BoundExpr.Same F S r r') :
      BoundExpr.Same F S (.either l r) (.either l' r')
  | coalesce {l l' r r' : BoundExpr} (hl : BoundExpr.Same F S l l') (hr : BoundExpr.Same F S r r') :
      BoundExpr.Same F S (.coalesce l r) (.coalesce l' r')
  | cond {c c' l l' r r' : BoundExpr} (hc : BoundExpr.Same F S c c') (hl : BoundExpr.Same F S l l')
      (hr : BoundExpr.Same F S r r') : BoundExpr.Same F S (.cond c l r) (.cond c' l' r')
  | callStatic {es es' : List BoundExpr} (method : MethodRef)
      (hes : List.Forall₂ (BoundExpr.Same F S) es es') :
      BoundExpr.Same F S (.callStatic method es) (.callStatic method es')
  | callDirect {e e' : BoundExpr} {es es' : List BoundExpr} (he : BoundExpr.Same F S e e')
      (method : MethodRef) (hes : List.Forall₂ (BoundExpr.Same F S) es es') :
      BoundExpr.Same F S (.callDirect e method es) (.callDirect e' method es')
  | callVirtual {e e' : BoundExpr} {es es' : List BoundExpr} (he : BoundExpr.Same F S e e')
      (method : MethodRef) (hes : List.Forall₂ (BoundExpr.Same F S) es es') :
      BoundExpr.Same F S (.callVirtual e method es) (.callVirtual e' method es')
  | new {es es' : List BoundExpr} (type : Path) (constructor : Option Nat)
      (hes : List.Forall₂ (BoundExpr.Same F S) es es') :
      BoundExpr.Same F S (.new type constructor es) (.new type constructor es')
  | toText {e e' : BoundExpr} (he : BoundExpr.Same F S e e') :
      BoundExpr.Same F S (.toText e) (.toText e')
  | textLength {e e' : BoundExpr} (he : BoundExpr.Same F S e e') :
      BoundExpr.Same F S (.textLength e) (.textLength e')
  | widen {e e' : BoundExpr} (he : BoundExpr.Same F S e e') :
      BoundExpr.Same F S (.widen e) (.widen e')

end

/-- Statements in a body, of which none records a result. -/
inductive BoundStmt.Same (F S : Nat → Nat → Prop) : BoundStmt → BoundStmt → Prop where
  | expr {e e' : BoundExpr} (he : e.Same F S e') : BoundStmt.Same F S (.expr e) (.expr e')
  | block {ss ss' : List BoundStmt} (hss : List.Forall₂ (BoundStmt.Same F S) ss ss') :
      BoundStmt.Same F S (.block ss) (.block ss')
  | ifThen {c c' : BoundExpr} {s s' : BoundStmt} (hc : c.Same F S c') (hs : BoundStmt.Same F S s s') :
      BoundStmt.Same F S (.ifElse c s none) (.ifElse c' s' none)
  | ifElse {c c' : BoundExpr} {yes yes' no no' : BoundStmt} (hc : c.Same F S c')
      (hyes : BoundStmt.Same F S yes yes') (hno : BoundStmt.Same F S no no') :
      BoundStmt.Same F S (.ifElse c yes (some no)) (.ifElse c' yes' (some no'))
  | whileDo {c c' : BoundExpr} {s s' : BoundStmt} (hc : c.Same F S c') (hs : BoundStmt.Same F S s s') :
      BoundStmt.Same F S (.whileDo c s) (.whileDo c' s')
  | doWhile {s s' : BoundStmt} {c c' : BoundExpr} (hs : BoundStmt.Same F S s s') (hc : c.Same F S c') :
      BoundStmt.Same F S (.doWhile s c) (.doWhile s' c')
  | forLoop {is is' : List BoundStmt} {c? c'? : Option BoundExpr} {us us' : List BoundExpr}
      {s s' : BoundStmt} (his : List.Forall₂ (BoundStmt.Same F S) is is')
      (hc : Option.Rel (BoundExpr.Same F S) c? c'?) (hus : List.Forall₂ (BoundExpr.Same F S) us us')
      (hs : BoundStmt.Same F S s s') : BoundStmt.Same F S (.forLoop is c? us s) (.forLoop is' c'? us' s')
  | breakLoop : BoundStmt.Same F S .breakLoop .breakLoop
  | continueLoop : BoundStmt.Same F S .continueLoop .continueLoop
  | returnNothing : BoundStmt.Same F S (.returnValue none) (.returnValue none)
  | returnValue {e e' : BoundExpr} (he : e.Same F S e') :
      BoundStmt.Same F S (.returnValue (some e)) (.returnValue (some e'))
  | throwValue {e e' : BoundExpr} (he : e.Same F S e') :
      BoundStmt.Same F S (.throwValue e) (.throwValue e')

variable {F S : Nat → Nat → Prop}

theorem BoundExpr.Same.isTrue {e e' : BoundExpr} (h : e.Same F S e') : e.isTrue = e'.isTrue := by
  cases h <;> rfl

namespace BoundStmt.Same

theorem skip : BoundStmt.Same F S (.block []) (.block []) := .block .nil

theorem getD {s? s'? : Option BoundStmt} (h : Option.Rel (BoundStmt.Same F S) s? s'?) :
    (s?.getD (.block [])).Same F S (s'?.getD (.block [])) := by
  cases h with
  | none => exact skip
  | some h => exact h

mutual

theorem jumps (j : Jump) : ∀ {s s' : BoundStmt}, s.Same F S s' → s.jumps j = s'.jumps j
  | .block ss, _, h => by
    cases h with
    | block hss => rw [BoundStmt.jumps, BoundStmt.jumps, anyJumps j hss]
  | .ifElse _ yes none, _, h => by
    cases h with
    | ifThen _ hs => rw [BoundStmt.jumps, BoundStmt.jumps, jumps j hs]
  | .ifElse _ yes (some no), _, h => by
    cases h with
    | ifElse _ hyes hno => rw [BoundStmt.jumps, BoundStmt.jumps, jumps j hyes, jumps j hno]
  | .expr _, _, h | .capture _, _, h | .whileDo _ _, _, h | .doWhile _ _, _, h
  | .forLoop _ _ _ _, _, h | .breakLoop, _, h | .continueLoop, _, h | .returnValue _, _, h
  | .throwValue _, _, h => by cases h <;> rfl

theorem anyJumps (j : Jump) : ∀ {ss ss' : List BoundStmt}, List.Forall₂ (BoundStmt.Same F S) ss ss' →
    BoundStmt.anyJumps j ss = BoundStmt.anyJumps j ss'
  | [], _, h => by cases h; rfl
  | s :: rest, _, h => by
    cases h with
    | cons hs hrest => rw [BoundStmt.anyJumps, BoundStmt.anyJumps, jumps j hs, anyJumps j hrest]

end

mutual

/-- Control can reach the end of both or of neither. -/
theorem completes : ∀ {s s' : BoundStmt}, s.Same F S s' → s.completes = s'.completes
  | .block ss, _, h => by
    cases h with
    | block hss => rw [BoundStmt.completes, BoundStmt.completes, allComplete hss]
  | .ifElse _ yes none, _, h => by cases h; rfl
  | .ifElse _ yes (some no), _, h => by
    cases h with
    | ifElse _ hyes hno =>
      rw [BoundStmt.completes, BoundStmt.completes, completes hyes, completes hno]
  | .whileDo _ body, _, h => by
    cases h with
    | whileDo hc hs => rw [BoundStmt.completes, BoundStmt.completes, hc.isTrue, breaks, breaks, hs.jumps]
  | .doWhile body _, _, h => by
    cases h with
    | doWhile hs hc =>
      rw [BoundStmt.completes, BoundStmt.completes, hc.isTrue, breaks, breaks, continues, continues,
        hs.jumps, hs.jumps, completes hs]
  | .forLoop _ _ _ body, _, h => by
    cases h with
    | forLoop _ hc _ hs =>
      cases hc with
      | none => rw [BoundStmt.completes, BoundStmt.completes, breaks, breaks, hs.jumps]
      | some hc => rw [BoundStmt.completes, BoundStmt.completes, hc.isTrue, breaks, breaks, hs.jumps]
  | .expr _, _, h | .capture _, _, h | .breakLoop, _, h | .continueLoop, _, h | .returnValue _, _, h
  | .throwValue _, _, h => by cases h <;> rfl

theorem allComplete : ∀ {ss ss' : List BoundStmt}, List.Forall₂ (BoundStmt.Same F S) ss ss' →
    BoundStmt.allComplete ss = BoundStmt.allComplete ss'
  | [], _, h => by cases h; rfl
  | s :: rest, _, h => by
    cases h with
    | cons hs hrest =>
      rw [BoundStmt.allComplete, BoundStmt.allComplete, completes hs, allComplete hrest]

end

end BoundStmt.Same

/-- The slot moved up by `k`. -/
def Shifted (k i j : Nat) : Prop := i = k + j

theorem Shifted.eq {k i j : Nat} (h : Shifted k i j) : i = k + j := h

mutual

def Place.lift (k : Nat) : Place → Place
  | .frame i => .frame (k + i)
  | .static slot => .static slot
  | .field target i => .field (target.lift k) i

def BoundExpr.lift (k : Nat) : BoundExpr → BoundExpr
  | .const v => .const v
  | .load p => .load (p.lift k)
  | .thisRef => .thisRef
  | .assign p e => .assign (p.lift k) (e.lift k)
  | .compound p op e => .compound (p.lift k) op (e.lift k)
  | .step p op leading kind => .step (p.lift k) op leading kind
  | .neg kind e => .neg kind (e.lift k)
  | .not e => .not (e.lift k)
  | .binary op l r => .binary op (l.lift k) (r.lift k)
  | .both l r => .both (l.lift k) (r.lift k)
  | .either l r => .either (l.lift k) (r.lift k)
  | .coalesce l r => .coalesce (l.lift k) (r.lift k)
  | .cond c l r => .cond (c.lift k) (l.lift k) (r.lift k)
  | .callStatic ref args => .callStatic ref (BoundExpr.liftAll k args)
  | .callDirect e ref args => .callDirect (e.lift k) ref (BoundExpr.liftAll k args)
  | .callVirtual e ref args => .callVirtual (e.lift k) ref (BoundExpr.liftAll k args)
  | .new type constructor args => .new type constructor (BoundExpr.liftAll k args)
  | .toText e => .toText (e.lift k)
  | .textLength e => .textLength (e.lift k)
  | .widen e => .widen (e.lift k)

def BoundExpr.liftAll (k : Nat) : List BoundExpr → List BoundExpr
  | [] => []
  | e :: es => e.lift k :: BoundExpr.liftAll k es

end

mutual

/-- Unless results are kept, a value is evaluated and not recorded. -/
def BoundStmt.lift (k : Nat) (keeps : Bool) : BoundStmt → BoundStmt
  | .expr e => .expr (e.lift k)
  | .capture e => if keeps then .capture (e.lift k) else .expr (e.lift k)
  | .block body => .block (BoundStmt.liftAll k keeps body)
  | .ifElse c yes none => .ifElse (c.lift k) (yes.lift k keeps) none
  | .ifElse c yes (some no) => .ifElse (c.lift k) (yes.lift k keeps) (some (no.lift k keeps))
  | .whileDo c body => .whileDo (c.lift k) (body.lift k keeps)
  | .doWhile body c => .doWhile (body.lift k keeps) (c.lift k)
  | .forLoop init c update body => .forLoop (BoundStmt.liftAll k keeps init)
      (c.map (BoundExpr.lift k)) (BoundExpr.liftAll k update) (body.lift k keeps)
  | .breakLoop => .breakLoop
  | .continueLoop => .continueLoop
  | .returnValue e => .returnValue (e.map (BoundExpr.lift k))
  | .throwValue e => .throwValue (e.lift k)

def BoundStmt.liftAll (k : Nat) (keeps : Bool) : List BoundStmt → List BoundStmt
  | [] => []
  | s :: rest => s.lift k keeps :: BoundStmt.liftAll k keeps rest

end

theorem BoundStmt.liftAll_eq_map (k : Nat) (keeps : Bool) (ss : List BoundStmt) :
    BoundStmt.liftAll k keeps ss = ss.map (BoundStmt.lift k keeps) := by
  induction ss with
  | nil => rfl
  | cons s ss ih => rw [BoundStmt.liftAll, ih, List.map_cons]

mutual

theorem Place.lift_zero : ∀ p : Place, p.lift 0 = p
  | .frame i => by rw [Place.lift, Nat.zero_add]
  | .static slot => rfl
  | .field target i => by rw [Place.lift, target.lift_zero]

theorem BoundExpr.lift_zero : ∀ e : BoundExpr, e.lift 0 = e
  | .const _ | .thisRef => rfl
  | .load p | .step p _ _ _ => by simp only [BoundExpr.lift, p.lift_zero]
  | .assign p e | .compound p _ e => by simp only [BoundExpr.lift, p.lift_zero, e.lift_zero]
  | .neg _ e | .not e | .toText e | .textLength e | .widen e => by
    simp only [BoundExpr.lift, e.lift_zero]
  | .binary _ l r | .both l r | .either l r | .coalesce l r => by
    simp only [BoundExpr.lift, l.lift_zero, r.lift_zero]
  | .cond c l r => by simp only [BoundExpr.lift, c.lift_zero, l.lift_zero, r.lift_zero]
  | .callStatic _ args | .new _ _ args => by
    simp only [BoundExpr.lift, BoundExpr.liftAll_zero args]
  | .callDirect e _ args | .callVirtual e _ args => by
    simp only [BoundExpr.lift, e.lift_zero, BoundExpr.liftAll_zero args]

theorem BoundExpr.liftAll_zero : ∀ es : List BoundExpr, BoundExpr.liftAll 0 es = es
  | [] => rfl
  | e :: es => by rw [BoundExpr.liftAll, e.lift_zero, BoundExpr.liftAll_zero es]

end

mutual

theorem BoundStmt.lift_zero : ∀ s : BoundStmt, s.lift 0 true = s
  | .expr e | .throwValue e => by rw [BoundStmt.lift, e.lift_zero]
  | .capture e => by rw [BoundStmt.lift, if_pos rfl, e.lift_zero]
  | .returnValue none | .breakLoop | .continueLoop => rfl
  | .returnValue (some e) => by rw [BoundStmt.lift, Option.map_some, e.lift_zero]
  | .block body => by rw [BoundStmt.lift, BoundStmt.liftAll_zero body]
  | .ifElse c yes none => by rw [BoundStmt.lift, c.lift_zero, yes.lift_zero]
  | .ifElse c yes (some no) => by rw [BoundStmt.lift, c.lift_zero, yes.lift_zero, no.lift_zero]
  | .whileDo c body | .doWhile body c => by rw [BoundStmt.lift, c.lift_zero, body.lift_zero]
  | .forLoop init none update body => by
    rw [BoundStmt.lift, BoundStmt.liftAll_zero init, Option.map_none, BoundExpr.liftAll_zero,
      body.lift_zero]
  | .forLoop init (some c) update body => by
    rw [BoundStmt.lift, BoundStmt.liftAll_zero init, Option.map_some, c.lift_zero,
      BoundExpr.liftAll_zero, body.lift_zero]

theorem BoundStmt.liftAll_zero : ∀ ss : List BoundStmt, BoundStmt.liftAll 0 true ss = ss
  | [] => rfl
  | s :: rest => by rw [BoundStmt.liftAll, s.lift_zero, BoundStmt.liftAll_zero rest]

end

section Same

variable {k : Nat}

mutual

theorem Place.Same.eq_lift : ∀ {p p' : Place}, p.Same (Shifted k) Eq p' → p = p'.lift k
  | .frame i, _, h => by
    cases h with
    | frame h => rw [Place.lift, h.eq]
  | .static i, _, h => by
    cases h with
    | static h => rw [Place.lift, h]
  | .field e i, _, h => by
    cases h with
    | field h => rw [Place.lift, h.eq_lift]

theorem BoundExpr.Same.eq_lift : ∀ {e e' : BoundExpr}, e.Same (Shifted k) Eq e' → e = e'.lift k
  | .const _, _, h | .thisRef, _, h => by cases h; rfl
  | .load p, _, h => by
    cases h with
    | load hp => rw [BoundExpr.lift, hp.eq_lift]
  | .step p _ _ _, _, h => by
    cases h with
    | step hp => rw [BoundExpr.lift, hp.eq_lift]
  | .assign p e, _, h => by
    cases h with
    | assign hp he => rw [BoundExpr.lift, hp.eq_lift, he.eq_lift]
  | .compound p _ e, _, h => by
    cases h with
    | compound hp _ he => rw [BoundExpr.lift, hp.eq_lift, he.eq_lift]
  | .neg _ e, _, h | .not e, _, h | .toText e, _, h | .textLength e, _, h | .widen e, _, h => by
    cases h with
    | _ => rw [BoundExpr.lift, BoundExpr.Same.eq_lift ‹e.Same (Shifted k) Eq _›]
  | .binary _ l r, _, h | .both l r, _, h | .either l r, _, h | .coalesce l r, _, h => by
    cases h with
    | _ => rw [BoundExpr.lift, BoundExpr.Same.eq_lift ‹l.Same (Shifted k) Eq _›,
        BoundExpr.Same.eq_lift ‹r.Same (Shifted k) Eq _›]
  | .cond c l r, _, h => by
    cases h with
    | cond hc hl hr => rw [BoundExpr.lift, hc.eq_lift, hl.eq_lift, hr.eq_lift]
  | .callStatic _ es, _, h => by
    cases h with
    | callStatic _ hes => rw [BoundExpr.lift, BoundExpr.Same.eq_liftAll hes]
  | .callDirect e _ es, _, h => by
    cases h with
    | callDirect he _ hes => rw [BoundExpr.lift, he.eq_lift, BoundExpr.Same.eq_liftAll hes]
  | .callVirtual e _ es, _, h => by
    cases h with
    | callVirtual he _ hes => rw [BoundExpr.lift, he.eq_lift, BoundExpr.Same.eq_liftAll hes]
  | .new _ _ es, _, h => by
    cases h with
    | new _ _ hes => rw [BoundExpr.lift, BoundExpr.Same.eq_liftAll hes]

theorem BoundExpr.Same.eq_liftAll : ∀ {es es' : List BoundExpr},
    List.Forall₂ (BoundExpr.Same (Shifted k) Eq) es es' → es = BoundExpr.liftAll k es'
  | [], _, h => by cases h; rfl
  | e :: es, _, h => by
    cases h with
    | cons he hes => rw [BoundExpr.liftAll, he.eq_lift, BoundExpr.Same.eq_liftAll hes]

end

mutual

theorem BoundStmt.Same.eq_lift (keeps : Bool) : ∀ {s s' : BoundStmt}, s.Same (Shifted k) Eq s' →
    s = s'.lift k keeps
  | .expr e, _, h => by
    cases h with
    | expr he => rw [BoundStmt.lift, he.eq_lift]
  | .capture e, _, h => by cases h
  | .throwValue e, _, h => by
    cases h with
    | throwValue he => rw [BoundStmt.lift, he.eq_lift]
  | .returnValue none, _, h | .breakLoop, _, h | .continueLoop, _, h => by cases h; rfl
  | .returnValue (some e), _, h => by
    cases h with
    | returnValue he => rw [BoundStmt.lift, Option.map_some, he.eq_lift]
  | .block body, _, h => by
    cases h with
    | block hss => rw [BoundStmt.lift, BoundStmt.Same.eq_liftAll keeps hss]
  | .ifElse c yes none, _, h => by
    cases h with
    | ifThen hc hs => rw [BoundStmt.lift, hc.eq_lift, hs.eq_lift keeps]
  | .ifElse c yes (some no), _, h => by
    cases h with
    | ifElse hc hyes hno =>
      rw [BoundStmt.lift, hc.eq_lift, hyes.eq_lift keeps, hno.eq_lift keeps]
  | .whileDo c body, _, h => by
    cases h with
    | whileDo hc hs => rw [BoundStmt.lift, hc.eq_lift, hs.eq_lift keeps]
  | .doWhile body c, _, h => by
    cases h with
    | doWhile hs hc => rw [BoundStmt.lift, hc.eq_lift, hs.eq_lift keeps]
  | .forLoop init c update body, _, h => by
    cases h with
    | forLoop his hc hus hs =>
      rw [BoundStmt.lift, BoundStmt.Same.eq_liftAll keeps his,
        BoundExpr.Same.eq_liftAll hus, hs.eq_lift keeps]
      cases hc with
      | none => rfl
      | some hc => rw [Option.map_some, hc.eq_lift]

theorem BoundStmt.Same.eq_liftAll (keeps : Bool) : ∀ {ss ss' : List BoundStmt},
    List.Forall₂ (BoundStmt.Same (Shifted k) Eq) ss ss' → ss = BoundStmt.liftAll k keeps ss'
  | [], _, h => by cases h; rfl
  | s :: rest, _, h => by
    cases h with
    | cons hs hrest => rw [BoundStmt.liftAll, hs.eq_lift keeps, BoundStmt.Same.eq_liftAll keeps hrest]

end

theorem BoundExpr.Same.eq {e e' : BoundExpr} (h : e.Same (Shifted 0) Eq e') : e = e' :=
  h.eq_lift.trans e'.lift_zero

theorem BoundStmt.Same.eq {s s' : BoundStmt} (h : s.Same (Shifted 0) Eq s') : s = s' :=
  (h.eq_lift true).trans s'.lift_zero

theorem BoundStmt.Same.all_eq {ss ss' : List BoundStmt}
    (h : List.Forall₂ (BoundStmt.Same (Shifted 0) Eq) ss ss') : ss = ss' :=
  (BoundStmt.Same.eq_liftAll true h).trans (BoundStmt.liftAll_zero ss')

end Same

end Chunkwise
