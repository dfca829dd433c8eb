import Chunkwise.Machine.Run
import Chunkwise.Proofs.Machine.Store

/-!
A property of computations that steps, sequences, frames, polls and loops have as soon as their parts
have it holds of all code whose calls have it. The property may relate several computations, one for
each environment of a family, and it may be restricted to code that has no loops or that calls
certain methods only. The induction over code is made here once for all such properties.
-/
namespace Chunkwise

/-- What code can ask for: a method, a member of an interface or a fresh object. -/
inductive Callee where
  | method (ref : MethodRef)
  | member (ref : MethodRef)
  | object (type : Path) (constructor : Option Nat)
  deriving DecidableEq, Repr

mutual

def Place.callees : Place → List Callee
  | .frame _ | .static _ => []
  | .field target _ => target.callees

/-- What an expression calls by itself, in every branch. -/
def BoundExpr.callees : BoundExpr → List Callee
  | .const _ | .thisRef => []
  | .load p | .step p _ _ _ => p.callees
  | .assign p e | .compound p _ e => p.callees ++ e.callees
  | .neg _ e | .not e | .toText e | .textLength e | .widen e => e.callees
  | .binary _ l r | .both l r | .either l r | .coalesce l r => l.callees ++ r.callees
  | .cond test yes no => test.callees ++ yes.callees ++ no.callees
  | .callStatic ref args => .method ref :: BoundExpr.calleesOfAll args
  | .callDirect target ref args => .method ref :: (target.callees ++ BoundExpr.calleesOfAll args)
  | .callVirtual target ref args => .member ref :: (target.callees ++ BoundExpr.calleesOfAll args)
  | .new type constructor args => .object type constructor :: BoundExpr.calleesOfAll args

def BoundExpr.calleesOfAll : List BoundExpr → List Callee
  | [] => []
  | e :: es => e.callees ++ BoundExpr.calleesOfAll es

end

namespace BoundStmt

mutual

def callees : BoundStmt → List Callee
  | expr e | capture e | throwValue e | returnValue (some e) => e.callees
  | block body => calleesOfAll body
  | ifElse test yes none => test.callees ++ yes.callees
  | ifElse test yes (some no) => test.callees ++ yes.callees ++ no.callees
  | whileDo test body | doWhile body test => test.callees ++ body.callees
  | forLoop init test update body =>
    calleesOfAll init ++ (test.elim [] BoundExpr.callees) ++ BoundExpr.calleesOfAll update ++
      body.callees
  | breakLoop | continueLoop | returnValue none => []

def calleesOfAll : List BoundStmt → List Callee
  | [] => []
  | s :: rest => s.callees ++ calleesOfAll rest

end

mutual

def hasLoop : BoundStmt → Bool
  | whileDo _ _ | doWhile _ _ | forLoop _ _ _ _ => true
  | block body => anyHasLoop body
  | ifElse _ yes none => yes.hasLoop
  | ifElse _ yes (some no) => yes.hasLoop || no.hasLoop
  | _ => false

def anyHasLoop : List BoundStmt → Bool
  | [] => false
  | s :: rest => s.hasLoop || anyHasLoop rest

end

end BoundStmt

namespace Machine

/-- The methods that may run first when something is called; a fresh object runs its constructor. -/
def Runs (im : Image) : Callee → Method → Prop
  | .method ref, m => method? im ref = some m
  | .member ref, m => ∃ wanted type d, method? im ref = some wanted ∧ im.typeDef? type = some d ∧
      d.implementation? wanted = some m
  | .object type constructor, m => ∃ d, im.typeDef? type = some d ∧
      (constructor.bind fun i => d.constructors[i]?) = some m

end Machine

/-- Code that calls no more than `A` and has loops only where they are allowed. -/
def Code.Stays (A : Callee → Prop) (loops : Prop) (code : Code) : Prop :=
  (∀ c ∈ BoundStmt.calleesOfAll code.body, A c) ∧ (BoundStmt.anyHasLoop code.body = true → loops)

/-- What stands behind `A` stays within `A` as well. -/
structure Image.Stays (im : Image) (A : Callee → Prop) (loops : Prop) : Prop where
  method : ∀ {c m code}, A c → Machine.Runs im c m → m.body = .code code → code.Stays A loops
  inits : ∀ {type constructor d}, A (.object type constructor) → im.typeDef? type = some d →
    ∀ x ∈ d.inits, ∀ c ∈ x.2.callees, A c

theorem Image.stays_all (im : Image) : im.Stays (fun _ => True) True :=
  ⟨fun _ _ _ => ⟨fun _ _ => trivial, fun _ => trivial⟩, fun _ _ _ _ _ _ => trivial⟩

namespace Run

variable {α β : Type} {p : Run α} {f : α → Run β} {s s' : RunState}

theorem bind_ok {a : α} (h : p s = (.ok a, s')) : (p >>= f) s = f a s' := by
  change Run.bind p f s = _
  simp only [Run.bind, h]

theorem bind_error {e : Stop} (h : p s = (.error e, s')) : (p >>= f) s = (.error e, s') := by
  change Run.bind p f s = _
  simp only [Run.bind, h]

theorem bind_stops {e : Stop} (h : (p s).1 = .error e) : ((p >>= f) s).1 = .error e := by
  rcases hs : p s with ⟨e' | a, s'⟩
  · rw [hs] at h
    rw [bind_error hs]
    exact congrArg _ (Except.error.inj h)
  · rw [hs] at h
    cases h

theorem inFrame_congr {p q : Run α} {s : RunState} {frame : Frame}
    (h : p { s with frame } = q { s with frame }) : Run.inFrame frame p s = Run.inFrame frame q s := by
  simp only [Run.inFrame, h]

end Run

/-- A stop that code brings about by itself, without a poll, a call or a loop. -/
def Stop.Own : Stop → Prop
  | .interrupted | .unfinished | .fault (.stackOverflow _) => False
  | _ => True

/-- A step that polls nothing and calls nothing: it keeps the depth, only adds to the output and only
moves storage forward, and where it stops it has changed nothing. -/
structure Run.Step {α : Type} (p : Run α) : Prop where
  ok : ∀ s a s', p s = (.ok a, s') → s'.depth = s.depth ∧ s'.polls = s.polls ∧
    (∃ text, s'.out = s.out ++ text) ∧ s.store.Later s'.store
  error : ∀ s e s', p s = (.error e, s') → s' = s ∧ e.Own

namespace Run.Step

variable {α : Type}

theorem pure (a : α) : Step (Pure.pure a : Run α) where
  ok s _ s' h := by cases h; exact ⟨rfl, rfl, ⟨"", by simp⟩, .refl _⟩
  error s _ s' h := by cases h

theorem gets (f : RunState → α) : Step (Run.gets f) where
  ok s _ s' h := by cases h; exact ⟨rfl, rfl, ⟨"", by simp⟩, .refl _⟩
  error s _ s' h := by cases h

theorem stop {e : Stop} (h : e.Own) : Step (Run.stop e : Run α) where
  ok s _ s' h := by cases h
  error s _ s' heq := by cases heq; exact ⟨rfl, h⟩

theorem ofExcept {r : Except Stop α} (h : ∀ e, r = .error e → e.Own) : Step (Run.ofExcept r) where
  ok s a s' heq := by cases heq; exact ⟨rfl, rfl, ⟨"", by simp⟩, .refl _⟩
  error s e s' heq := by cases heq; exact ⟨rfl, h e rfl⟩

theorem print (text : String) : Step (Run.print text) where
  ok s _ s' h := by cases h; exact ⟨rfl, rfl, ⟨text, rfl⟩, .refl _⟩
  error s _ s' h := by cases h

end Run.Step

namespace Machine

open Run

theorem own_of_intArith {op : ArithOp} {a b : Int64} {e : Stop} (h : intArith op a b = .error e) :
    e.Own := by
  cases op with
  | add | sub | mul => cases h
  | div | rem =>
    simp only [intArith] at h
    split at h <;> cases h
    trivial

theorem own_of_apply {im : Image} {op : ValueOp} {l r : Value} {e : Stop}
    (h : apply im op l r = .error e) : e.Own := by
  match op with
  | .concat | .equal | .notEqual => cases h
  | .arith op .double | .compare op .int | .compare op .double =>
    simp only [apply] at h
    split at h <;> cases h
    trivial
  | .arith op .int =>
    simp only [apply] at h
    split at h
    · next a b _ _ =>
      cases hr : intArith op a b with
      | ok n => simp [hr, Except.map] at h
      | error stop =>
        simp only [hr, Except.map, Except.error.injEq] at h
        exact h ▸ own_of_intArith hr
    · cases h
      trivial

theorem own_of_negate {kind : NumKind} {v : Value} {e : Stop} (h : negate kind v = .error e) :
    e.Own := by
  unfold negate at h
  split at h <;> cases h
  all_goals trivial

theorem own_of_stepValue {kind : NumKind} {op : StepOp} {v : Value} {e : Stop}
    (h : stepValue kind op v = .error e) : e.Own := by
  unfold stepValue at h
  split at h <;> cases h
  all_goals trivial

theorem own_of_toText {im : Image} {v : Value} {e : Stop} (h : toText im v = .error e) : e.Own := by
  unfold toText at h
  split at h <;> cases h
  all_goals trivial

theorem own_of_textLength {v : Value} {e : Stop} (h : textLength v = .error e) : e.Own := by
  unfold textLength at h
  split at h <;> cases h <;> trivial

theorem own_of_receiver {v : Value} {e : Stop} (h : receiver v = .error e) : e.Own := by
  unfold receiver at h
  split at h <;> cases h <;> trivial

theorem save_step (l : Location) (v : Value) : Step (save l v) where
  ok s _ s' h := by
    cases h
    cases l with
    | frame i => exact ⟨rfl, rfl, ⟨"", by simp⟩, .refl _⟩
    | static i => exact ⟨rfl, rfl, ⟨"", by simp⟩, s.store.writeSlot_later i v⟩
    | field o i => exact ⟨rfl, rfl, ⟨"", by simp⟩, s.store.writeField_later o.id i v⟩
  error s _ s' h := by cases h

theorem newObject_step (env : Env) (type : Path) (d : TypeDef) : Step (newObject env type d) where
  ok s _ s' h := by
    cases h
    exact ⟨rfl, rfl, ⟨"", by simp⟩, s.store.addObject_later type _⟩
  error s _ s' h := by cases h

theorem capture_step (v : Value) :
    Step (Run.modify fun s => { s with frame := { s.frame with result := some v } }) where
  ok s _ s' h := by cases h; exact ⟨rfl, rfl, ⟨"", by simp⟩, .refl _⟩
  error s _ s' h := by cases h

/-- A property of families of computations that steps, sequences, polls, frames and, where loops are
allowed, rounds have as soon as their parts have it. -/
structure Conduct {ι : Type} (env : ι → Env) (limit : ι → Nat) (im : Image) (loops : Prop)
    (C : {α : Type} → (ι → Run α) → Prop) : Prop where
  image : ∀ i, (env i).image = im
  step : ∀ {α : Type} {p : Run α}, Step p → C fun _ => p
  bind : ∀ {α β : Type} {p : ι → Run α} {f : ι → α → Run β}, C p → (∀ a, C fun i => f i a) →
    C fun i => p i >>= f i
  poll : C fun i => Run.poll (env i)
  inFrame : ∀ {α : Type} {p : ι → Run α} (frame : Frame), C p → C fun i => Run.inFrame frame (p i)
  rounds : loops → ∀ {body : ι → Run (Option Flow)}, C body →
    C fun i => rounds (Run.poll (env i) >>= fun _ => body i) (limit i)

/-- Calls that conduct themselves so where no more than `A` is called. -/
structure Calls.Conduct {ι : Type} (C : {α : Type} → (ι → Run α) → Prop) (im : Image)
    (calls : ι → Calls) (A : Callee → Prop) : Prop where
  invoke : ∀ {c m}, A c → Runs im c m → ∀ o args, C fun i => (calls i).invoke m o args
  create : ∀ {type constructor}, A (.object type constructor) →
    ∀ args, C fun i => (calls i).create type constructor args

namespace Conduct

variable {ι α : Type} {env : ι → Env} {limit : ι → Nat} {im : Image} {loops : Prop}
  {C : {α : Type} → (ι → Run α) → Prop} {calls : ι → Calls} {A : Callee → Prop}

theorem pure (h : Conduct env limit im loops C) (a : α) : C fun _ => (Pure.pure a : Run α) :=
  h.step (.pure a)

theorem load (h : Conduct env limit im loops C) (l : Location) : C fun _ => load l :=
  h.step (.gets _)

/-- Looking up a method: what comes after it is asked only about the method that is meant. -/
theorem findMethod (h : Conduct env limit im loops C) {ref : MethodRef} {f : ι → Method → Run α}
    (hf : ∀ m, method? im ref = some m → C fun i => f i m) :
    C fun i => findMethod (env i) ref >>= f i := by
  simp only [Machine.findMethod, h.image]
  cases hm : method? im ref with
  | none => exact h.step (.stop (e := .internal .unknownMethod) trivial)
  | some m => exact hf m hm

theorem findImplementation (h : Conduct env limit im loops C) {o : ObjectRef} {wanted : Method}
    {f : ι → Method → Run α}
    (hf : ∀ m d, im.typeDef? o.type = some d → d.implementation? wanted = some m →
      C fun i => f i m) :
    C fun i => findImplementation (env i) o wanted >>= f i := by
  simp only [Machine.findImplementation, h.image]
  cases hm : (im.typeDef? o.type).bind fun d => d.implementation? wanted with
  | none =>
    exact h.step (.stop (e := .internal (.notImplemented o.type wanted.signature)) trivial)
  | some m =>
    obtain ⟨d, hd, hi⟩ := Option.bind_eq_some_iff.mp hm
    exact hf m d hd hi

theorem ofExcept (h : Conduct env limit im loops C) {r : Except Stop α}
    (hr : ∀ e, r = .error e → e.Own) : C fun _ => Run.ofExcept r := h.step (.ofExcept hr)

mutual

theorem eval (h : Conduct env limit im loops C) (hc : Calls.Conduct C im calls A) :
    ∀ e : BoundExpr, (∀ c ∈ e.callees, A c) → C fun i => eval (env i) (calls i) e
  | .const v, _ => by
    simp only [Machine.eval]
    exact h.pure v
  | .load p, ha => by
    simp only [Machine.eval]
    exact h.bind (h.locate hc p ha) fun l => h.load l
  | .thisRef, _ => by
    simp only [Machine.eval]
    exact h.step (.gets _)
  | .assign p e, ha => by
    obtain ⟨hp, he⟩ := List.forall_mem_append.mp ha
    simp only [Machine.eval]
    refine h.bind (h.locate hc p hp) fun l => ?_
    refine h.bind (h.eval hc e he) fun v => ?_
    exact h.bind (h.step (save_step l v)) fun _ => h.pure v
  | .compound p op e, ha => by
    obtain ⟨hp, he⟩ := List.forall_mem_append.mp ha
    simp only [Machine.eval, h.image]
    refine h.bind (h.locate hc p hp) fun l => ?_
    refine h.bind (h.load l) fun old => ?_
    refine h.bind (h.eval hc e he) fun v => ?_
    refine h.bind (h.ofExcept fun _ => own_of_apply) fun new => ?_
    exact h.bind (h.step (save_step l new)) fun _ => h.pure new
  | .step p op leading kind, ha => by
    simp only [Machine.eval]
    refine h.bind (h.locate hc p ha) fun l => h.bind (h.load l) fun old => ?_
    refine h.bind (h.ofExcept fun _ => own_of_stepValue) fun new => ?_
    exact h.bind (h.step (save_step l new)) fun _ => h.pure _
  | .neg kind e, ha => by
    simp only [Machine.eval]
    exact h.bind (h.eval hc e ha) fun v => h.ofExcept fun _ => own_of_negate
  | .not e, ha => by
    simp only [Machine.eval]
    exact h.bind (h.eval hc e ha) fun v => h.pure _
  | .binary op l r, ha => by
    obtain ⟨hl, hr⟩ := List.forall_mem_append.mp ha
    simp only [Machine.eval, h.image]
    refine h.bind (h.eval hc l hl) fun a => ?_
    refine h.bind (h.eval hc r hr) fun b => ?_
    exact h.ofExcept fun _ => own_of_apply
  | .both l r, ha => by
    obtain ⟨hl, hr⟩ := List.forall_mem_append.mp ha
    simp only [Machine.eval]
    refine h.bind (h.eval hc l hl) fun a => ?_
    split
    · exact h.bind (h.eval hc r hr) fun b => h.pure _
    · exact h.pure _
  | .either l r, ha => by
    obtain ⟨hl, hr⟩ := List.forall_mem_append.mp ha
    simp only [Machine.eval]
    refine h.bind (h.eval hc l hl) fun a => ?_
    split
    · exact h.pure _
    · exact h.bind (h.eval hc r hr) fun b => h.pure _
  | .coalesce l r, ha => by
    obtain ⟨hl, hr⟩ := List.forall_mem_append.mp ha
    simp only [Machine.eval]
    refine h.bind (h.eval hc l hl) fun a => ?_
    split
    · exact h.eval hc r hr
    · exact h.pure _
  | .cond test yes no, ha => by
    obtain ⟨hparts, hno⟩ := List.forall_mem_append.mp ha
    obtain ⟨htest, hyes⟩ := List.forall_mem_append.mp hparts
    simp only [Machine.eval]
    refine h.bind (h.eval hc test htest) fun a => ?_
    split
    · exact h.eval hc yes hyes
    · exact h.eval hc no hno
  | .callStatic ref args, ha => by
    obtain ⟨hcallee, hargs⟩ := List.forall_mem_cons.mp ha
    simp only [Machine.eval]
    refine h.bind (h.evalAll hc args hargs) fun vs => h.findMethod fun m hm => ?_
    exact hc.invoke hcallee hm none vs
  | .callDirect target ref args, ha => by
    obtain ⟨hcallee, hparts⟩ := List.forall_mem_cons.mp ha
    obtain ⟨htarget, hargs⟩ := List.forall_mem_append.mp hparts
    simp only [Machine.eval]
    refine h.bind (h.eval hc target htarget) fun v => ?_
    refine h.bind (h.ofExcept fun _ => own_of_receiver) fun o => ?_
    refine h.bind (h.evalAll hc args hargs) fun vs => h.findMethod fun m hm => ?_
    exact hc.invoke hcallee hm (some o) vs
  | .callVirtual target ref args, ha => by
    obtain ⟨hcallee, hparts⟩ := List.forall_mem_cons.mp ha
    obtain ⟨htarget, hargs⟩ := List.forall_mem_append.mp hparts
    simp only [Machine.eval]
    refine h.bind (h.eval hc target htarget) fun v => ?_
    refine h.bind (h.ofExcept fun _ => own_of_receiver) fun o => ?_
    refine h.bind (h.evalAll hc args hargs) fun vs => h.findMethod fun wanted hw => ?_
    refine h.findImplementation fun m d hd hm => ?_
    exact hc.invoke hcallee ⟨wanted, o.type, d, hw, hd, hm⟩ (some o) vs
  | .new type constructor args, ha => by
    obtain ⟨hcallee, hargs⟩ := List.forall_mem_cons.mp ha
    simp only [Machine.eval]
    exact h.bind (h.evalAll hc args hargs) fun vs => hc.create hcallee vs
  | .toText e, ha => by
    simp only [Machine.eval, h.image]
    exact h.bind (h.eval hc e ha) fun v => h.ofExcept fun _ => own_of_toText
  | .textLength e, ha => by
    simp only [Machine.eval]
    exact h.bind (h.eval hc e ha) fun v => h.ofExcept fun _ => own_of_textLength
  | .widen e, ha => by
    simp only [Machine.eval]
    exact h.bind (h.eval hc e ha) fun v => h.pure _

theorem evalAll (h : Conduct env limit im loops C) (hc : Calls.Conduct C im calls A) :
    ∀ es : List BoundExpr, (∀ c ∈ BoundExpr.calleesOfAll es, A c) →
      C fun i => evalAll (env i) (calls i) es
  | [], _ => by
    simp only [Machine.evalAll]
    exact h.pure []
  | e :: es, ha => by
    obtain ⟨he, hes⟩ := List.forall_mem_append.mp ha
    simp only [Machine.evalAll]
    refine h.bind (h.eval hc e he) fun v => h.bind (h.evalAll hc es hes) fun vs => ?_
    exact h.pure _

theorem locate (h : Conduct env limit im loops C) (hc : Calls.Conduct C im calls A) :
    ∀ p : Place, (∀ c ∈ p.callees, A c) → C fun i => locate (env i) (calls i) p
  | .frame n, _ => by
    simp only [Machine.locate]
    exact h.pure _
  | .static slot, _ => by
    simp only [Machine.locate]
    exact h.pure _
  | .field target n, ha => by
    simp only [Machine.locate]
    refine h.bind (h.eval hc target ha) fun v => ?_
    exact h.bind (h.ofExcept fun _ => own_of_receiver) fun o => h.pure _

end

theorem test (h : Conduct env limit im loops C) (hc : Calls.Conduct C im calls A)
    (e : Option BoundExpr) (ha : ∀ c ∈ e.elim [] BoundExpr.callees, A c) :
    C fun i => test (env i) (calls i) e := by
  cases e with
  | none => exact h.pure true
  | some e => exact h.bind (h.eval hc e ha) fun v => h.pure _

mutual

theorem exec (h : Conduct env limit im loops C) (hc : Calls.Conduct C im calls A) :
    ∀ s : BoundStmt, (∀ c ∈ s.callees, A c) → (s.hasLoop = true → loops) →
      C fun i => exec (env i) (calls i) (limit i) s
  | .expr e, ha, _ => by
    simp only [Machine.exec]
    exact h.bind h.poll fun _ => h.bind (h.eval hc e ha) fun _ => h.pure _
  | .capture e, ha, _ => by
    simp only [Machine.exec]
    refine h.bind h.poll fun _ => h.bind (h.eval hc e ha) fun v => ?_
    exact h.bind (h.step (capture_step v)) fun _ => h.pure _
  | .block body, ha, hl => by
    simp only [Machine.exec]
    exact h.bind h.poll fun _ => h.execAll hc body ha hl
  | .ifElse test yes none, ha, hl => by
    obtain ⟨htest, hyes⟩ := List.forall_mem_append.mp ha
    simp only [Machine.exec]
    refine h.bind h.poll fun _ => h.bind (h.eval hc test htest) fun v => ?_
    split
    · exact h.exec hc yes hyes hl
    · exact h.pure _
  | .ifElse test yes (some no), ha, hl => by
    obtain ⟨hparts, hno⟩ := List.forall_mem_append.mp ha
    obtain ⟨htest, hyes⟩ := List.forall_mem_append.mp hparts
    simp only [Machine.exec]
    refine h.bind h.poll fun _ => h.bind (h.eval hc test htest) fun v => ?_
    split
    · exact h.exec hc yes hyes fun hloop => hl (Bool.or_eq_true_iff.mpr (.inl hloop))
    · exact h.exec hc no hno fun hloop => hl (Bool.or_eq_true_iff.mpr (.inr hloop))
  | .whileDo test body, ha, hl => by
    obtain ⟨htest, hbody⟩ := List.forall_mem_append.mp ha
    simp only [Machine.exec]
    refine h.bind h.poll fun _ => h.rounds (hl rfl) ?_
    refine h.bind (h.eval hc test htest) fun v => ?_
    split
    · exact h.bind (h.exec hc body hbody fun _ => hl rfl) fun flow => h.pure _
    · exact h.pure _
  | .doWhile body test, ha, hl => by
    obtain ⟨htest, hbody⟩ := List.forall_mem_append.mp ha
    simp only [Machine.exec]
    refine h.bind h.poll fun _ => h.rounds (hl rfl) ?_
    refine h.bind (h.exec hc body hbody fun _ => hl rfl) fun flow => ?_
    split
    · exact h.pure _
    · refine h.bind (h.eval hc test htest) fun v => ?_
      split <;> exact h.pure _
  | .forLoop init test update body, ha, hl => by
    obtain ⟨hparts, hbody⟩ := List.forall_mem_append.mp ha
    obtain ⟨hparts, hupdate⟩ := List.forall_mem_append.mp hparts
    obtain ⟨hinit, htest⟩ := List.forall_mem_append.mp hparts
    simp only [Machine.exec]
    refine h.bind h.poll fun _ => h.bind (h.execEach hc init hinit fun _ => hl rfl) fun _ => ?_
    refine h.rounds (hl rfl) (h.bind (h.test hc test htest) fun b => ?_)
    split
    · refine h.bind (h.exec hc body hbody fun _ => hl rfl) fun flow => ?_
      split
      · exact h.pure _
      · exact h.bind (h.evalAll hc update hupdate) fun _ => h.pure _
    · exact h.pure _
  | .breakLoop, _, _ => by
    simp only [Machine.exec]
    exact h.bind h.poll fun _ => h.pure _
  | .continueLoop, _, _ => by
    simp only [Machine.exec]
    exact h.bind h.poll fun _ => h.pure _
  | .returnValue none, _, _ => by
    simp only [Machine.exec]
    exact h.bind h.poll fun _ => h.pure _
  | .returnValue (some e), ha, _ => by
    simp only [Machine.exec]
    exact h.bind h.poll fun _ => h.bind (h.eval hc e ha) fun v => h.pure _
  | .throwValue e, ha, _ => by
    simp only [Machine.exec]
    exact h.bind h.poll fun _ => h.bind (h.eval hc e ha) fun v => h.step (.stop trivial)

theorem execAll (h : Conduct env limit im loops C) (hc : Calls.Conduct C im calls A) :
    ∀ ss : List BoundStmt, (∀ c ∈ BoundStmt.calleesOfAll ss, A c) →
      (BoundStmt.anyHasLoop ss = true → loops) → C fun i => execAll (env i) (calls i) (limit i) ss
  | [], _, _ => by
    simp only [Machine.execAll]
    exact h.pure _
  | s :: rest, ha, hl => by
    obtain ⟨hs, hrest⟩ := List.forall_mem_append.mp ha
    simp only [Machine.execAll]
    refine h.bind (h.exec hc s hs fun hloop => hl (Bool.or_eq_true_iff.mpr (.inl hloop)))
      fun flow => ?_
    cases flow with
    | next =>
      exact h.execAll hc rest hrest fun hloop => hl (Bool.or_eq_true_iff.mpr (.inr hloop))
    | out | again | returned v => exact h.pure _

theorem execEach (h : Conduct env limit im loops C) (hc : Calls.Conduct C im calls A) :
    ∀ ss : List BoundStmt, (∀ c ∈ BoundStmt.calleesOfAll ss, A c) →
      (BoundStmt.anyHasLoop ss = true → loops) → C fun i => execEach (env i) (calls i) (limit i) ss
  | [], _, _ => by
    simp only [Machine.execEach]
    exact h.pure _
  | s :: rest, ha, hl => by
    obtain ⟨hs, hrest⟩ := List.forall_mem_append.mp ha
    simp only [Machine.execEach]
    refine h.bind (h.exec hc s hs fun hloop => hl (Bool.or_eq_true_iff.mpr (.inl hloop)))
      fun flow => ?_
    exact h.execEach hc rest hrest fun hloop => hl (Bool.or_eq_true_iff.mpr (.inr hloop))

end

theorem native (h : Conduct env limit im loops C) (n : Native) (args : List Value) :
    C fun _ => native im n args := by
  cases n with
  | writeLine | writeBlankLine | write =>
    exact h.bind (h.step (.print _)) fun _ => h.pure _
  | _ => exact h.pure _

theorem newObject (h : Conduct env limit im loops C) (type : Path) (d : TypeDef) :
    C fun i => newObject (env i) type d := by
  unfold Machine.newObject
  simp only [h.image]
  exact h.step (newObject_step ⟨im, 0, none⟩ type d)

theorem runBody (h : Conduct env limit im loops C) (hc : Calls.Conduct C im calls A) {m : Method}
    (hm : ∀ code, m.body = .code code → code.Stays A loops) (o : Option ObjectRef)
    (args : List Value) : C fun i => runBody (env i) (limit i) (calls i) m o args := by
  unfold Machine.runBody
  cases hbody : m.body with
  | code code =>
    obtain ⟨ha, hl⟩ := hm code hbody
    exact h.bind (h.inFrame _ (h.execAll hc code.body ha hl)) fun flow => h.pure _
  | native n =>
    simp only [h.image]
    exact h.native n args
  | abstractMember | missing => exact h.step (.stop trivial)

theorem initFields (h : Conduct env limit im loops C) (hc : Calls.Conduct C im calls A)
    (o : ObjectRef) : ∀ inits : List (Nat × BoundExpr),
      (∀ x ∈ inits, ∀ c ∈ x.2.callees, A c) → C fun i => initFields (env i) (calls i) o inits
  | [], _ => h.pure ()
  | (n, e) :: rest, ha => by
    obtain ⟨he, hrest⟩ := List.forall_mem_cons.mp ha
    simp only [Machine.initFields]
    refine h.bind (h.eval hc e he) fun v => h.bind (h.step (save_step _ v)) fun _ => ?_
    exact h.initFields hc o rest hrest

theorem build (h : Conduct env limit im loops C) (hc : Calls.Conduct C im calls A)
    {type : Path} {constructor : Option Nat} (hmay : A (.object type constructor))
    (hinits : ∀ d, im.typeDef? type = some d → ∀ x ∈ d.inits, ∀ c ∈ x.2.callees, A c)
    (args : List Value) : C fun i => build (env i) (calls i) type constructor args := by
  simp only [Machine.build, h.image]
  cases hd : im.typeDef? type with
  | none => exact h.step (.stop trivial)
  | some d =>
    refine h.bind (h.newObject type d) fun o => ?_
    refine h.bind (h.inFrame _ (h.initFields hc o d.inits (hinits d hd))) fun _ => ?_
    cases hm : constructor.bind fun i => d.constructors[i]? with
    | none => exact h.pure _
    | some m =>
      exact h.bind (hc.invoke hmay ⟨d, hd, hm⟩ (some o) args) fun _ => h.pure _

end Conduct

/-- The calls with a number of levels left. -/
def callsAt (env : Env) (limit room : Nat) : Calls :=
  ⟨invoke env limit room, create env limit room⟩

/-- What a call does one level deeper than its caller. -/
def entered {α : Type} (maxDepth : Nat) (p : Run α) : Run α := fun s =>
  if maxDepth ≤ s.depth then (.error (.fault (.stackOverflow maxDepth)), s)
  else
    let (r, s') := p { s with depth := s.depth + 1 }
    (r, { s' with depth := s'.depth - 1 })

theorem deeper_eq {α : Type} (env : Env) (p : Run α) :
    Run.deeper env p = Run.poll env >>= fun _ => entered env.maxDepth p := rfl

/-- All calls conduct themselves as their bodies do, if that only takes one level more. -/
theorem calls_conduct {ι : Type} {env : ι → Env} {limit : ι → Nat} {im : Image} {loops : Prop}
    {C : Nat → {α : Type} → (ι → Run α) → Prop} {A : Callee → Prop}
    (h : ∀ room, Conduct env limit im loops (C room)) (hA : im.Stays A loops)
    (zero : C 0 fun _ => (Run.stop .unfinished : Run Value))
    (enter : ∀ {room} {p : ι → Run Value}, C room p →
      C (room + 1) fun i => entered (env i).maxDepth (p i)) (room : Nat) :
    Calls.Conduct (C room) im (fun i => callsAt (env i) (limit i) room) A := by
  induction room with
  | zero => exact ⟨fun _ _ _ _ => zero, fun _ _ => zero⟩
  | succ room ih =>
    refine ⟨fun hmay hm o args => ?_, fun hmay args => ?_⟩
    · refine (h (room + 1)).bind (h (room + 1)).poll fun _ => enter ?_
      exact (h room).runBody ih (fun code hcode => hA.method hmay hm hcode) o args
    · refine (h (room + 1)).bind (h (room + 1)).poll fun _ => enter ?_
      exact (h room).build ih hmay (fun d hd => hA.inits hmay hd) args

/-- The state in which the code of a unit starts. -/
def startState (store : Store) (locals : Nat) : RunState :=
  ⟨store, "", Frame.ofSize locals none, 0, 0⟩

/-- What is seen of statements that ended so. -/
def Outcome.ofExec (r : Except Stop Flow × RunState) : Outcome :=
  ⟨r.1.map fun _ => r.2.frame.result, r.2.store, r.2.out, r.2.polls⟩

theorem run_eq (env : Env) (limit : Nat) (store : Store) (code : Code) :
    run env limit store code = .ofExec (execAll env (topCalls env limit) limit code.body
      (startState store code.locals)) := rfl

theorem Outcome.ofExec_error {r : Except Stop Flow × RunState} {e : Stop} :
    (Outcome.ofExec r).result = .error e ↔ r.1 = .error e := by
  rcases r with ⟨e' | flow, s⟩ <;> simp [Outcome.ofExec, Except.map]

end Machine

end Chunkwise
