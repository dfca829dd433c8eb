import Chunkwise.Machine.Eval
import Chunkwise.Program.Reach
import Chunkwise.Proofs.Typing.Value

/-!
The static types of bound expressions and statements. A statement leads from the locals that are
set before it to those that are set after it, so that a typed read of a local comes after a write.
`slots` lists the static slots that code mentions; only these matter for its typing.
-/
namespace Chunkwise

mutual

def Place.slots : Place → List Nat
  | .frame _ => []
  | .static slot => [slot]
  | .field target _ => target.slots

def BoundExpr.slots : BoundExpr → List Nat
  | .const _ | .thisRef => []
  | .load p | .step p _ _ _ => p.slots
  | .assign p e | .compound p _ e => p.slots ++ e.slots
  | .neg _ e | .not e | .toText e | .textLength e | .widen e => e.slots
  | .binary _ l r | .both l r | .either l r | .coalesce l r => l.slots ++ r.slots
  | .cond c l r => c.slots ++ l.slots ++ r.slots
  | .callStatic _ args | .new _ _ args => BoundExpr.slotsOfAll args
  | .callDirect e _ args | .callVirtual e _ args => e.slots ++ BoundExpr.slotsOfAll args

def BoundExpr.slotsOfAll : List BoundExpr → List Nat
  | [] => []
  | e :: es => e.slots ++ BoundExpr.slotsOfAll es

end

mutual

def BoundStmt.slots : BoundStmt → List Nat
  | .expr e | .capture e | .throwValue e | .returnValue (some e) => e.slots
  | .block body => BoundStmt.slotsOfAll body
  | .ifElse c yes none => c.slots ++ yes.slots
  | .ifElse c yes (some no) => c.slots ++ yes.slots ++ no.slots
  | .whileDo c body => c.slots ++ body.slots
  | .doWhile body c => body.slots ++ c.slots
  | .forLoop init c update body =>
    BoundStmt.slotsOfAll init ++ (c.map BoundExpr.slots).getD [] ++ BoundExpr.slotsOfAll update ++
      body.slots
  | .breakLoop | .continueLoop | .returnValue none => []

def BoundStmt.slotsOfAll : List BoundStmt → List Nat
  | [] => []
  | s :: rest => s.slots ++ BoundStmt.slotsOfAll rest

end

/-- The static slots that occur in a body. -/
def Code.slots (code : Code) : List Nat := BoundStmt.slotsOfAll code.body

/-- The types of the locals that are set. -/
abbrev Locals := Nat → Option Ty

namespace Locals

def none : Locals := fun _ => Option.none

/-- Parameters take the first slots. -/
def ofParams (ts : List Ty) : Locals := fun i => ts[i]?

def set (Γ : Locals) (i : Nat) (t : Ty) : Locals := fun j => if j = i then some t else Γ j

def Le (Γ Δ : Locals) : Prop := ∀ i t, Γ i = some t → Δ i = some t

theorem Le.refl (Γ : Locals) : Γ.Le Γ := fun _ _ h => h

theorem Le.trans {Γ Δ Θ : Locals} (h : Γ.Le Δ) (h' : Δ.Le Θ) : Γ.Le Θ :=
  fun i t hi => h' i t (h i t hi)

theorem le_set {Γ : Locals} {i : Nat} {t : Ty} (h : Γ i = Option.none) : Γ.Le (Γ.set i t) := by
  intro j u hj
  have : j ≠ i := by
    rintro rfl
    simp [h] at hj
  simpa [set, this] using hj

end Locals

structure TypingContext where
  image : Image
  /-- The static slots within reach and their types. -/
  slots : Nat → Ty → Prop
  locals : Locals
  /-- The type of `this`. -/
  self : Option Path

/-- The types whose numbers an operation represents this way. -/
def NumKind.Of : NumKind → Ty → Prop
  | .int, t => t.isIntegral = true
  | .double, t => t = .double

/-- The operand types and the result type of an operation. -/
def ValueOp.Takes : ValueOp → Ty → Ty → Ty → Prop
  | .arith _ kind, a, b, t => kind.Of a ∧ kind.Of b ∧ kind.Of t
  | .compare _ kind, a, b, t => kind.Of a ∧ kind.Of b ∧ t = .bool
  | .concat, _, _, t => t = .string
  | .equal, _, _, t | .notEqual, _, _, t => t = .bool

mutual

def Place.HasType (c : TypingContext) : Place → Ty → Prop
  | .frame i, t => c.locals i = some t
  | .static slot, t => c.slots slot t
  | .field target i, t => ∃ p d f, target.HasType c (.named p) ∧ c.image.typeDef? p = some d ∧
      d.hasObjects = true ∧ d.fields[i]? = some f ∧ f.type = t

def BoundExpr.HasType (c : TypingContext) : BoundExpr → Ty → Prop
  | .const v, t => v.Conforms c.image (fun _ => none) t ∧ c.image.Knows t
  | .load p, t => p.HasType c t
  | .thisRef, t => ∃ p, c.self = some p ∧ t = .named p
  | .assign p e, t => p.HasType c t ∧ ∃ s, e.HasType c s ∧ c.image.Passes s t
  | .compound p op e, t => p.HasType c t ∧ ∃ s, e.HasType c s ∧ op.Takes t s t
  | .step p _ _ kind, t => p.HasType c t ∧ kind.Of t
  | .neg kind e, t => e.HasType c t ∧ kind.Of t
  | .not e, t => e.HasType c .bool ∧ t = .bool
  | .binary op l r, t => ∃ a b, l.HasType c a ∧ r.HasType c b ∧ op.Takes a b t
  | .both l r, t | .either l r, t => l.HasType c .bool ∧ r.HasType c .bool ∧ t = .bool
  | .coalesce l r, t => (∃ a, l.HasType c a ∧ c.image.Passes a t) ∧
      ∃ b, r.HasType c b ∧ c.image.Passes b t
  | .cond e l r, t => e.HasType c .bool ∧ (∃ a, l.HasType c a ∧ c.image.Passes a t) ∧
      ∃ b, r.HasType c b ∧ c.image.Passes b t
  | .callStatic ref args, t => ∃ m, Machine.method? c.image ref = some m ∧ m.isStatic = true ∧
      BoundExpr.Fit c args m.paramTypes ∧ t = m.returns
  | .callDirect target ref args, t => ∃ p d i m, ref = .member p i ∧ target.HasType c (.named p) ∧
      c.image.typeDef? p = some d ∧ d.hasObjects = true ∧ d.methods[i]? = some m ∧
      m.isStatic = false ∧ BoundExpr.Fit c args m.paramTypes ∧ t = m.returns
  | .callVirtual target ref args, t => ∃ p d i m, ref = .member p i ∧
      target.HasType c (.named p) ∧ c.image.typeDef? p = some d ∧ d.kind = .interfaceKind ∧
      d.methods[i]? = some m ∧ BoundExpr.Fit c args m.paramTypes ∧ t = m.returns
  | .new p none args, t => t = .named p ∧ args = [] ∧
      ∃ d, c.image.typeDef? p = some d ∧ d.Instantiable
  | .new p (some i) args, t => t = .named p ∧ ∃ d m, c.image.typeDef? p = some d ∧
      d.Instantiable ∧ d.constructors[i]? = some m ∧ BoundExpr.Fit c args m.paramTypes
  | .toText e, t => (∃ s, e.HasType c s) ∧ t = .string
  | .textLength e, t => e.HasType c .string ∧ t = .int
  | .widen e, t => (∃ s, e.HasType c s ∧ s.isIntegral = true) ∧ t = .double

/-- Arguments that pass for the parameters one by one. -/
def BoundExpr.Fit (c : TypingContext) : List BoundExpr → List Ty → Prop
  | [], [] => True
  | e :: es, t :: ts => (∃ s, e.HasType c s ∧ c.image.Passes s t) ∧ BoundExpr.Fit c es ts
  | _, _ => False

end

/-- An expression that passes for a type. -/
def BoundExpr.Fits (c : TypingContext) (e : BoundExpr) (t : Ty) : Prop :=
  ∃ s, e.HasType c s ∧ c.image.Passes s t

theorem BoundExpr.HasType.fits {c : TypingContext} {e : BoundExpr} {t : Ty} (h : e.HasType c t) :
    e.Fits c t := ⟨t, h, .inl rfl⟩

/-- Where a body stands. -/
structure CodeContext where
  image : Image
  slots : Nat → Ty → Prop
  self : Option Path
  /-- The number of frame slots. -/
  size : Nat
  /-- The type of the result; none for a unit. -/
  returns : Option Ty
  /-- The type of the value that a unit captures. -/
  yields : Option Ty

/-- The context of expressions when these locals are set. -/
def CodeContext.typing (c : CodeContext) (Γ : Locals) : TypingContext :=
  ⟨c.image, c.slots, Γ, c.self⟩

mutual

/-- From the locals set before a statement to those set when it goes on to the next one. -/
def BoundStmt.WellTyped (c : CodeContext) : Bool → BoundStmt → Locals → Locals → Prop
  | _, .expr e, Γ, Δ => ((∃ t, e.HasType (c.typing Γ) t) ∧ Δ = Γ) ∨
      ∃ i v t, e = .assign (.frame i) v ∧ v.Fits (c.typing Γ) t ∧ i < c.size ∧ Γ i = none ∧
        Δ = Γ.set i t
  | _, .capture e, Γ, Δ => (∃ t, c.yields = some t ∧ e.HasType (c.typing Γ) t) ∧ Δ = Γ
  | _, .throwValue e, Γ, Δ => (∃ t, e.HasType (c.typing Γ) t) ∧ Δ = Γ
  | loop, .block body, Γ, Δ => Γ.Le Δ ∧ ∃ Θ, BoundStmt.AllWellTyped c loop body Γ Θ ∧ Δ.Le Θ
  | loop, .ifElse e yes none, Γ, Δ => e.HasType (c.typing Γ) .bool ∧
      (∃ Θ, yes.WellTyped c loop Γ Θ) ∧ Δ = Γ
  | loop, .ifElse e yes (some no), Γ, Δ => e.HasType (c.typing Γ) .bool ∧
      (∃ Θ, yes.WellTyped c loop Γ Θ) ∧ (∃ Θ, no.WellTyped c loop Γ Θ) ∧ Δ = Γ
  | _, .whileDo e body, Γ, Δ | _, .doWhile body e, Γ, Δ => e.HasType (c.typing Γ) .bool ∧
      (∃ Θ, body.WellTyped c true Γ Θ) ∧ Δ = Γ
  | _, .forLoop init e update body, Γ, Δ => ∃ Θ, (∀ s ∈ init, ∃ e, s = .expr e) ∧
      BoundStmt.AllWellTyped c false init Γ Θ ∧ (∀ x, e = some x → x.HasType (c.typing Θ) .bool) ∧
      (∀ x ∈ update, ∃ t, x.HasType (c.typing Θ) t) ∧ (∃ Ξ, body.WellTyped c true Θ Ξ) ∧ Δ = Γ
  | loop, .breakLoop, Γ, Δ | loop, .continueLoop, Γ, Δ => loop = true ∧ Δ = Γ
  | _, .returnValue none, Γ, Δ => c.returns = some .void ∧ Δ = Γ
  | _, .returnValue (some e), Γ, Δ => (∃ t, c.returns = some t ∧ t ≠ .void ∧ e.Fits (c.typing Γ) t) ∧
      Δ = Γ

def BoundStmt.AllWellTyped (c : CodeContext) : Bool → List BoundStmt → Locals → Locals → Prop
  | _, [], Γ, Δ => Δ = Γ
  | loop, s :: rest, Γ, Δ => ∃ Θ, s.WellTyped c loop Γ Θ ∧ BoundStmt.AllWellTyped c loop rest Θ Δ

end

mutual

theorem BoundStmt.WellTyped.jumps_eq {c : CodeContext} (j : Jump) :
    ∀ {s : BoundStmt} {Γ Δ : Locals}, s.WellTyped c false Γ Δ → s.jumps j = false
  | .expr _, _, _, _ | .capture _, _, _, _ | .throwValue _, _, _, _ | .whileDo _ _, _, _, _
  | .doWhile _ _, _, _, _ | .forLoop _ _ _ _, _, _, _ | .returnValue _, _, _, _ => by
    simp [BoundStmt.jumps]
  | .breakLoop, _, _, h | .continueLoop, _, _, h => by cases h.1
  | .block body, _, _, h => by
    obtain ⟨-, Θ, hbody, -⟩ := h
    rw [BoundStmt.jumps, BoundStmt.AllWellTyped.anyJumps_eq j hbody]
  | .ifElse _ yes none, _, _, h => by
    obtain ⟨-, ⟨Θ, hyes⟩, -⟩ := h
    rw [BoundStmt.jumps, hyes.jumps_eq j]
  | .ifElse _ yes (some no), _, _, h => by
    obtain ⟨-, ⟨Θ, hyes⟩, ⟨Ξ, hno⟩, -⟩ := h
    simp [BoundStmt.jumps, hyes.jumps_eq j, hno.jumps_eq j]

theorem BoundStmt.AllWellTyped.anyJumps_eq {c : CodeContext} (j : Jump) :
    ∀ {ss : List BoundStmt} {Γ Δ : Locals}, BoundStmt.AllWellTyped c false ss Γ Δ →
      BoundStmt.anyJumps j ss = false
  | [], _, _, _ => rfl
  | s :: rest, _, _, ⟨Θ, hs, hrest⟩ => by
    simp [BoundStmt.anyJumps, hs.jumps_eq j, BoundStmt.AllWellTyped.anyJumps_eq j hrest]

end

end Chunkwise
