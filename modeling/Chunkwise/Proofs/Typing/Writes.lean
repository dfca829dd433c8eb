import Chunkwise.Program.Code

/-!
`writes` lists the locations that an expression writes, itself or in a part of it. An assignment and a
step write a location of their own, and every other construct hands on the writes of its operands.
-/
namespace Chunkwise

mutual

/-- The writes of the object in which a location lies. -/
def Place.writes : Place → List Place
  | .frame _ | .static _ => []
  | .field target _ => target.writes

/-- The locations that an expression writes. -/
def BoundExpr.writes : BoundExpr → List Place
  | .const _ | .thisRef => []
  | .load p => p.writes
  | .step p _ _ _ => p :: p.writes
  | .assign p e | .compound p _ e => p :: (p.writes ++ e.writes)
  | .neg _ e | .not e | .toText e | .textLength e | .widen e => e.writes
  | .binary _ l r | .both l r | .either l r | .coalesce l r => l.writes ++ r.writes
  | .cond c l r => c.writes ++ l.writes ++ r.writes
  | .callStatic _ args | .new _ _ args => BoundExpr.writesOfAll args
  | .callDirect e _ args | .callVirtual e _ args => e.writes ++ BoundExpr.writesOfAll args

def BoundExpr.writesOfAll : List BoundExpr → List Place
  | [] => []
  | e :: es => e.writes ++ BoundExpr.writesOfAll es

end

/-- The expression writes no other locations. -/
def BoundExpr.WritesOnly (A : Place → Prop) (e : BoundExpr) : Prop := ∀ q ∈ e.writes, A q

/-- Finding the location writes no other locations. -/
def Place.WritesOnly (A : Place → Prop) (p : Place) : Prop := ∀ q ∈ p.writes, A q

namespace Place.WritesOnly

variable {A : Place → Prop}

theorem frame (i : Nat) : (Place.frame i).WritesOnly A := by simp [WritesOnly, writes]

theorem static (i : Nat) : (Place.static i).WritesOnly A := by simp [WritesOnly, writes]

theorem field {target : BoundExpr} (h : target.WritesOnly A) (i : Nat) :
    (Place.field target i).WritesOnly A := h

end Place.WritesOnly

namespace BoundExpr.WritesOnly

variable {A : Place → Prop} {p : Place} {c e l r : BoundExpr} {es : List BoundExpr}

theorem const (v : Value) : (BoundExpr.const v).WritesOnly A := by simp [WritesOnly, writes]

theorem thisRef : BoundExpr.thisRef.WritesOnly A := by simp [WritesOnly, writes]

theorem load (h : p.WritesOnly A) : (BoundExpr.load p).WritesOnly A := h

theorem assign (hp : p.WritesOnly A) (h : A p) (he : e.WritesOnly A) :
    (BoundExpr.assign p e).WritesOnly A := by
  simpa [WritesOnly, writes, or_imp, forall_and] using ⟨h, hp, he⟩

theorem compound (hp : p.WritesOnly A) (h : A p) (he : e.WritesOnly A) (op : ValueOp) :
    (BoundExpr.compound p op e).WritesOnly A := assign hp h he

theorem step (hp : p.WritesOnly A) (h : A p) (op : StepOp) (leading : Bool) (kind : NumKind) :
    (BoundExpr.step p op leading kind).WritesOnly A := by
  simpa [WritesOnly, writes] using ⟨h, hp⟩

theorem binary (hl : l.WritesOnly A) (hr : r.WritesOnly A) (op : ValueOp) :
    (BoundExpr.binary op l r).WritesOnly A := by
  simpa [WritesOnly, writes, or_imp, forall_and] using ⟨hl, hr⟩

theorem both (hl : l.WritesOnly A) (hr : r.WritesOnly A) : (BoundExpr.both l r).WritesOnly A :=
  binary hl hr .concat

theorem either (hl : l.WritesOnly A) (hr : r.WritesOnly A) : (BoundExpr.either l r).WritesOnly A :=
  binary hl hr .concat

theorem coalesce (hl : l.WritesOnly A) (hr : r.WritesOnly A) :
    (BoundExpr.coalesce l r).WritesOnly A := binary hl hr .concat

theorem cond (hc : c.WritesOnly A) (hl : l.WritesOnly A) (hr : r.WritesOnly A) :
    (BoundExpr.cond c l r).WritesOnly A := by
  simpa [WritesOnly, writes, or_imp, forall_and, and_assoc] using ⟨hc, hl, hr⟩

theorem all (h : ∀ e ∈ es, e.WritesOnly A) : ∀ q ∈ writesOfAll es, A q := by
  induction es with
  | nil => simp [writesOfAll]
  | cons e es ih =>
    have hrest := ih fun x hx => h x (List.mem_cons_of_mem e hx)
    simpa [writesOfAll, or_imp, forall_and] using ⟨h e List.mem_cons_self, hrest⟩

theorem callStatic (h : ∀ e ∈ es, e.WritesOnly A) (ref : MethodRef) :
    (BoundExpr.callStatic ref es).WritesOnly A := all h

theorem new (h : ∀ e ∈ es, e.WritesOnly A) (p : Path) (i : Option Nat) :
    (BoundExpr.new p i es).WritesOnly A := all h

theorem callDirect (he : e.WritesOnly A) (h : ∀ e ∈ es, e.WritesOnly A) (ref : MethodRef) :
    (BoundExpr.callDirect e ref es).WritesOnly A := by
  simpa [WritesOnly, writes, or_imp, forall_and] using ⟨he, all h⟩

theorem callVirtual (he : e.WritesOnly A) (h : ∀ e ∈ es, e.WritesOnly A) (ref : MethodRef) :
    (BoundExpr.callVirtual e ref es).WritesOnly A := callDirect he h ref

end BoundExpr.WritesOnly

end Chunkwise
