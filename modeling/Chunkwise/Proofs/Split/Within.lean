import Chunkwise.Proofs.Parallel.Same
import Chunkwise.Proofs.Typing.Image

/-!
`Within` bounds the slots that code mentions. Typed code mentions only slots that its context has.
-/
namespace Chunkwise

mutual

/-- Frame slots below `n` and static slots below `m` are all that occur. -/
def Place.Within (n m : Nat) : Place → Prop
  | .frame i => i < n
  | .static slot => slot < m
  | .field target _ => target.Within n m

def BoundExpr.Within (n m : Nat) : BoundExpr → Prop
  | .const _ | .thisRef => True
  | .load p | .step p _ _ _ => p.Within n m
  | .assign p e | .compound p _ e => p.Within n m ∧ e.Within n m
  | .neg _ e | .not e | .toText e | .textLength e | .widen e => e.Within n m
  | .binary _ l r | .both l r | .either l r | .coalesce l r => l.Within n m ∧ r.Within n m
  | .cond c l r => c.Within n m ∧ l.Within n m ∧ r.Within n m
  | .callStatic _ args | .new _ _ args => BoundExpr.AllWithin n m args
  | .callDirect e _ args | .callVirtual e _ args =>
    e.Within n m ∧ BoundExpr.AllWithin n m args

def BoundExpr.AllWithin (n m : Nat) : List BoundExpr → Prop
  | [] => True
  | e :: es => e.Within n m ∧ BoundExpr.AllWithin n m es

end

mutual

/-- The same of statements, which hold results only if `captures` says so. -/
def BoundStmt.Within (n m : Nat) (captures : Bool) : BoundStmt → Prop
  | .expr e | .throwValue e | .returnValue (some e) => e.Within n m
  | .capture e => captures = true ∧ e.Within n m
  | .block body => BoundStmt.AllWithin n m captures body
  | .ifElse c yes none => c.Within n m ∧ yes.Within n m captures
  | .ifElse c yes (some no) =>
    c.Within n m ∧ yes.Within n m captures ∧ no.Within n m captures
  | .whileDo c body | .doWhile body c => c.Within n m ∧ body.Within n m captures
  | .forLoop init c update body => BoundStmt.AllWithin n m captures init ∧
      (∀ e, c = some e → e.Within n m) ∧ BoundExpr.AllWithin n m update ∧
      body.Within n m captures
  | .breakLoop | .continueLoop | .returnValue none => True

def BoundStmt.AllWithin (n m : Nat) (captures : Bool) : List BoundStmt → Prop
  | [] => True
  | s :: rest => s.Within n m captures ∧ BoundStmt.AllWithin n m captures rest

end

/-- The locals that are set have slots below `n`. -/
def Locals.Below (Γ : Locals) (n : Nat) : Prop := ∀ i t, Γ i = some t → i < n

namespace Locals

variable {Γ Δ : Locals} {n : Nat}

theorem below_none : Locals.none.Below n := fun i t h => by cases h

theorem below_ofParams {ts : List Ty} (h : ts.length ≤ n) : (Locals.ofParams ts).Below n := by
  intro i t hi
  have hlt : i < ts.length := (List.getElem?_eq_some_iff.mp hi).1
  omega

theorem Below.set (h : Γ.Below n) {i : Nat} (hi : i < n) (t : Ty) : (Γ.set i t).Below n := by
  intro j u hj
  by_cases hji : j = i
  · omega
  · simp only [Locals.set, hji, if_false] at hj
    exact h j u hj

theorem Below.le (h : Δ.Below n) (hle : Γ.Le Δ) : Γ.Below n := fun i t hi => h i t (hle i t hi)

end Locals

/-- The static slots that a context offers are below `m`. -/
def SlotsBelow (slots : Nat → Ty → Prop) (m : Nat) : Prop := ∀ i t, slots i t → i < m

section Typed

variable {n m : Nat}

mutual

theorem Place.HasType.within {c : TypingContext} (hl : c.locals.Below n) (hs : SlotsBelow c.slots m) :
    ∀ {p : Place} {t : Ty}, p.HasType c t → p.Within n m
  | .frame i, t, h => hl i t h
  | .static slot, t, h => hs slot t h
  | .field _ _, _, ⟨_, _, _, ht, _⟩ => ht.within hl hs

theorem BoundExpr.HasType.within {c : TypingContext} (hl : c.locals.Below n)
    (hs : SlotsBelow c.slots m) : ∀ {e : BoundExpr} {t : Ty}, e.HasType c t → e.Within n m
  | .const _, _, _ | .thisRef, _, _ => trivial
  | .load _, _, h => Place.HasType.within hl hs h
  | .step _ _ _ _, _, h => h.1.within hl hs
  | .assign _ _, _, ⟨hp, _, he, _⟩ | .compound _ _ _, _, ⟨hp, _, he, _⟩ =>
    ⟨hp.within hl hs, he.within hl hs⟩
  | .neg _ _, _, h | .not _, _, h | .textLength _, _, h => h.1.within hl hs
  | .toText _, _, ⟨⟨_, he⟩, _⟩ => he.within hl hs
  | .widen _, _, ⟨⟨_, he, _⟩, _⟩ => he.within hl hs
  | .binary _ _ _, _, ⟨_, _, h, h', _⟩ => ⟨h.within hl hs, h'.within hl hs⟩
  | .both _ _, _, h | .either _ _, _, h => ⟨h.1.within hl hs, h.2.1.within hl hs⟩
  | .coalesce _ _, _, ⟨⟨_, h, _⟩, _, h', _⟩ => ⟨h.within hl hs, h'.within hl hs⟩
  | .cond _ _ _, _, ⟨he, ⟨_, h, _⟩, _, h', _⟩ =>
    ⟨he.within hl hs, h.within hl hs, h'.within hl hs⟩
  | .callStatic _ _, _, ⟨_, _, _, ha, _⟩ => BoundExpr.Fit.within hl hs ha
  | .callDirect _ _ _, _, ⟨_, _, _, _, _, he, _, _, _, _, ha, _⟩ =>
    ⟨he.within hl hs, BoundExpr.Fit.within hl hs ha⟩
  | .callVirtual _ _ _, _, ⟨_, _, _, _, _, he, _, _, _, ha, _⟩ =>
    ⟨he.within hl hs, BoundExpr.Fit.within hl hs ha⟩
  | .new _ none _, _, ⟨_, ha, _⟩ => by
    subst ha
    trivial
  | .new _ (some _) _, _, ⟨_, _, _, _, _, _, ha⟩ => BoundExpr.Fit.within hl hs ha

theorem BoundExpr.Fit.within {c : TypingContext} (hl : c.locals.Below n)
    (hs : SlotsBelow c.slots m) : ∀ {es : List BoundExpr} {ts : List Ty}, BoundExpr.Fit c es ts →
      BoundExpr.AllWithin n m es
  | [], [], _ => trivial
  | _ :: _, _ :: _, ⟨⟨_, he, _⟩, hes⟩ => ⟨he.within hl hs, BoundExpr.Fit.within hl hs hes⟩
  | [], _ :: _, h | _ :: _, [], h => h.elim

end

theorem BoundExpr.allWithin_of_forall :
    ∀ {es : List BoundExpr}, (∀ e ∈ es, e.Within n m) → BoundExpr.AllWithin n m es
  | [], _ => trivial
  | e :: _, h => ⟨h e (by simp),
      BoundExpr.allWithin_of_forall fun x hx => h x (List.mem_cons_of_mem _ hx)⟩

variable {c : CodeContext} {captures : Bool}

mutual

/-- Typed code stays within its frame and the slots it is offered. -/
theorem BoundStmt.WellTyped.within (hn : c.size ≤ n) (hs : SlotsBelow c.slots m)
    (hy : ∀ t, c.yields = some t → captures = true) :
    ∀ {loop : Bool} {s : BoundStmt} {Γ Δ : Locals}, Γ.Below n → s.WellTyped c loop Γ Δ →
      s.Within n m captures ∧ Δ.Below n
  | _, .expr _, _, _, hΓ, h => by
    rcases h with ⟨⟨_, he⟩, rfl⟩ | ⟨_, _, _, rfl, ⟨_, hv, -⟩, hi, -, rfl⟩
    · exact ⟨he.within hΓ hs, hΓ⟩
    · exact ⟨⟨Nat.lt_of_lt_of_le hi hn, hv.within hΓ hs⟩, hΓ.set (Nat.lt_of_lt_of_le hi hn) _⟩
  | _, .capture _, _, _, hΓ, ⟨⟨_, ht, he⟩, hΔ⟩ => by
    subst hΔ
    exact ⟨⟨hy _ ht, he.within hΓ hs⟩, hΓ⟩
  | _, .throwValue _, _, _, hΓ, ⟨⟨_, he⟩, hΔ⟩ => by
    subst hΔ
    exact ⟨he.within hΓ hs, hΓ⟩
  | _, .block _, _, _, hΓ, ⟨_, _, hb, hle⟩ => by
    obtain ⟨hbody, hΘ⟩ := BoundStmt.AllWellTyped.within hn hs hy hΓ hb
    exact ⟨hbody, hΘ.le hle⟩
  | _, .ifElse _ _ none, _, _, hΓ, ⟨he, ⟨_, hyes⟩, hΔ⟩ => by
    subst hΔ
    exact ⟨⟨he.within hΓ hs, (hyes.within hn hs hy hΓ).1⟩, hΓ⟩
  | _, .ifElse _ _ (some _), _, _, hΓ, ⟨he, ⟨_, hyes⟩, ⟨_, hno⟩, hΔ⟩ => by
    subst hΔ
    exact ⟨⟨he.within hΓ hs, (hyes.within hn hs hy hΓ).1, (hno.within hn hs hy hΓ).1⟩, hΓ⟩
  | _, .whileDo _ _, _, _, hΓ, ⟨he, ⟨_, hb⟩, hΔ⟩
  | _, .doWhile _ _, _, _, hΓ, ⟨he, ⟨_, hb⟩, hΔ⟩ => by
    subst hΔ
    exact ⟨⟨he.within hΓ hs, (hb.within hn hs hy hΓ).1⟩, hΓ⟩
  | _, .forLoop _ _ _ _, _, _, hΓ, ⟨_, _, hinit, he, hu, ⟨_, hb⟩, hΔ⟩ => by
    subst hΔ
    obtain ⟨hinit, hΘ⟩ := BoundStmt.AllWellTyped.within hn hs hy hΓ hinit
    refine ⟨⟨hinit, fun e hc => (he e hc).within hΘ hs, ?_, (hb.within hn hs hy hΘ).1⟩, hΓ⟩
    refine BoundExpr.allWithin_of_forall fun x hx => ?_
    obtain ⟨_, ht⟩ := hu x hx
    exact ht.within hΘ hs
  | _, .breakLoop, _, _, hΓ, ⟨_, hΔ⟩ | _, .continueLoop, _, _, hΓ, ⟨_, hΔ⟩
  | _, .returnValue none, _, _, hΓ, ⟨_, hΔ⟩ => by
    subst hΔ
    exact ⟨trivial, hΓ⟩
  | _, .returnValue (some _), _, _, hΓ, ⟨⟨_, _, _, _, he, _⟩, hΔ⟩ => by
    subst hΔ
    exact ⟨he.within hΓ hs, hΓ⟩

theorem BoundStmt.AllWellTyped.within (hn : c.size ≤ n) (hs : SlotsBelow c.slots m)
    (hy : ∀ t, c.yields = some t → captures = true) :
    ∀ {loop : Bool} {ss : List BoundStmt} {Γ Δ : Locals}, Γ.Below n →
      BoundStmt.AllWellTyped c loop ss Γ Δ → BoundStmt.AllWithin n m captures ss ∧ Δ.Below n
  | _, [], _, _, hΓ, hΔ => by
    obtain rfl := hΔ
    exact ⟨trivial, hΓ⟩
  | _, _ :: _, _, _, hΓ, ⟨_, hhead, hrest⟩ => by
    obtain ⟨hhead, hΘ⟩ := hhead.within hn hs hy hΓ
    obtain ⟨hrest, hΔ⟩ := BoundStmt.AllWellTyped.within hn hs hy hΘ hrest
    exact ⟨⟨hhead, hrest⟩, hΔ⟩

end

end Typed

end Chunkwise
