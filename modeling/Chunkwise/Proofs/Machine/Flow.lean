import Chunkwise.Machine.Eval
import Chunkwise.Program.Reach

/-!
A statement ends only in the ways that its text allows: it goes on to the next one only if it
completes, and it leaves or repeats a loop only if it holds such a jump. This needs no typing.
-/
namespace Chunkwise

/-- Whatever `p` ends with, if it ends with a value. -/
def Run.Ends {α : Type} (p : Run α) (P : α → Prop) : Prop := ∀ s a s', p s = (.ok a, s') → P a

namespace Run.Ends

variable {α β : Type} {p : Run α} {f : α → Run β} {P : α → Prop} {Q : β → Prop}

theorem pure {a : α} (h : P a) : Ends (Pure.pure a : Run α) P := by
  intro s b s' hb
  cases hb
  exact h

theorem bind (hp : Ends p P) (hf : ∀ a, P a → Ends (f a) Q) : Ends (p >>= f) Q := by
  intro s b s'' hb
  change Run.bind p f s = _ at hb
  unfold Run.bind at hb
  split at hb
  · next a s' ha => exact hf a (hp s a s' ha) s' b s'' hb
  · cases hb

theorem any (p : Run α) : Ends p fun _ => True := fun _ _ _ _ => trivial

theorem andThen (hf : ∀ a, Ends (f a) Q) : Ends (p >>= f) Q := (any p).bind fun a _ => hf a

theorem stop {e : Stop} : Ends (Run.stop e : Run α) P := by
  intro s a s' h
  cases h

end Run.Ends

namespace Machine

open Run

/-- The ends of control that a statement allows. -/
def Allows (s : BoundStmt) : Flow → Prop
  | .next => s.completes = true
  | .out => s.jumps .out = true
  | .again => s.jumps .again = true
  | .returned _ => True

def AllAllow (ss : List BoundStmt) : Flow → Prop
  | .next => BoundStmt.allComplete ss = true
  | .out => BoundStmt.anyJumps .out ss = true
  | .again => BoundStmt.anyJumps .again ss = true
  | .returned _ => True

variable (env : Env) (calls : Calls) (limit : Nat)

theorem eval_isTrue (e : BoundExpr) :
    Ends (eval env calls e) fun v => v.holds = false → e.isTrue = false := by
  cases h : e.isTrue with
  | false => exact fun _ _ _ _ _ => rfl
  | true =>
    unfold BoundExpr.isTrue at h
    split at h
    · rw [eval, h]
      exact Ends.pure fun hv => by cases hv
    · cases h

theorem test_isTrue (e : Option BoundExpr) :
    Ends (test env calls e) fun b => b = false → ∃ c, e = some c ∧ c.isTrue = false := by
  cases e with
  | none => exact Ends.pure fun h => by cases h
  | some e =>
    rw [test]
    refine (eval_isTrue env calls e).bind fun v hv => Ends.pure fun h => ?_
    exact ⟨e, rfl, hv h⟩

theorem rounds_ends {round : Run (Option Flow)} {P : Flow → Prop}
    (h : Ends round fun flow? => ∀ flow, flow? = some flow → P flow) (n : Nat) :
    Ends (rounds round n) P := by
  induction n with
  | zero => exact Ends.stop
  | succ n ih =>
    rw [rounds]
    refine h.bind fun flow? hflow => ?_
    cases flow? with
    | none => exact ih
    | some flow => exact Ends.pure (hflow flow rfl)

/-- A loop that ends goes on or returns. -/
def Loop (completes : Prop) : Flow → Prop
  | .next => completes
  | .returned _ => True
  | .out | .again => False

theorem leaves_loop {body : BoundStmt} {flow flow' : Flow} {completes : Prop}
    (h : Allows body flow) (hb : body.breaks = true → completes)
    (hl : flow.leaves = some flow') : Loop completes flow' := by
  cases flow <;> simp only [Flow.leaves, Option.some.injEq, reduceCtorEq] at hl <;> subst hl
  · exact hb h
  · trivial

theorem Loop.allows {s : BoundStmt} {flow : Flow} (h : Loop (s.completes = true) flow) :
    Allows s flow := by
  cases flow with
  | next => exact h
  | returned v => trivial
  | out | again => exact h.elim

mutual

theorem exec_allows : ∀ s : BoundStmt, Ends (exec env calls limit s) (Allows s)
  | .expr e => by
    rw [exec]
    exact Ends.andThen fun _ => Ends.andThen fun _ => Ends.pure rfl
  | .capture e => by
    rw [exec]
    exact Ends.andThen fun _ => Ends.andThen fun _ => Ends.andThen fun _ => Ends.pure rfl
  | .block body => by
    rw [exec]
    refine Ends.andThen fun _ s flow s' h => ?_
    have := execAll_allows body s flow s' h
    cases flow <;> simp_all [Allows, AllAllow, BoundStmt.completes, BoundStmt.jumps]
  | .ifElse c yes none => by
    rw [exec]
    refine Ends.andThen fun _ => Ends.andThen fun v => ?_
    split
    · intro s flow s' h
      have := exec_allows yes s flow s' h
      cases flow <;> simp_all [Allows, BoundStmt.completes, BoundStmt.jumps]
    · exact Ends.pure rfl
  | .ifElse c yes (some no) => by
    rw [exec]
    refine Ends.andThen fun _ => Ends.andThen fun v => ?_
    split
    · intro s flow s' h
      have := exec_allows yes s flow s' h
      cases flow <;> simp_all [Allows, BoundStmt.completes, BoundStmt.jumps]
    · intro s flow s' h
      have := exec_allows no s flow s' h
      cases flow <;> simp_all [Allows, BoundStmt.completes, BoundStmt.jumps]
  | .whileDo c body => by
    rw [exec]
    refine Ends.andThen fun _ => ?_
    refine rounds_ends (P := Allows (.whileDo c body)) ?_ limit
    refine Ends.andThen fun _ => (eval_isTrue env calls c).bind fun v hv => ?_
    split
    · refine (exec_allows body).bind fun flow hflow => Ends.pure fun flow' hl => Loop.allows ?_
      exact leaves_loop hflow (fun hb => by simp [BoundStmt.completes, hb]) hl
    · next hfalse =>
      refine Ends.pure fun flow' hl => ?_
      cases hl
      simp [Allows, BoundStmt.completes, hv (by simpa using hfalse)]
  | .doWhile body c => by
    rw [exec]
    refine Ends.andThen fun _ => ?_
    refine rounds_ends (P := Allows (.doWhile body c)) ?_ limit
    refine Ends.andThen fun _ => (exec_allows body).bind fun flow hflow => ?_
    split
    · next hl =>
      refine Ends.pure fun flow' heq => Loop.allows ?_
      cases heq
      exact leaves_loop hflow (fun hb => by simp [BoundStmt.completes, hb]) hl
    · next hl =>
      refine (eval_isTrue env calls c).bind fun v hv => ?_
      split
      · exact Ends.pure (by simp)
      · next hfalse =>
        refine Ends.pure fun flow' heq => ?_
        cases heq
        have hc := hv (by simpa using hfalse)
        cases flow <;> simp_all [Allows, BoundStmt.completes, Flow.leaves, BoundStmt.continues]
  | .forLoop init c update body => by
    rw [exec]
    refine Ends.andThen fun _ => Ends.andThen fun _ => ?_
    refine rounds_ends (P := Allows (.forLoop init c update body)) ?_ limit
    refine Ends.andThen fun _ => (test_isTrue env calls c).bind fun b hb => ?_
    split
    · refine (exec_allows body).bind fun flow hflow => ?_
      split
      · next hl =>
        refine Ends.pure fun flow' heq => Loop.allows ?_
        cases heq
        refine leaves_loop hflow (fun hbreak => ?_) hl
        cases c <;> simp [BoundStmt.completes, hbreak]
      · exact Ends.andThen fun _ => Ends.pure (by simp)
    · next hfalse =>
      refine Ends.pure fun flow' heq => ?_
      cases heq
      obtain ⟨e, rfl, he⟩ := hb (by simpa using hfalse)
      simp [Allows, BoundStmt.completes, he]
  | .breakLoop => by
    rw [exec]
    exact Ends.andThen fun _ => Ends.pure rfl
  | .continueLoop => by
    rw [exec]
    exact Ends.andThen fun _ => Ends.pure rfl
  | .returnValue none => by
    rw [exec]
    exact Ends.andThen fun _ => Ends.pure trivial
  | .returnValue (some e) => by
    rw [exec]
    exact Ends.andThen fun _ => Ends.andThen fun _ => Ends.pure trivial
  | .throwValue e => by
    rw [exec]
    exact Ends.andThen fun _ => Ends.andThen fun _ => Ends.stop

theorem execAll_allows : ∀ ss : List BoundStmt, Ends (execAll env calls limit ss) (AllAllow ss)
  | [] => by
    rw [execAll]
    exact Ends.pure rfl
  | s :: rest => by
    rw [execAll]
    refine (exec_allows s).bind fun flow hflow => ?_
    split
    · intro st flow' st' h
      have := execAll_allows rest st flow' st' h
      cases flow' <;> simp_all [AllAllow, Allows, BoundStmt.allComplete, BoundStmt.anyJumps]
    · refine Ends.pure ?_
      cases flow <;> simp_all [AllAllow, Allows, BoundStmt.anyJumps]

end

end Machine

end Chunkwise
