import Chunkwise.Binder.Stmt
import Chunkwise.Proofs.Parallel.Expr

/-!
A statement is bound to the same code on both sides. A declaration needs a depth at which locals may be
declared, which every scope of its own is.
-/
namespace Chunkwise

open Attempt

namespace Bind

variable {l l' : NameLookup} (a : Accord l l') {n : Nat}

theorem within_parallel {α β : Type} {A : α → β → Prop} (kind : ScopeKind) {p : Bind α} {q : Bind β}
    (hp : Parallel (a.state (n + 1)) A p q) : Parallel (a.state n) A (within kind p) (within kind q) := by
  intro s t hst
  obtain ⟨hval, hafter⟩ := hp _ _ (a.push n s t kind hst)
  exact ⟨hval, a.pop n _ _ hafter⟩

theorem declarator_parallel (decl : LocalDecl) (d : Declarator) :
    Parallel (a.state n)
      (fun x x' => x.1 = x'.1 ∧ Option.Rel (BoundExpr.Same a.frame a.static) x.2 x'.2)
      (@declarator l decl d) (@declarator l' (decl.relocate a.view) (d.relocate a.view)) := by
  have hinit : (d.relocate a.view).init = d.init.map (Expr.relocate a.view) := rfl
  have hinfer : decl.type.type = .infer ↔ (decl.relocate a.view).type.type = .infer := by
    change _ ↔ decl.type.type.relocate a.view = .infer
    cases decl.type.type <;> simp [TypeExpr.relocate]
  unfold declarator
  rw [hinit]
  refine .ite (by rw [Option.isNone_map]; rfl) (refuse_parallel (a.steady n) _ _) (.ite hinfer ?_ ?_)
  · cases d.init with
    | none => exact refuse_parallel (a.steady n) _ _
    | some init =>
      refine (value_parallel a init).bind fun x x' hx => ?_
      refine .ite (by rw [hx.type]) ?_ (.pure ⟨hx.type, .some hx.expr⟩)
      rw [Expr.relocate_span]
      exact refuse_parallel (a.steady n) _ _
  · refine (body_parallel a).bind fun b b' hb => ?_
    rw [← hb.1.ctx]
    refine (resolveValueType_parallel (a.steady n) hb.2 decl.type).bind fun t _ ht => ?_
    subst ht
    cases d.init with
    | none => exact .pure ⟨rfl, .none⟩
    | some init => exact (converted_parallel a init t).bind fun e e' he => .pure ⟨rfl, .some he⟩

theorem localVariable_parallel (hn : a.declares n) (decl : LocalDecl) (d : Declarator) :
    Parallel (a.state n) (BoundStmt.Same a.frame a.static) (@localVariable l decl d)
      (@localVariable l' (decl.relocate a.view) (d.relocate a.view)) := by
  unfold localVariable
  refine (declarator_parallel a decl d).bind ?_
  rintro ⟨t, init⟩ ⟨t', init'⟩ ⟨ht, hinit⟩
  obtain rfl : t = t' := ht
  refine (image_resembles a).bind fun im im' him => ?_
  refine (a.define n d.name t decl.isConst hn).bind fun i j hij => .pure (.expr (.assign (.frame hij) ?_))
  dsimp only at hinit
  rw [him.defaultValue]
  cases hinit with
  | none => exact .const _
  | some he => exact he

theorem localDecl_parallel (hn : a.declares n) (decl : LocalDecl) :
    Parallel (a.state n) (List.Forall₂ (BoundStmt.Same a.frame a.static)) (@localDecl l decl)
      (@localDecl l' (decl.relocate a.view)) :=
  Parallel.keepSome (Declarator.relocate a.view) fun d _ => localVariable_parallel a hn decl d

section Parts

variable (span : Span)

theorem jump_parallel {s s' : BoundStmt} (hs : s.Same a.frame a.static s') :
    Parallel (a.state n) (BoundStmt.Same a.frame a.static) (jump s span) (jump s' (a.view span)) := by
  unfold jump
  refine (body_parallel a).bind fun b b' hb => ?_
  exact .ite (by rw [hb.1.inLoop]) (.pure hs) (refuse_parallel (a.steady n) _ _)

theorem returned_parallel (value : Option Expr) :
    Parallel (a.state n) (BoundStmt.Same a.frame a.static) (@returned l value span)
      (@returned l' (value.map (Expr.relocate a.view)) (a.view span)) := by
  unfold returned
  refine (body_parallel a).bind fun b b' hb => ?_
  rw [hb.1.returns]
  cases b'.returns with
  | none => exact refuse_parallel (a.steady n) _ _
  | some t =>
    cases value with
    | none => exact .ite Iff.rfl (.pure .returnNothing) (refuse_parallel (a.steady n) _ _)
    | some e =>
      refine .ite Iff.rfl (refuse_parallel (a.steady n) _ _) ?_
      exact (converted_parallel a e t).bind fun _ _ he => .pure (.returnValue he)

theorem thrown_parallel (e : Option Expr) :
    Parallel (a.state n) (BoundStmt.Same a.frame a.static) (@thrown l e span)
      (@thrown l' (e.map (Expr.relocate a.view)) (a.view span)) := by
  cases e with
  | none => exact refuse_parallel (a.steady n) _ _
  | some e => exact (value_parallel a e).bind fun _ _ hv => .pure (.throwValue hv.expr)

theorem forInit_parallel (hn : a.declares n) (init : ForInit) :
    Parallel (a.state n) (List.Forall₂ (BoundStmt.Same a.frame a.static)) (@forInit l init)
      (@forInit l' (init.relocate a.view)) := by
  cases init with
  | none => exact .pure .nil
  | declare decl => exact localDecl_parallel a hn decl
  | exprs es =>
    refine Parallel.keepSome (Expr.relocate a.view) fun e _ => ?_
    exact (expr_parallel a e).bind fun _ _ hv => .pure (.expr hv.expr)

theorem optionalCondition_parallel (test : Option Expr) :
    Parallel (a.state n) (Option.Rel (BoundExpr.Same a.frame a.static)) (@optionalCondition l test)
      (@optionalCondition l' (test.map (Expr.relocate a.view))) := by
  cases test with
  | none => exact .pure .none
  | some e => exact (condition_parallel a e).optional

theorem updates_parallel (es : List Expr) :
    Parallel (a.state n) (List.Forall₂ (BoundExpr.Same a.frame a.static))
      (Attempt.keepSome (fun e => do return (← @expr l e).expr) es)
      (Attempt.keepSome (fun e => do return (← @expr l' e).expr) (es.map (Expr.relocate a.view))) :=
  Parallel.keepSome (Expr.relocate a.view) fun e _ =>
    (expr_parallel a e).bind fun _ _ hv => .pure hv.expr

end Parts

mutual

theorem stmt_parallel {n : Nat} : ∀ x : Stmt, (∀ span decl, x = .declare span decl → a.declares n) →
    Parallel (a.state n) (BoundStmt.Same a.frame a.static) (@stmt l x) (@stmt l' (x.relocate a.view))
  | .empty _, _ => by
    unfold Stmt.relocate stmt
    exact .fail
  | .block _ body, _ => by
    unfold Stmt.relocate stmt
    exact (within_parallel a _ (stmts_parallel (a.inner n) body)).bind fun _ _ hss => .pure (.block hss)
  | .declare span decl, h => by
    unfold Stmt.relocate stmt
    exact (localDecl_parallel a (h span decl rfl) decl).bind fun _ _ hss => .pure (.block hss)
  | .expr _ e, _ => by
    unfold Stmt.relocate stmt
    exact (expr_parallel a e).bind fun _ _ hv => .pure (.expr hv.expr)
  | .ifElse _ test yes none, _ => by
    unfold Stmt.relocate stmt
    have hyes := stmt_parallel yes fun _ _ _ => a.inner n
    refine (condition_parallel a test).optional.bind fun c? c'? hc => ?_
    refine (within_parallel a _ hyes).optional.bind fun yes? yes'? hyes => ?_
    exact (Parallel.ofOption hc).bind fun c c' hc => .pure (.ifThen hc (.getD hyes))
  | .ifElse _ test yes (some no), _ => by
    unfold Stmt.relocate stmt
    have hyes := stmt_parallel yes fun _ _ _ => a.inner n
    have hno := stmt_parallel no fun _ _ _ => a.inner n
    refine (condition_parallel a test).optional.bind fun c? c'? hc => ?_
    refine (within_parallel a _ hyes).optional.bind fun yes? yes'? hyes => ?_
    refine (within_parallel a _ hno).optional.bind fun no? no'? hno => ?_
    refine (Parallel.ofOption hc).bind fun c c' hc => .pure ?_
    cases hno with
    | none => exact .ifThen hc (.getD hyes)
    | some hno => exact .ifElse hc (.getD hyes) hno
  | .whileDo _ test body, _ => by
    unfold Stmt.relocate stmt
    have hbody := stmt_parallel body fun _ _ _ => a.inner n
    refine (condition_parallel a test).optional.bind fun c? c'? hc => ?_
    refine (within_parallel a _ hbody).optional.bind fun body? body'? hbody => ?_
    exact (Parallel.ofOption hc).bind fun c c' hc => .pure (.whileDo hc (.getD hbody))
  | .doWhile _ body test, _ => by
    unfold Stmt.relocate stmt
    have hbody := stmt_parallel body fun _ _ _ => a.inner n
    refine (within_parallel a _ hbody).optional.bind fun body? body'? hbody => ?_
    exact (condition_parallel a test).bind fun c c' hc => .pure (.doWhile (.getD hbody) hc)
  | .forLoop _ init test update body, _ => by
    unfold Stmt.relocate stmt
    have hbody := stmt_parallel body fun _ _ _ => a.inner (n + 1)
    refine within_parallel a _ ((forInit_parallel a (a.inner n) init).bind fun is is' his => ?_)
    refine (optionalCondition_parallel a test).bind fun c? c'? hc => ?_
    refine (updates_parallel a update).bind fun us us' hus => ?_
    refine (within_parallel a _ hbody).optional.bind fun body? body'? hbody => ?_
    exact .pure (.forLoop his hc hus (.getD hbody))
  | .breakLoop span, _ => by
    unfold Stmt.relocate stmt
    exact jump_parallel a span .breakLoop
  | .continueLoop span, _ => by
    unfold Stmt.relocate stmt
    exact jump_parallel a span .continueLoop
  | .returnValue span e, _ => by
    unfold Stmt.relocate stmt
    exact returned_parallel a span e
  | .throwValue span e, _ => by
    unfold Stmt.relocate stmt
    exact thrown_parallel a span e

theorem stmts_parallel {n : Nat} (hn : a.declares n) : ∀ xs : List Stmt,
    Parallel (a.state n) (List.Forall₂ (BoundStmt.Same a.frame a.static)) (@stmts l xs)
      (@stmts l' (Stmt.relocateAll a.view xs))
  | [] => by
    unfold Stmt.relocateAll stmts
    exact .pure .nil
  | x :: rest => by
    unfold Stmt.relocateAll stmts
    refine (stmt_parallel x fun _ _ _ => hn).optional.bind fun s? s'? hs => ?_
    refine (stmts_parallel hn rest).bind fun ss ss' hss => .pure ?_
    cases hs with
    | none => exact hss
    | some hs => exact .cons hs hss

end

end Bind

end Chunkwise
