import Chunkwise.Binder.Host
import Chunkwise.Proofs.Cache.Contract
import Chunkwise.Proofs.Parallel.Stmt

/-!
Binding with the cache and binding with a lookup that follows the chart are two runs on the same code from
the same state, so they give the same code in the same state.
-/
namespace Chunkwise

open Attempt

namespace Bind

variable {c : Chart}

theorem updateScopes_agrees (f : Scopes → Scopes) :
    Agrees c.Fits (updateScopes f) (updateScopes f) fun _ => True :=
  .refl (.modify fun _ hs => hs.keep rfl rfl rfl hs.body)

theorem setBody_agrees {b : BodyContext} (hb : b.ctx.Located c.shape) :
    Agrees c.Fits (setBody b) (setBody b) fun _ => True :=
  .refl (.modify fun _ hs => hs.keep rfl rfl rfl hb)

theorem addSlot_agrees (name : String) (type : Ty) :
    Agrees c.Fits (addSlot name type) (addSlot name type) fun _ => True :=
  .refl fun _ hs => ⟨hs.keep rfl rfl rfl hs.body, trivial⟩

theorem defineLocal_agrees (name : Ident) (type : Ty) (isReadonly : Bool) :
    Agrees c.Fits (defineLocal name type isReadonly) (defineLocal name type isReadonly)
      fun _ => True := by
  unfold defineLocal
  refine body_agrees.bind fun b _ => ?_
  rcases b.scopes.defineLocal name.name type isReadonly with ⟨_ | slot, scopes⟩
  · exact refuse_agrees _ _
  · exact (updateScopes_agrees _).bind fun _ _ => .pure trivial

theorem addVariable_agrees (name : String) (type : Ty) (isReadonly : Bool) :
    Agrees c.Fits (addVariable name type isReadonly) (addVariable name type isReadonly)
      fun _ => True := by
  unfold addVariable
  refine (addSlot_agrees name type).bind fun slot _ => (updateScopes_agrees _).bind fun _ _ => ?_
  have hmodify : Agrees c.Fits (Attempt.modify fun s =>
      { s with newVariables := s.newVariables ++ [⟨name, slot, isReadonly⟩] }) _ fun _ => True :=
    .refl (.modify fun s hs => hs.keep rfl rfl rfl hs.body)
  exact hmodify.bind fun _ _ => .pure trivial

theorem registered_parallel (name : String) :
    Parallel (fun s t => s = t ∧ c.Fits s) (Option.Rel (Resolved.Same (Shifted 0) Eq)) (registered name)
      (registered name) := by
  rintro s _ ⟨rfl, hs⟩
  obtain ⟨r?, hrun, hplace⟩ := registered_run name s
  rw [hrun]
  refine ⟨.some ?_, rfl, hs⟩
  cases r? with
  | none => exact .none
  | some r =>
    obtain ⟨slot, t, isReadonly, rfl⟩ := hplace r rfl
    exact .some (.place t isReadonly (.static rfl))

end Bind

namespace Chart

variable {c : Chart} {ask : NameLookup}

theorem steady (hask : ask.Follows c) : Steady ask Bind.cachedLookup id (fun ctx => ctx.Located c.shape)
    (fun s t => s = t ∧ c.Fits s) where
  issue := by
    rintro s _ p span ⟨rfl, hs⟩
    exact ⟨rfl, hs.keep rfl rfl rfl hs.body⟩
  find ctx name hctx := Parallel.mono (Bind.find_agrees hask hctx name) fun _ _ h => h.1
  lookup := by
    rintro s _ ⟨rfl, -⟩
    rfl

theorem variableNamed_parallel (name : String) :
    Parallel (fun s t => s = t ∧ c.Fits s) (Option.Rel (Resolved.Same (Shifted 0) Eq))
      (Bind.variableNamed name) (Bind.variableNamed name) := by
  have hslot : ∀ i, Shifted 0 i i := fun i => (Nat.zero_add i).symm
  unfold Bind.variableNamed
  refine Parallel.bind (Bind.body_agrees (c := c)) ?_
  rintro b _ ⟨rfl, -⟩
  cases b.scopes.lookup name with
  | some binding => exact .pure (.some (.ofBinding hslot (fun _ => rfl) binding))
  | none => exact Bind.registered_parallel name

/-- What a lookup that follows the chart gives where it fits is what the cache gives. -/
def accord (hask : ask.Follows c) : Accord ask Bind.cachedLookup where
  state _ s t := s = t ∧ c.Fits s
  frame := Shifted 0
  static := Eq
  view := id
  known ctx := ctx.Located c.shape
  declares _ := True
  steady _ := steady hask
  body := by
    rintro _ s _ ⟨rfl, -⟩
    exact .refl _
  known_ctx _ _ _ h := h.2.body
  types := by
    rintro _ s _ ⟨rfl, -⟩ p
    cases s.image.typeDef? p with
    | none => exact .none
    | some d => exact .some (.refl (fun _ => rfl) d)
  variableNamed _ name := variableNamed_parallel name
  push := by
    rintro _ s _ kind ⟨rfl, hs⟩
    exact ⟨rfl, hs.keep rfl rfl rfl hs.body⟩
  pop := by
    rintro _ s _ ⟨rfl, hs⟩
    exact ⟨rfl, hs.keep rfl rfl rfl hs.body⟩
  inner _ := trivial
  define _ name type isReadonly _ := by
    rw [Ident.relocate_id]
    refine Parallel.mono (Bind.defineLocal_agrees (c := c) name type isReadonly) ?_
    rintro i _ ⟨rfl, -⟩
    exact (Nat.zero_add i).symm

end Chart

theorem Typed.Same.eq {v v' : Typed} (h : v.Same (Shifted 0) Eq v') : v = v' := by
  cases v
  cases v'
  congr 1
  · exact h.expr.eq
  · exact h.type

namespace Bind

section Runs

variable {c : Chart} [ask : NameLookup] (hask : ask.Follows c)
include hask

section Types

variable {ctx : TypeContext} (hctx : ctx.Located c.shape)
include hctx

theorem lookupQualified_agrees (q : QualifiedName) :
    Agrees c.Fits (lookupQualified ctx q) (@lookupQualified cachedLookup ctx q) fun _ => True := by
  have h := lookupQualified_parallel (Chart.steady hask) hctx q
  rw [QualifiedName.relocate_id] at h
  exact .ofParallel h fun _ _ => id

theorem resolveType_agrees (ref : TypeRef) :
    Agrees c.Fits (resolveType ctx ref) (@resolveType cachedLookup ctx ref) fun _ => True := by
  have h := resolveType_parallel (Chart.steady hask) hctx ref
  rw [TypeRef.relocate_id] at h
  exact .ofParallel h fun _ _ => id

theorem resolveValueType_agrees (ref : TypeRef) :
    Agrees c.Fits (resolveValueType ctx ref) (@resolveValueType cachedLookup ctx ref)
      fun _ => True := by
  have h := resolveValueType_parallel (Chart.steady hask) hctx ref
  rw [TypeRef.relocate_id] at h
  exact .ofParallel h fun _ _ => id

end Types

theorem expr_agrees (e : Expr) :
    Agrees c.Fits (expr e) (@expr cachedLookup e) fun _ => True := by
  have h : Parallel _ _ (expr e) (@expr cachedLookup (e.relocate id)) :=
    expr_parallel (n := 0) (Chart.accord hask) e
  rw [Expr.relocate_id] at h
  exact .ofParallel h fun _ _ => Typed.Same.eq

theorem value_agrees (e : Expr) :
    Agrees c.Fits (value e) (@value cachedLookup e) fun _ => True := by
  have h : Parallel _ _ (value e) (@value cachedLookup (e.relocate id)) :=
    value_parallel (n := 0) (Chart.accord hask) e
  rw [Expr.relocate_id] at h
  exact .ofParallel h fun _ _ => Typed.Same.eq

theorem converted_agrees (target : Ty) (e : Expr) :
    Agrees c.Fits (converted target e) (@converted cachedLookup target e) fun _ => True := by
  have h : Parallel _ _ (converted target e) (@converted cachedLookup target (e.relocate id)) :=
    converted_parallel (n := 0) (Chart.accord hask) e target
  rw [Expr.relocate_id] at h
  exact .ofParallel h fun _ _ => BoundExpr.Same.eq

theorem declarator_agrees (decl : LocalDecl) (d : Declarator) :
    Agrees c.Fits (declarator decl d) (@declarator cachedLookup decl d) fun _ => True := by
  have h : Parallel _ _ (declarator decl d)
      (@declarator cachedLookup (decl.relocate id) (d.relocate id)) :=
    declarator_parallel (n := 0) (Chart.accord hask) decl d
  rw [LocalDecl.relocate_id, Declarator.relocate_id] at h
  refine .ofParallel h ?_
  rintro ⟨t, e?⟩ ⟨t', e'?⟩ ⟨ht, he⟩
  obtain rfl : t = t' := ht
  cases he with
  | none => rfl
  | some he => rw [he.eq]

theorem stmt_agrees (x : Stmt) :
    Agrees c.Fits (stmt x) (@stmt cachedLookup x) fun _ => True := by
  have h : Parallel _ _ (stmt x) (@stmt cachedLookup (x.relocate id)) :=
    stmt_parallel (n := 0) (Chart.accord hask) x fun _ _ _ => trivial
  rw [Stmt.relocate_id] at h
  exact .ofParallel h fun _ _ => BoundStmt.Same.eq

theorem stmts_agrees (xs : List Stmt) :
    Agrees c.Fits (stmts xs) (@stmts cachedLookup xs) fun _ => True := by
  have h : Parallel _ _ (stmts xs) (@stmts cachedLookup (Stmt.relocateAll id xs)) :=
    stmts_parallel (n := 0) (Chart.accord hask) trivial xs
  rw [Stmt.relocateAll_id] at h
  exact .ofParallel h fun _ _ => BoundStmt.Same.all_eq

theorem isUnbound_agrees (name : String) :
    Agrees c.Fits (isUnbound name) (@isUnbound cachedLookup name) fun _ => True := by
  unfold isUnbound
  refine (Reports.gets _).agrees.bind fun known _ => .ite (.pure trivial) ?_
  exact body_agrees.bind fun b hb => (find_agrees hask hb name).bind fun e? _ => .pure trivial

theorem implicitVariable_agrees (name : String) (e : Expr) :
    Agrees c.Fits (implicitVariable name e) (@implicitVariable cachedLookup name e)
      fun _ => True := by
  unfold implicitVariable
  refine (value_agrees hask e).bind fun v _ => .ite (refuse_agrees _ _) ?_
  exact (addVariable_agrees _ _ _).bind fun slot _ => .pure trivial

theorem hostVariables_agrees (decl : LocalDecl) :
    Agrees c.Fits (hostVariables decl) (@hostVariables cachedLookup decl) fun _ => True := by
  have heach : ∀ d ∈ decl.declarators, Agrees c.Fits (hostVariable decl d)
      (@hostVariable cachedLookup decl d) fun _ => True := by
    intro d _
    unfold hostVariable
    refine body_agrees.bind fun b _ => .ite (refuse_agrees _ _) ?_
    refine (declarator_agrees hask decl d).bind fun x _ => ?_
    exact (addVariable_agrees _ _ _).bind fun slot _ => .pure trivial
  exact (Agrees.keepSome heach).bind fun _ _ => .pure trivial

theorem hostExpr_agrees (isLast : Bool) (e : Expr) :
    Agrees c.Fits (hostExpr isLast e) (@hostExpr cachedLookup isLast e) fun _ => True := by
  unfold hostExpr
  exact (expr_agrees hask e).bind fun v _ => .ite (.pure trivial) (.pure trivial)

theorem hostExprStmt_agrees (isLast : Bool) (e : Expr) :
    Agrees c.Fits (hostExprStmt isLast e) (@hostExprStmt cachedLookup isLast e) fun _ => True := by
  unfold hostExprStmt
  cases implicitTarget? e with
  | none => exact hostExpr_agrees hask isLast e
  | some x =>
    refine (isUnbound_agrees hask x.1).bind fun unbound _ => ?_
    exact .ite (implicitVariable_agrees hask x.1 x.2) (hostExpr_agrees hask isLast e)

theorem hostStmt_agrees (isLast : Bool) (s : Stmt) :
    Agrees c.Fits (hostStmt isLast s) (@hostStmt cachedLookup isLast s) fun _ => True := by
  cases s with
  | declare _ decl => exact hostVariables_agrees hask decl
  | expr _ e => exact (hostExprStmt_agrees hask isLast e).optional.bind fun _ _ => .pure trivial
  | _ => exact (stmt_agrees hask _).optional.bind fun _ _ => .pure trivial

theorem hostStmts_agrees (ss : List Stmt) :
    Agrees c.Fits (hostStmts ss) (@hostStmts cachedLookup ss) fun _ => True := by
  induction ss with
  | nil => exact .pure trivial
  | cons s rest ih =>
    unfold hostStmts
    exact (hostStmt_agrees hask _ s).bind fun _ _ => ih.bind fun _ _ => .pure trivial

end Runs

end Bind

end Chunkwise
