import Chunkwise.Proofs.Faithful.Expr

namespace Chunkwise

open Attempt

theorem Stmt.written_cons (s : Stmt) (ss : List Stmt) :
    Stmt.written (s :: ss) = Stmt.written [s] ++ Stmt.written ss :=
  List.filter_append [s] ss

theorem Stmt.written_singleton {s : Stmt} (h : s.isEmpty = false) : Stmt.written [s] = [s] := by
  simp [Stmt.written, h]

namespace Bind

variable {α : Type} {J : TypeTable → Prop} {H : Prop}

theorem updateScopes_sure (f : Scopes → Scopes) : Sure J H (updateScopes f) fun _ => True :=
  Sure.modify (fun _ => rfl) fun _ => rfl

theorem within_sure {p : Bind α} {Q : α → Prop} (kind : ScopeKind)
    (h : ∀ {H : Prop}, Sure J H p Q) : Sure J H (within kind p) Q := by
  unfold within
  refine (updateScopes_sure _).bind fun _ => h.optional.bind fun a? => ?_
  refine (updateScopes_sure _).bind fun _ => Sure.ofOption fun hs => ?_
  exact hs.1.2

theorem optional_within_fail (kind : ScopeKind) :
    Sure J H (Attempt.optional (within kind (Attempt.fail : Bind α))) fun a? => a? = none := by
  have heq : Attempt.optional (within kind (Attempt.fail : Bind α)) =
      (do updateScopes (·.push kind); updateScopes Scopes.pop; return none) := rfl
  rw [heq]
  refine (updateScopes_sure _).bind fun _ => (updateScopes_sure _).bind fun _ => ?_
  exact Sure.pure fun _ => rfl

theorem declarator_sure (decl : LocalDecl) (d : Declarator) :
    Sure J H (declarator decl d) fun x => List.Forall₂ Shows d.init.toList x.2.toList := by
  unfold declarator
  split
  · exact Sure.refuse _ _
  · split
    · split
      · exact Sure.refuse _ _
      · next init hinit =>
        rw [hinit]
        refine (value_sure init).bind fun v => ?_
        split
        · exact Sure.refuse _ _
        · exact Sure.pure fun hs => .cons hs.2 .nil
    · refine body_sure.bind fun b => (resolveValueType_sure _ _).bind fun t => ?_
      split
      · next init hinit =>
        rw [hinit]
        exact (converted_sure t init).bind fun b => Sure.pure fun hs => .cons hs.2 .nil
      · next hinit =>
        rw [hinit]
        exact Sure.pure fun _ => .nil

theorem defineLocal_sure (name : Ident) (type : Ty) (isReadonly : Bool) :
    Sure J H (defineLocal name type isReadonly) fun _ => True := by
  unfold defineLocal
  refine body_sure.bind fun b => ?_
  dsimp only
  split
  · exact (updateScopes_sure _).bind fun _ => Sure.pure fun _ => trivial
  · exact Sure.refuse _ _

theorem localVariable_sure (decl : LocalDecl) (d : Declarator) :
    Sure J H (localVariable decl d) d.Sets := by
  unfold localVariable
  refine (declarator_sure decl d).bind fun x => ?_
  obtain ⟨t, init⟩ := x
  refine image_sure.bind fun im => (defineLocal_sure _ _ _).bind fun slot => Sure.pure fun hs => ?_
  have hinit := hs.1.1.2
  cases hd : d.init with
  | none =>
    rw [hd] at hinit
    cases init with
    | none => exact .default hd slot _
    | some b => cases hinit
  | some e =>
    rw [hd] at hinit
    cases init with
    | none => cases hinit
    | some b =>
      cases hinit with
      | cons hb _ => exact .initial hd hb slot

theorem localDecl_sure (decl : LocalDecl) :
    Sure J H (localDecl decl) (List.Forall₂ Declarator.Sets decl.declarators) :=
  Sure.keepSome fun d _ => localVariable_sure decl d

theorem jump_sure (b : BoundStmt) (span : Span) : Sure J H (jump b span) fun b' => b' = b := by
  unfold jump
  refine body_sure.bind fun _ => ?_
  split
  · exact Sure.pure fun _ => rfl
  · exact Sure.refuse _ _

theorem returned_sure (value : Option Expr) (span : Span) :
    Sure J H (returned value span) (Enacts (.returnValue span value)) := by
  unfold returned
  refine body_sure.bind fun b => ?_
  split
  · exact Sure.refuse _ _
  · split
    · split
      · exact Sure.pure fun _ => .returnValue .nil
      · exact Sure.refuse _ _
    · next e =>
      split
      · exact Sure.refuse _ _
      · refine (converted_sure _ e).bind fun b => Sure.pure fun hs => ?_
        exact .returnValue (b := some b) (.cons hs.2 .nil)

theorem thrown_sure (value : Option Expr) (span : Span) :
    Sure J H (thrown value span) (Enacts (.throwValue span value)) := by
  unfold thrown
  split
  · next e => exact (value_sure e).bind fun v => Sure.pure fun hs => .throwValue hs.2
  · exact Sure.refuse _ _

theorem forInit_sure (init : ForInit) : Sure J H (forInit init) init.Begins := by
  cases init with
  | none => exact Sure.pure fun _ => .none
  | declare decl => exact (localDecl_sure decl).mono id fun _ h => .declare h
  | exprs es =>
    unfold forInit
    refine (Sure.keepSome (Q := Expr.Runs) fun e _ => ?_).mono id fun _ h => .exprs h
    exact (expr_sure e).bind fun v => Sure.pure fun hs => .run hs.2

theorem optionalCondition_sure (test : Option Expr) :
    Sure J H (optionalCondition test) fun c => List.Forall₂ Shows test.toList c.toList := by
  cases test with
  | none => exact Sure.pure fun _ => .nil
  | some e =>
    unfold optionalCondition
    refine (condition_sure e).optional.mono id fun c? hc => ?_
    obtain ⟨c, rfl, hc⟩ := hc
    exact .cons hc .nil

theorem update_sure (es : List Expr) :
    Sure J H (Attempt.keepSome (fun e => do return (← expr e).expr) es) (List.Forall₂ Shows es) :=
  Sure.keepSome fun e _ => (expr_sure e).bind fun _ => Sure.pure fun hs => hs.2

/-- What is left of a statement that may be empty. -/
def Kept (s : Stmt) (b? : Option BoundStmt) : Prop :=
  List.Forall₂ Enacts (Stmt.written [s]) b?.toList

theorem kept_of_enacts {s : Stmt} (hs : s.isEmpty = false) {b? : Option BoundStmt}
    (h : ∃ b, b? = some b ∧ Enacts s b) : Kept s b? := by
  obtain ⟨b, rfl, hb⟩ := h
  unfold Kept
  rw [Stmt.written_singleton hs]
  exact .cons hb .nil

theorem kept_empty {span : Span} : Kept (.empty span) none := .nil

theorem inner_sure {s : Stmt} (kind : ScopeKind)
    (h : s.isEmpty = false → ∀ {H : Prop}, Sure J H (stmt s) (Enacts s)) :
    Sure J H (Attempt.optional (within kind (stmt s))) (Kept s) := by
  cases hs : s.isEmpty with
  | false => exact (within_sure kind (h hs)).optional.mono id fun _ hb => kept_of_enacts hs hb
  | true =>
    cases s with
    | empty span =>
      rw [stmt]
      refine (optional_within_fail kind).mono id fun b? hb => ?_
      subst hb
      exact kept_empty
    | _ => simp [Stmt.isEmpty] at hs

theorem optionalStmt_sure {s : Stmt}
    (h : s.isEmpty = false → ∀ {H : Prop}, Sure J H (stmt s) (Enacts s)) :
    Sure J H (Attempt.optional (stmt s)) (Kept s) := by
  cases hs : s.isEmpty with
  | false => exact (h hs).optional.mono id fun _ hb => kept_of_enacts hs hb
  | true =>
    cases s with
    | empty span =>
      have heq : Attempt.optional (stmt (.empty span)) = (return none) := by rw [stmt]; rfl
      rw [heq]
      exact Sure.pure fun _ => kept_empty
    | _ => simp [Stmt.isEmpty] at hs

mutual

theorem stmt_sure : ∀ (s : Stmt), s.isEmpty = false → ∀ {H : Prop}, Sure J H (stmt s) (Enacts s)
  | .empty _, h, _ => by simp [Stmt.isEmpty] at h
  | .block _ body, _, _ => by
    unfold stmt
    exact (within_sure .block (stmts_sure body)).bind fun bs => Sure.pure fun hs => .block hs.2
  | .declare _ decl, _, _ => by
    unfold stmt
    exact (localDecl_sure decl).bind fun bs => Sure.pure fun hs => .declare hs.2
  | .expr _ e, _, _ => by
    unfold stmt
    exact (expr_sure e).bind fun v => Sure.pure fun hs => .expr hs.2
  | .ifElse _ test yes none, _, _ => by
    unfold stmt
    refine (condition_sure test).optional.bind fun c? => ?_
    refine (inner_sure .block (stmt_sure yes)).bind fun yes? => ?_
    refine (Sure.ofOption fun hs => hs.1.2).bind fun c => Sure.pure fun hs => ?_
    exact .ifElse hs.2 hs.1.2 .nil
  | .ifElse _ test yes (some no), _, _ => by
    unfold stmt
    refine (condition_sure test).optional.bind fun c? => ?_
    refine (inner_sure .block (stmt_sure yes)).bind fun yes? => ?_
    refine (inner_sure .block (stmt_sure no)).bind fun no? => ?_
    refine (Sure.ofOption fun hs => hs.1.1.2).bind fun c => Sure.pure fun hs => ?_
    exact .ifElse hs.2 hs.1.1.2 hs.1.2
  | .whileDo _ test body, _, _ => by
    unfold stmt
    refine (condition_sure test).optional.bind fun c? => ?_
    refine (inner_sure .loop (stmt_sure body)).bind fun body? => ?_
    refine (Sure.ofOption fun hs => hs.1.2).bind fun c => Sure.pure fun hs => ?_
    exact .whileDo hs.2 hs.1.2
  | .doWhile _ body test, _, _ => by
    unfold stmt
    refine (inner_sure .loop (stmt_sure body)).bind fun body? => ?_
    exact (condition_sure test).bind fun c => Sure.pure fun hs => .doWhile hs.1.2 hs.2
  | .forLoop _ init test update body, _, _ => by
    unfold stmt
    refine within_sure .loop ?_
    refine (forInit_sure init).bind fun is => (optionalCondition_sure test).bind fun c => ?_
    refine (update_sure update).bind fun us => (inner_sure .block (stmt_sure body)).bind fun b? => ?_
    exact Sure.pure fun hs => .forLoop hs.1.1.1.2 hs.1.1.2 hs.1.2 hs.2
  | .breakLoop span, _, _ => by
    unfold stmt
    exact (jump_sure _ span).mono id fun _ hb => hb ▸ .breakLoop
  | .continueLoop span, _, _ => by
    unfold stmt
    exact (jump_sure _ span).mono id fun _ hb => hb ▸ .continueLoop
  | .returnValue span e, _, _ => by
    unfold stmt
    exact returned_sure e span
  | .throwValue span e, _, _ => by
    unfold stmt
    exact thrown_sure e span

theorem stmts_sure : ∀ (ss : List Stmt) {H : Prop},
    Sure J H (stmts ss) (List.Forall₂ Enacts (Stmt.written ss))
  | [], _ => by
    unfold stmts
    exact Sure.pure fun _ => .nil
  | s :: rest, _ => by
    unfold stmts
    refine (optionalStmt_sure (stmt_sure s)).bind fun s? => (stmts_sure rest).bind fun bs => ?_
    refine Sure.pure fun hs => ?_
    rw [Stmt.written_cons]
    exact List.rel_append hs.1.2 hs.2

end

end Bind

end Chunkwise
