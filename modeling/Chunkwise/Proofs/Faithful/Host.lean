import Chunkwise.Binder.Unit
import Chunkwise.Proofs.Faithful.Stmt

namespace Chunkwise

open Attempt

/-- What is left of a list in which each element that counts leaves one thing and the others nothing. -/
theorem forall₂_filter_filterMap {α β : Type} {R : α → β → Prop} {p : α → Bool} {as : List α}
    {bs : List (Option β)}
    (h : List.Forall₂ (fun a b? => List.Forall₂ R ([a].filter p) b?.toList) as bs) :
    List.Forall₂ R (as.filter p) (bs.filterMap id) := by
  induction h with
  | nil => exact .nil
  | @cons a b? as bs hab _ ih =>
    have hall : List.Forall₂ R ([a].filter p ++ as.filter p) (b?.toList ++ bs.filterMap id) :=
      List.rel_append hab ih
    rw [← List.filter_append] at hall
    cases b? with
    | none => exact hall
    | some b => exact hall

namespace Bind

variable {J : TypeTable → Prop} {H : Prop}

theorem setBody_sure (b : BodyContext) : Sure J H (setBody b) fun _ => True :=
  Sure.modify (fun _ => rfl) fun _ => rfl

theorem addSlot_sure (name : String) (type : Ty) : Sure J H (addSlot name type) fun _ => True :=
  Sure.total fun _ => ⟨_, _, rfl, rfl, rfl, trivial⟩

theorem addVariable_sure (name : String) (type : Ty) (isReadonly : Bool) :
    Sure J H (addVariable name type isReadonly) fun _ => True := by
  unfold addVariable
  refine (addSlot_sure _ _).bind fun slot => (updateScopes_sure _).bind fun _ => ?_
  refine Sure.bind (Q := fun _ => True) (Sure.modify ?_ ?_) fun _ => Sure.pure fun _ => trivial
  · exact fun _ => rfl
  · exact fun _ => rfl

theorem isUnbound_sure (name : String) : Sure J H (isUnbound name) fun _ => True := by
  unfold isUnbound
  refine (Sure.gets _).bind fun known => ?_
  split
  · exact Sure.pure fun _ => trivial
  · refine body_sure.bind fun b => (lookupEntity_sure _ _).bind fun _ => ?_
    exact Sure.pure fun _ => trivial

theorem hostVariable_sure (decl : LocalDecl) (d : Declarator) :
    Sure J H (hostVariable decl d) fun b? =>
      List.Forall₂ Declarator.SetsVariable (Declarator.initialized [d]) b?.toList := by
  unfold hostVariable
  refine body_sure.bind fun b => ?_
  split
  · exact Sure.refuse _ _
  · refine (declarator_sure decl d).bind fun x => (addVariable_sure _ _ _).bind fun slot => ?_
    obtain ⟨t, init⟩ := x
    refine Sure.pure fun hs => ?_
    have hinit := hs.1.2
    cases hd : d.init with
    | none =>
      rw [hd] at hinit
      cases init with
      | none => simp [Declarator.initialized, hd]
      | some b => cases hinit
    | some e =>
      rw [hd] at hinit
      cases init with
      | none => cases hinit
      | some b =>
        cases hinit with
        | cons hb _ =>
          have hsets : d.SetsVariable (setVariable slot b) := ⟨e, b, slot, hd, hb, rfl⟩
          simpa [Declarator.initialized, hd] using hsets

theorem hostVariables_sure (decl : LocalDecl) : Sure J H (hostVariables decl)
    (List.Forall₂ Declarator.SetsVariable (Declarator.initialized decl.declarators)) := by
  unfold hostVariables
  refine (Sure.keepSome fun d _ => hostVariable_sure decl d).bind fun bs => Sure.pure fun hs => ?_
  exact forall₂_filter_filterMap hs.2

theorem implicitVariable_sure (name : String) (value : Expr) :
    Sure J H (implicitVariable name value) fun b =>
      ∃ slot be, Shows value be ∧ b = setVariable slot be := by
  unfold implicitVariable
  refine (value_sure value).bind fun v => ?_
  split
  · exact Sure.refuse _ _
  · refine (addVariable_sure _ _ _).bind fun slot => Sure.pure fun hs => ?_
    exact ⟨slot, v.expr, hs.1.2, rfl⟩

theorem hostExpr_sure (isLast : Bool) (e : Expr) : Sure J H (hostExpr isLast e) fun b =>
    ∃ be, Shows e be ∧ (b = .expr be ∨ b = .capture be) := by
  unfold hostExpr
  refine (expr_sure e).bind fun v => ?_
  split
  · exact Sure.pure fun hs => ⟨v.expr, hs.2, .inr rfl⟩
  · exact Sure.pure fun hs => ⟨v.expr, hs.2, .inl rfl⟩

theorem implicitTarget?_eq_some {e value : Expr} {name : String}
    (h : implicitTarget? e = some (name, value)) :
    ∃ span span', e = .assign span none (.name span' name) value := by
  unfold implicitTarget? at h
  split at h
  · cases h
    exact ⟨_, _, rfl⟩
  · cases h

theorem hostExprStmt_sure (isLast : Bool) (e : Expr) : Sure J H (hostExprStmt isLast e) fun b =>
    ∃ be, Shows e be ∧ (b = .expr be ∨ b = .capture be) := by
  unfold hostExprStmt
  split
  · next name value htarget =>
    obtain ⟨span, span', rfl⟩ := implicitTarget?_eq_some htarget
    refine (isUnbound_sure name).bind fun unbound => ?_
    split
    · refine (implicitVariable_sure name value).mono id fun b hb => ?_
      obtain ⟨slot, be, hbe, rfl⟩ := hb
      exact ⟨_, .assign (.static .name slot) hbe, .inl rfl⟩
    · exact hostExpr_sure isLast _
  · exact hostExpr_sure isLast e

theorem hostStmt_sure (isLast : Bool) (s : Stmt) :
    Sure J H (hostStmt isLast s) s.EnactedAtTop := by
  cases s with
  | declare span decl => exact hostVariables_sure decl
  | expr span e =>
    unfold hostStmt
    refine (hostExprStmt_sure isLast e).optional.bind fun b? => Sure.pure fun hs => ?_
    obtain ⟨-, b, rfl, be, hbe, rfl | rfl⟩ := hs
    · exact ⟨be, hbe, .inl rfl⟩
    · exact ⟨be, hbe, .inr rfl⟩
  | _ =>
    unfold hostStmt
    exact (optionalStmt_sure (stmt_sure _)).bind fun b? => Sure.pure fun hs => hs.2

theorem hostStmts_sure (ss : List Stmt) : Sure J H (hostStmts ss) fun bs =>
    ∃ parts, List.Forall₂ Stmt.EnactedAtTop ss parts ∧ bs = parts.flatten := by
  induction ss generalizing H with
  | nil => exact Sure.pure fun _ => ⟨[], .nil, rfl⟩
  | cons s rest ih =>
    unfold hostStmts
    refine (hostStmt_sure _ s).bind fun bound => ih.bind fun more => Sure.pure fun hs => ?_
    obtain ⟨⟨-, hbound⟩, parts, hparts, rfl⟩ := hs
    exact ⟨bound :: parts, .cons hbound hparts, rfl⟩

end Bind

end Chunkwise
