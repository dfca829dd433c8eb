import Chunkwise.Proofs.Binder.Member
import Chunkwise.Proofs.Faithful.Contract
import Chunkwise.Proofs.Faithful.Counterpart

namespace Chunkwise

open Attempt

/-- The expression names the methods of the group: the group has the object that it needs, and where it
has static methods, the expression consists of names only. -/
structure Selects (e : Expr) (g : MethodGroup) : Prop where
  owns : Owns e g.receiver
  receiver : g.dispatch ≠ .direct → ∃ b, g.receiver = some b
  statics : g.dispatch = .direct → ∀ x ∈ g.candidates, x.2.isStatic = true → Qualifies e

/-- What is denoted is a counterpart of the expression. -/
def Means (e : Expr) : Resolved → Prop
  | .value b _ => Shows e b
  | .place p _ _ => Locates e p
  | .type _ => Qualifies e
  | .space _ => Qualifies e
  | .methods g => Selects e g

theorem Means.paren {span : Span} {e : Expr} {r : Resolved} (h : Means e r) :
    Means (.paren span e) r := by
  cases r with
  | value b t => exact Shows.paren h
  | place p t isReadonly => exact Locates.paren h
  | type path => exact Qualifies.paren h
  | space path => exact Qualifies.paren h
  | methods g =>
    exact ⟨h.owns.paren, h.receiver, fun hd x hx hs => (h.statics hd x hx hs).paren⟩

def Ident.toExpr (id : Ident) : Expr := .name id.span id.name

namespace Bind

variable {α : Type} {J : TypeTable → Prop} {H : Prop}

theorem image_sure : Sure J H image fun _ => True := Sure.gets _

theorem body_sure : Sure J H body fun _ => True := Sure.gets _

theorem typeDef_sure (path : Path) : Sure J H (typeDef path) fun _ => True := Sure.gets _

theorem lookupEntity_sure (ctx : TypeContext) (name : String) :
    Sure J H (lookupEntity ctx name) fun _ => True := by
  refine Sure.total fun s => ?_
  unfold lookupEntity
  split
  · exact ⟨_, _, rfl, rfl, rfl, trivial⟩
  · split
    · exact ⟨_, _, rfl, rfl, rfl, trivial⟩
    · exact ⟨_, _, rfl, rfl, rfl, trivial⟩

theorem lookupQualified_sure (ctx : TypeContext) (q : QualifiedName) :
    Sure J H (lookupQualified ctx q) fun _ => True := by
  unfold lookupQualified
  split
  · exact Sure.pure fun _ => trivial
  · refine (lookupEntity_sure ctx _).bind fun e? => ?_
    split
    · exact image_sure.bind fun im => Sure.pure fun _ => trivial
    · exact Sure.pure fun _ => trivial

theorem resolveType_sure (ctx : TypeContext) (ref : TypeRef) :
    Sure J H (resolveType ctx ref) fun _ => True := by
  unfold resolveType
  split
  case h_8 => exact Sure.refuse _ _
  case h_9 =>
    refine (lookupQualified_sure ctx _).bind fun e? => ?_
    split
    · exact Sure.pure fun _ => trivial
    · exact Sure.refuse _ _
    · exact Sure.refuse _ _
  all_goals exact Sure.pure fun _ => trivial

theorem resolveValueType_sure (ctx : TypeContext) (ref : TypeRef) :
    Sure J H (resolveValueType ctx ref) fun _ => True := by
  unfold resolveValueType
  refine (resolveType_sure ctx ref).bind fun t => ?_
  split
  · exact Sure.refuse _ _
  · exact Sure.pure fun _ => trivial

theorem ofEnum_means {e : Expr} (h : Qualifies e) (path : Path) (n : Int64) :
    Means e (.ofEnum path n) := Shows.enumMember h path n

theorem ofStatic_means {e : Expr} (h : Qualifies e) (f : StaticField) : Means e (.ofStatic f) :=
  Locates.static h f.slot

theorem ofEntity_means {e : Expr} (h : Qualifies e) (entity : Entity) : Means e (.ofEntity entity) := by
  cases entity with
  | type path => exact h
  | space path => exact h

theorem ofBinding_means (id : Ident) (b : Binding) : Means id.toExpr (.ofBinding b) := by
  cases b with
  | frame slot type isReadonly => exact Locates.frame slot
  | «variable» slot type isReadonly => exact Locates.static .name slot

theorem static_means {e : Expr} (h : Qualifies e) (name : String)
    (candidates : List (MethodRef × Method)) :
    Means e (.methods ⟨name, none, candidates, .direct⟩) :=
  ⟨.names h, fun hd => absurd rfl hd, fun _ _ _ _ => h⟩

theorem enclosingMember_sure (outer : Path) (id : Ident) :
    Sure J H (enclosingMember outer id) fun r? => ∀ r, r? = some r → Means id.toExpr r := by
  unfold enclosingMember
  refine (typeDef_sure outer).bind fun d => body_sure.bind fun b => ?_
  split
  · next index f _ =>
    split
    · refine Sure.pure fun _ r hr => ?_
      cases hr
      exact Locates.own index
    · exact Sure.refuse _ _
  · split
    · next f _ =>
      refine Sure.pure fun _ r hr => ?_
      cases hr
      exact ofStatic_means .name f
    · split
      · next n _ =>
        refine Sure.pure fun _ r hr => ?_
        cases hr
        exact ofEnum_means .name outer n
      · simp only
        split
        · refine Sure.pure fun _ r hr => ?_
          cases hr
          refine ⟨?_, fun hd => absurd rfl hd, fun _ _ _ _ => .name⟩
          dsimp only
          split
          · exact .own
          · exact .names .name
        · refine image_sure.bind fun im => Sure.pure fun _ r hr => ?_
          obtain ⟨path, -, rfl⟩ := Option.map_eq_some_iff.mp hr
          exact Qualifies.name

theorem enclosingMembers_sure (id : Ident) (outers : List Path) :
    Sure J H (enclosingMembers id outers) fun r? => ∀ r, r? = some r → Means id.toExpr r := by
  induction outers generalizing H with
  | nil => exact Sure.pure (by simp)
  | cons outer rest ih =>
    unfold enclosingMembers
    refine (enclosingMember_sure outer id).bind fun r? => ?_
    split
    · next r =>
      refine Sure.pure fun hr r' hr' => ?_
      cases hr'
      exact hr.2 r rfl
    · exact ih

theorem registered_sure (id : Ident) :
    Sure J H (registered id.name) fun r? => ∀ r, r? = some r → Means id.toExpr r := by
  refine Sure.total fun s => ?_
  unfold registered
  split
  · split
    · next v _ =>
      split
      · refine ⟨_, _, rfl, rfl, rfl, fun r hr => ?_⟩
        cases hr
        exact Locates.static .name v.slot
      · exact ⟨_, _, rfl, rfl, rfl, by simp⟩
    · exact ⟨_, _, rfl, rfl, rfl, by simp⟩
  · exact ⟨_, _, rfl, rfl, rfl, by simp⟩

theorem hostHelper_sure (id : Ident) :
    Sure J H (hostHelper id.name) fun r? => ∀ r, r? = some r → Means id.toExpr r := by
  unfold hostHelper
  refine body_sure.bind fun b => ?_
  split
  · refine Sure.pure fun _ r hr => ?_
    cases hr
    exact static_means .name _ _
  · exact Sure.pure (by simp)

theorem resolveName_sure (id : Ident) : Sure J H (resolveName id) (Means id.toExpr) := by
  unfold resolveName
  refine body_sure.bind fun b => ?_
  split
  · exact Sure.pure fun _ => ofBinding_means id _
  · refine (registered_sure id).bind fun r? => ?_
    split
    · exact Sure.pure fun hr => hr.2 _ rfl
    · refine (enclosingMembers_sure id _).bind fun r? => ?_
      split
      · exact Sure.pure fun hr => hr.2 _ rfl
      · refine (hostHelper_sure id).bind fun r? => ?_
        split
        · exact Sure.pure fun hr => hr.2 _ rfl
        · refine (lookupEntity_sure _ _).bind fun e? => ?_
          split
          · exact Sure.pure fun _ => ofEntity_means .name _
          · exact Sure.refuse _ _

theorem staticMember_sure {e : Expr} {span : Span} {id : Ident} (h : H → Qualifies e) (path : Path) :
    Sure J H (staticMember path id) (Means (.member span e id)) := by
  have hq : H → Qualifies (.member span e id) := fun hs => (h hs).member
  unfold staticMember
  refine (typeDef_sure path).bind fun d => ?_
  split
  · exact Sure.pure fun hs => ofEnum_means (hq hs.1) _ _
  · split
    · exact Sure.pure fun hs => ofStatic_means (hq hs.1) _
    · refine image_sure.bind fun im => ?_
      split
      · exact Sure.pure fun hs => hq hs.1.1
      · simp only
        split
        · exact Sure.pure fun hs => static_means (hq hs.1.1) _ _
        · split
          · exact Sure.refuse _ _
          · exact Sure.refuse _ _

theorem objectMember_sure {e : Expr} {span : Span} {id : Ident} {target : BoundExpr}
    (h : H → Shows e target) (path : Path) (d : TypeDef) :
    Sure J H (objectMember target path d id) fun r? => ∀ r, r? = some r →
      Means (.member span e id) r := by
  unfold objectMember
  split
  · next index f _ =>
    refine body_sure.bind fun b => Sure.pure fun hs r hr => ?_
    cases hr
    exact Locates.field (h hs.1) index
  · simp only
    split
    · refine Sure.pure fun hs r hr => ?_
      cases hr
      refine ⟨.member (h hs), fun hd => absurd rfl hd, fun _ x hx hstatic => ?_⟩
      have hobject := (List.mem_filter.mp hx).2
      simp [hstatic] at hobject
    · split
      · exact Sure.refuse _ _
      · exact Sure.pure (by simp)

theorem member_means {e : Expr} {span : Span} {id : Ident} {target : BoundExpr} (h : Shows e target)
    (candidates : List (MethodRef × Method)) {dispatch : Dispatch} (hd : dispatch ≠ .direct) :
    Means (.member span e id) (.methods ⟨id.name, some target, candidates, dispatch⟩) :=
  ⟨.member h, fun _ => ⟨target, rfl⟩, fun hdirect => absurd hdirect hd⟩

theorem namedMember_sure {e : Expr} {span : Span} {id : Ident} {target : BoundExpr}
    (h : H → Shows e target) (path : Path) :
    Sure J H (namedMember target path id) fun r? => ∀ r, r? = some r →
      Means (.member span e id) r := by
  unfold namedMember
  refine (typeDef_sure path).bind fun d => ?_
  split
  · exact objectMember_sure (fun hs => h hs.1) path d
  · exact objectMember_sure (fun hs => h hs.1) path d
  · simp only
    split
    · exact Sure.pure (by simp)
    · refine Sure.pure fun hs r hr => ?_
      cases hr
      exact member_means (h hs.1) _ (by simp)
  · exact Sure.pure (by simp)

theorem foundMember_sure {e : Expr} {found : Option Resolved}
    (h : H → ∀ r, found = some r → Means e r) (type : Ty) (id : Ident) :
    Sure J H (match found with
      | some r => pure r
      | none => refuse (.unknownMember type.text id.name) id.span) (Means e) := by
  split
  · exact Sure.pure fun hs => h hs _ rfl
  · exact Sure.refuse _ _

theorem valueMember_sure {e : Expr} {span : Span} {id : Ident} {target : BoundExpr}
    (h : H → Shows e target) (type : Ty) :
    Sure J H (valueMember target type id) (Means (.member span e id)) := by
  unfold valueMember
  split
  · exact Sure.pure fun hs => member_means (h hs) _ (by simp)
  · split
    · exact Sure.pure fun hs => Shows.textLength (h hs)
    · simp only
      split
      · exact (namedMember_sure h _).bind fun found => foundMember_sure (fun hs => hs.2) _ id
      · exact Sure.bind (Q := fun r? : Option Resolved => r? = none) (Sure.pure fun _ => rfl)
          fun found => foundMember_sure (fun hs r hr => by simp [hs.2] at hr) _ id

theorem memberOf_sure {e : Expr} {target : Resolved} (h : H → Means e target) (span : Span)
    (id : Ident) : Sure J H (memberOf target id) (Means (.member span e id)) := by
  unfold memberOf
  split
  · refine image_sure.bind fun im => ?_
    split
    · exact Sure.pure fun hs => ofEntity_means (h hs.1).member _
    · exact Sure.refuse _ _
  · exact staticMember_sure h _
  · exact Sure.refuse _ _
  · exact valueMember_sure h _
  · exact valueMember_sure (fun hs => .load (h hs)) _

end Bind

end Chunkwise
