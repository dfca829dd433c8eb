import Chunkwise.Binder.Bodies
import Chunkwise.Proofs.Binder.Populate
import Chunkwise.Proofs.Cache.Body

namespace Chunkwise.Bind

open Attempt

variable {c : Chart} {d : DeclaredType}

theorem updateType_agrees (path : Path) (f : TypeDef → TypeDef) :
    Agrees c.Fits (updateType path f) (updateType path f) fun _ => True :=
  .refl (.modify fun s hs => hs.keep (s.image.updateType_shape path f) rfl rfl hs.body)

theorem memberTaken_reports (path : Path) (name : String) : Reports (memberTaken path name) :=
  (Reports.gets _).bind fun _ => (Reports.gets _).bind fun _ => .pure _

theorem populateDeclarator_agrees (d : DeclaredType) (field : FieldDecl) (type : Ty) (v : Declarator) :
    Agrees c.Fits (populateDeclarator d field type v) (populateDeclarator d field type v)
      fun _ => True := by
  unfold populateDeclarator
  refine (memberTaken_reports _ _).agrees.bind fun taken _ => ?_
  refine .ite (refuse_agrees _ _) (.ite (refuse_agrees _ _) (.ite ?_ (updateType_agrees _ _)))
  exact (addSlot_agrees _ _).bind fun slot _ => updateType_agrees _ _

theorem checkMethod_reports (d : DeclaredType) (t : TypeDef) (m : MethodDecl) :
    Reports (checkMethod d t m) := by
  rcases checkMethod_cases d t m with ⟨hrun, -⟩ | ⟨problem, hrun⟩
  · rw [hrun]
    exact .pure _
  · rw [hrun]
    exact .refuse _ _

theorem enumMember_reports (type : String) (values : List (String × Int64)) (next : Int64)
    (m : EnumMemberDecl) : Reports (enumMember type values next m) := by
  unfold enumMember
  split
  · exact .refuse _ _
  · split
    · exact .pure _
    · split
      · exact .pure _
      · exact .refuse _ _

theorem enumMembers_agrees (type : String) (members : List MemberDecl) :
    ∀ (values : List (String × Int64)) (next : Int64), Agrees c.Fits
      (enumMembers type values next members) (enumMembers type values next members)
        fun _ => True := by
  induction members with
  | nil => exact fun _ _ => .pure trivial
  | cons m rest ih =>
    intro values next
    cases m with
    | enumMember m =>
      refine (enumMember_reports type values next m).agrees.optional.bind fun n? _ => ?_
      cases n? with
      | none => exact ih _ _
      | some n => exact ih _ _
    | _ => exact ih _ _

theorem populateEnum_agrees (d : DeclaredType) :
    Agrees c.Fits (populateEnum d) (populateEnum d) fun _ => True :=
  (enumMembers_agrees d.name d.members [] 0).bind fun _ _ => updateType_agrees _ _

theorem checkConformance_reports (d : DeclaredType) : Reports (checkConformance d) := by
  have hinterface : ∀ interface, Reports (checkInterface d interface) := fun interface =>
    (Reports.gets _).bind fun _ => (Reports.gets _).bind fun _ =>
      (Reports.forAll fun _ _ => .report _ _).bind fun _ => .pure _
  unfold checkConformance
  refine (Reports.gets _).bind fun t => ?_
  split
  · exact (Reports.forAll fun interface _ => hinterface interface).bind fun _ => .pure _
  · exact .pure _

section Members

variable [ask : NameLookup]

theorem populateBases_agrees (hask : ask.Follows c) (hd : d.inside.Located c.shape) :
    Agrees c.Fits (populateBases d) (@populateBases cachedLookup d) fun _ => True := by
  have heach : ∀ base ∈ d.head.bases,
      Agrees c.Fits (resolveBase d base) (@resolveBase cachedLookup d base) fun _ => True := by
    intro base _
    unfold resolveBase
    refine .ite (.pure trivial) ((lookupQualified_agrees hask hd.outer base).bind fun e? _ => ?_)
    rcases e? with _ | path | path
    · exact refuse_agrees _ _
    · exact refuse_agrees _ _
    · refine (Reports.gets _).agrees.bind fun t _ => .ite ?_ (refuse_agrees _ _)
      exact .ite (refuse_agrees _ _) (.pure trivial)
  exact (Agrees.keepSome heach).bind fun found _ => updateType_agrees _ _

theorem populateField_agrees (hask : ask.Follows c) (hd : d.inside.Located c.shape) (f : FieldDecl) :
    Agrees c.Fits (populateField d f) (@populateField cachedLookup d f) fun _ => True := by
  unfold populateField
  refine (Reports.gets _).agrees.bind fun t _ => .ite (refuse_agrees _ _) (.ite (refuse_agrees _ _) ?_)
  refine (resolveValueType_agrees hask hd f.type).bind fun type _ => ?_
  exact (Agrees.forAll fun v _ => populateDeclarator_agrees d f type v).bind fun _ _ => .pure trivial

theorem resolveParams_agrees (hask : ask.Follows c) {ctx : TypeContext} (hctx : ctx.Located c.shape)
    (ps : List Param) : ∀ seen : List (String × Ty), Agrees c.Fits (resolveParams ctx seen ps)
      (@resolveParams cachedLookup ctx seen ps) fun _ => True := by
  induction ps with
  | nil => exact fun _ => .pure trivial
  | cons p rest ih =>
    intro seen
    unfold resolveParams
    refine .ite ?_ ?_
    · refine (Reports.report _ _).agrees.bind fun _ _ => (ih seen).bind fun _ _ => ?_
      exact Reports.fail.agrees
    · refine (resolveValueType_agrees hask hctx p.type).optional.bind fun t? _ => ?_
      cases t? with
      | none => exact (ih seen).bind fun _ _ => Reports.fail.agrees
      | some t => exact (ih _).bind fun _ _ => .pure trivial

theorem populateMethod_agrees (hask : ask.Follows c) (hd : d.inside.Located c.shape) (m : MethodDecl) :
    Agrees c.Fits (populateMethod d m) (@populateMethod cachedLookup d m) fun _ => True := by
  unfold populateMethod
  refine (Reports.gets _).agrees.bind fun t _ => (checkMethod_reports d t m).agrees.bind fun _ _ => ?_
  refine (resolveType_agrees hask hd m.returns).bind fun returns _ => ?_
  refine (resolveParams_agrees hask hd m.params []).bind fun params _ => ?_
  exact .ite (refuse_agrees _ _) ((updateType_agrees _ _).bind fun _ _ => .pure trivial)

theorem populateConstructor_agrees (hask : ask.Follows c) (hd : d.inside.Located c.shape)
    (x : ConstructorDecl) : Agrees c.Fits (populateConstructor d x)
      (@populateConstructor cachedLookup d x) fun _ => True := by
  unfold populateConstructor
  refine (Reports.gets _).agrees.bind fun t _ => ?_
  refine .ite (refuse_agrees _ _) (.ite (refuse_agrees _ _) (.ite (refuse_agrees _ _) ?_))
  refine (resolveParams_agrees hask hd x.params []).bind fun params _ => ?_
  exact .ite (refuse_agrees _ _) ((updateType_agrees _ _).bind fun _ _ => .pure trivial)

theorem populateMembers_agrees (hask : ask.Follows c) (hd : d.inside.Located c.shape)
    (members : List MemberDecl) : ∀ p : PopulatedType, p.decl = d →
      Agrees c.Fits (populateMembers d p members) (@populateMembers cachedLookup d p members)
        fun p => p.decl = d := by
  induction members with
  | nil => exact fun p hp => .pure hp
  | cons m rest ih =>
    intro p hp
    cases m with
    | field f =>
      exact (populateField_agrees hask hd f).optional.bind fun _ _ => ih p hp
    | method m =>
      refine (populateMethod_agrees hask hd m).optional.bind fun i? _ => ?_
      cases i? with
      | none => exact ih p hp
      | some i => exact ih _ hp
    | constructor x =>
      refine (populateConstructor_agrees hask hd x).optional.bind fun i? _ => ?_
      cases i? with
      | none => exact ih p hp
      | some i => exact ih _ hp
    | _ => exact ih p hp

theorem populateType_agrees (hask : ask.Follows c) (hd : d.inside.Located c.shape) :
    Agrees c.Fits (populateType d) (@populateType cachedLookup d) fun p => p.decl = d := by
  unfold populateType
  refine (populateBases_agrees hask hd).bind fun _ _ => .ite ?_ ?_
  · exact (populateEnum_agrees d).bind fun _ _ => .pure rfl
  · exact populateMembers_agrees hask hd d.members ⟨d, [], []⟩ rfl

theorem populateTypes_agrees (hask : ask.Follows c) {ds : List DeclaredType}
    (hds : ∀ d ∈ ds, d.inside.Located c.shape) :
    Agrees c.Fits (populateTypes ds) (@populateTypes cachedLookup ds)
      fun ps => ∀ p ∈ ps, p.decl.inside.Located c.shape := by
  have heach : ∀ d ∈ ds, Agrees c.Fits (populateType d) (@populateType cachedLookup d)
      fun p => p.decl.inside.Located c.shape := fun d hd =>
    (populateType_agrees hask (hds d hd)).mono fun p hp => hp ▸ hds d hd
  refine (Agrees.keepSome heach).bind fun ps hps => ?_
  refine (Agrees.forAll (R := fun _ => True) fun d _ => (checkConformance_reports d).agrees).bind
    fun _ _ => .pure hps

theorem fieldInits_agrees (hask : ask.Follows c) (hd : d.inside.Located c.shape)
    (members : List MemberDecl) :
    Agrees c.Fits (fieldInits d members) (@fieldInits cachedLookup d members) fun _ => True := by
  have hdeclarator : ∀ (f : FieldDecl) (v : Declarator), Agrees c.Fits (declaratorInit d f v)
      (@declaratorInit cachedLookup d f v) fun _ => True := by
    intro f v
    unfold declaratorInit
    cases v.init with
    | none => exact .pure trivial
    | some init =>
      refine .ite (Agrees.bind (Q := fun _ => True) ?_ fun _ _ => .pure trivial)
        (Agrees.bind (Q := fun _ => True) ?_ fun _ _ => .pure trivial)
      · refine (Reports.gets _).agrees.bind fun t _ => (Reports.ofOption _).agrees.bind fun f _ => ?_
        refine (setBody_agrees hd).bind fun _ _ => ?_
        exact (converted_agrees hask _ _).bind fun _ _ => .pure trivial
      · refine (Reports.gets _).agrees.bind fun t _ => (Reports.ofOption _).agrees.bind fun x _ => ?_
        refine (setBody_agrees hd).bind fun _ _ => ?_
        exact (converted_agrees hask _ _).bind fun _ _ => .pure trivial
  induction members with
  | nil => exact .pure trivial
  | cons m rest ih =>
    cases m with
    | field f =>
      exact (Agrees.keepSome fun v _ => hdeclarator f v).bind fun _ _ =>
        ih.bind fun _ _ => .pure trivial
    | _ => exact ih

theorem methodCode_agrees (hask : ask.Follows c) {context : BodyContext}
    (hctx : context.ctx.Located c.shape) (m : Method) (body : Block) (span : Span) :
    Agrees c.Fits (methodCode context m body span) (@methodCode cachedLookup context m body span)
      fun _ => True := by
  unfold methodCode
  refine (setBody_agrees hctx).bind fun _ _ => ?_
  refine (Agrees.forAll (R := fun _ => True) fun p _ => updateScopes_agrees _).bind fun _ _ => ?_
  refine (stmts_agrees hask body.stmts).bind fun code _ => .ite (refuse_agrees _ _) ?_
  exact body_agrees.bind fun _ _ => .pure trivial

theorem bindMethod_agrees (hask : ask.Follows c) (hd : d.inside.Located c.shape)
    (m : MethodDecl × Nat) :
    Agrees c.Fits (bindMethod d m) (@bindMethod cachedLookup d m) fun _ => True := by
  unfold bindMethod
  cases m.1.body with
  | none => exact .pure trivial
  | some block =>
    refine (Reports.gets _).agrees.bind fun t _ => (Reports.ofOption _).agrees.bind fun method _ => ?_
    exact (methodCode_agrees hask hd method block _).bind fun _ _ => updateType_agrees _ _

theorem bindConstructor_agrees (hask : ask.Follows c) (hd : d.inside.Located c.shape)
    (x : ConstructorDecl × Nat) :
    Agrees c.Fits (bindConstructor d x) (@bindConstructor cachedLookup d x) fun _ => True := by
  unfold bindConstructor
  refine (Reports.gets _).agrees.bind fun t _ => (Reports.ofOption _).agrees.bind fun method _ => ?_
  exact (methodCode_agrees hask hd method x.1.body _).bind fun _ _ => updateType_agrees _ _

theorem bindAllBodies_agrees (hask : ask.Follows c) {ps : List PopulatedType}
    (hps : ∀ p ∈ ps, p.decl.inside.Located c.shape) :
    Agrees c.Fits (bindAllBodies ps) (@bindAllBodies cachedLookup ps) fun _ => True := by
  have heach : ∀ p ∈ ps, Agrees c.Fits (bindBodies p) (@bindBodies cachedLookup p)
      fun _ => True := by
    intro p hp
    have hd := hps p hp
    unfold bindBodies bindFieldInits
    refine .ite (.pure trivial) (Agrees.bind (Q := fun _ => True) ?_ fun statics _ => ?_)
    · refine (fieldInits_agrees hask hd p.decl.members).bind fun inits _ => ?_
      exact (updateType_agrees _ _).bind fun _ _ => .pure trivial
    · refine (Agrees.forAll fun m _ => bindMethod_agrees hask hd m).bind fun _ _ => ?_
      exact (Agrees.forAll fun x _ => bindConstructor_agrees hask hd x).bind fun _ _ => .pure trivial
  exact (Agrees.keepSome heach).bind fun _ _ => .pure trivial

end Members

end Chunkwise.Bind
