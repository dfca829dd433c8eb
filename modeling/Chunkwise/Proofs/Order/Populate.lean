import Chunkwise.Binder.Populate
import Chunkwise.Proofs.Faithful.Table
import Chunkwise.Proofs.Order.Overview

/-!
While one type is being populated, code sees what kinds of types lie where, and the type itself. So a type
gets the same members, with a problem in both states or in none, whether or not other types have theirs.
-/
namespace Chunkwise

open Attempt

namespace TypeDef.Resembles

variable {d e : TypeDef}

theorem withInterfaces (h : d.Resembles e) (is : List Path) :
    ({ d with interfaces := is } : TypeDef).Resembles { e with interfaces := is } := by
  have hedit := congrArg (fun x : TypeDef => { x with interfaces := is }) h.outline_eq
  exact hedit

theorem withEnum (h : d.Resembles e) (values : List (String × Int64)) :
    ({ d with enumMembers := values } : TypeDef).Resembles { e with enumMembers := values } := by
  have hedit := congrArg (fun x : TypeDef => { x with enumMembers := values }) h.outline_eq
  exact hedit

theorem addField (h : d.Resembles e) (f : InstanceField) :
    ({ d with fields := d.fields ++ [f] } : TypeDef).Resembles
      { e with fields := e.fields ++ [f] } := by
  have hedit := congrArg (fun x : TypeDef => { x with fields := x.fields ++ [f] }) h.outline_eq
  exact hedit

theorem addStatic (h : d.Resembles e) {f g : StaticField} (hfg : f.Resembles g) :
    ({ d with statics := d.statics ++ [f] } : TypeDef).Resembles
      { e with statics := e.statics ++ [g] } := by
  have hadd : ∀ (x : TypeDef) (w : StaticField), ({ x with statics := x.statics ++ [w] } : TypeDef).outline =
      { x.outline with statics := x.outline.statics ++ [w.outline] } := by
    intro x w
    simp [TypeDef.outline]
  unfold TypeDef.Resembles
  rw [hadd, hadd, h.outline_eq, show f.outline = g.outline from hfg]

theorem addMethod (h : d.Resembles e) (m : Method) :
    ({ d with methods := d.methods ++ [m] } : TypeDef).Resembles
      { e with methods := e.methods ++ [m] } := by
  have hadd : ∀ x : TypeDef, ({ x with methods := x.methods ++ [m] } : TypeDef).outline =
      { x.outline with methods := x.outline.methods ++ [m.outline] } := by
    intro x
    simp [TypeDef.outline]
  unfold TypeDef.Resembles
  rw [hadd, hadd, h.outline_eq]

theorem addConstructor (h : d.Resembles e) (m : Method) :
    ({ d with constructors := d.constructors ++ [m] } : TypeDef).Resembles
      { e with constructors := e.constructors ++ [m] } := by
  have hadd : ∀ x : TypeDef, ({ x with constructors := x.constructors ++ [m] } : TypeDef).outline =
      { x.outline with constructors := x.outline.constructors ++ [m.outline] } := by
    intro x
    simp [TypeDef.outline]
  unfold TypeDef.Resembles
  rw [hadd, hadd, h.outline_eq]

end TypeDef.Resembles

/-- The type at a path is being populated in both states. The other types are of the same kinds; on the
left they are those of the table. -/
structure Beside (path : Path) (T : TypeTable) (v : Overview TypeKind) (m n : Nat)
    (s t : BindState) : Prop extends Abreast TypeDef.kind v m n s t where
  own : Option.Rel TypeDef.Resembles (s.image.typeDef? path) (t.image.typeDef? path)
  others : ∀ p, p ≠ path → s.image.typeDef? p = T p

namespace Beside

variable {path : Path} {T : TypeTable} {v : Overview TypeKind} {m n : Nat} {s t s' t' : BindState}

theorem keep (h : Beside path T v m n s t) (hs : s'.image = s.image) (ht : t'.image = t.image)
    (husings : s'.usings = s.usings) (husings' : t'.usings = t.usings)
    (hissues : s'.issues = s.issues) (hissues' : t'.issues = t.issues) : Beside path T v m n s' t' where
  toAbreast := by
    refine h.toAbreast.keep ?_ ?_ hissues hissues'
    · simp only [BindState.overview, BindState.allUsings, hs, husings]
    · simp only [BindState.overview, BindState.allUsings, ht, husings']
  own := by
    rw [hs, ht]
    exact h.own
  others := by
    rw [hs]
    exact h.others

theorem lenient (path : Path) (T : TypeTable) (v : Overview TypeKind) (m n : Nat) :
    @Lenient Bind.lookupAnew (Beside path T v m n) :=
  letI := Bind.lookupAnew
  { issue := fun _ _ i j h => ⟨h.toAbreast.push i j, h.own, h.others⟩
    find := Bind.lookupAnew_parallel (fun _ _ h => h.toAbreast.lookupUncached)
      fun _ _ _ _ h => h.keep rfl rfl rfl rfl rfl rfl
    lookup := fun _ _ h => h.toAbreast.lookup }

end Beside

namespace Bind

variable {path : Path} {T : TypeTable} {v : Overview TypeKind} {m n : Nat}

theorem own_parallel :
    Parallel (Beside path T v m n) TypeDef.Resembles (typeDef path) (typeDef path) := by
  refine .gets fun s t hst => ?_
  have hrel := hst.own
  generalize s.image.typeDef? path = d? at hrel ⊢
  generalize t.image.typeDef? path = e? at hrel ⊢
  cases hrel with
  | none => rfl
  | some hde => exact hde

theorem kind_parallel (p : Path) :
    Parallel (Beside path T v m n) (fun t t' => t.kind = t'.kind) (typeDef p) (typeDef p) := by
  refine .gets fun s t hst => ?_
  have hkind := hst.toAbreast.types p
  generalize s.image.typeDef? p = d? at hkind ⊢
  generalize t.image.typeDef? p = e? at hkind ⊢
  cases d? <;> cases e? <;> simp_all

theorem edit_parallel {f g : TypeDef → TypeDef} (hf : ∀ d, (f d).kind = d.kind)
    (hg : ∀ d, (g d).kind = d.kind) (h : ∀ d e, d.Resembles e → (f d).Resembles (g e)) :
    Parallel (Beside path T v m n) (fun _ _ => True) (updateType path f) (updateType path g) := by
  refine .modify fun s t hst => ⟨?_, ?_, fun p hp => ?_⟩
  · exact hst.toAbreast.keep (s.overview_updateType path hf) (t.overview_updateType path hg) rfl rfl
  · have hown := hst.own
    rw [Image.typeDef?_updateType, Image.typeDef?_updateType, if_pos rfl, if_pos rfl]
    generalize s.image.typeDef? path = d? at hown ⊢
    generalize t.image.typeDef? path = e? at hown ⊢
    cases hown with
    | none => exact .none
    | some hde => exact .some (h _ _ hde)
  · change (s.image.updateType path f).typeDef? p = T p
    rw [Image.typeDef?_updateType, if_neg hp]
    exact hst.others p hp

theorem addSlot_parallel (name : String) (type : Ty) :
    Parallel (Beside path T v m n) (fun _ _ => True) (addSlot name type) (addSlot name type) :=
  fun _ _ hst => ⟨.some trivial, hst.keep rfl rfl rfl rfl rfl rfl⟩

/-- Where the parts of an initializer stand does not matter for its value. -/
theorem enumConstant?_relocate (f : Span → Span) (values : List (String × Int64)) :
    ∀ e : Expr, enumConstant? values (e.relocate f) = enumConstant? values e
  | .paren _ e => by
    unfold Expr.relocate enumConstant?
    exact enumConstant?_relocate f values e
  | .unary _ op e => by
    unfold Expr.relocate
    cases op with
    | neg =>
      unfold enumConstant?
      rw [enumConstant?_relocate f values e]
    | plus =>
      unfold enumConstant?
      exact enumConstant?_relocate f values e
    | not => rfl
  | .int .. | .double .. | .str .. | .bool .. | .null _ | .thisRef _ | .name .. | .member ..
  | .call .. | .new .. | .binary .. | .assign .. | .step .. | .cond .. => by
    unfold Expr.relocate
    rfl

section Parts

variable [NameLookup] {d : DeclaredType} (h : Lenient (Beside d.path T v m n))
include h

theorem resolveBase_parallel (base : QualifiedName) :
    Parallel (Beside d.path T v m n) Eq (resolveBase d base) (resolveBase d.unplaced base.bare) := by
  unfold resolveBase
  refine .ite (by rw [QualifiedName.bare, QualifiedName.relocate_text]; rfl) (.pure rfl) ?_
  refine (h.lookupQualified_parallel d.ctx base).bind fun e? _ he => ?_
  subst he
  rcases e? with _ | p | p
  · exact h.refuse_parallel
  · exact h.refuse_parallel
  · refine (kind_parallel p).bind fun t t' ht => .ite (by rw [ht]) ?_ (h.refuse_parallel)
    exact .ite Iff.rfl (h.refuse_parallel) (.pure rfl)

theorem populateBases_parallel :
    Parallel (Beside d.path T v m n) (fun _ _ => True) (populateBases d)
      (populateBases d.unplaced) := by
  unfold populateBases
  refine (Parallel.keepSome QualifiedName.bare fun base _ => resolveBase_parallel h base).bind
    fun found found' hfound => ?_
  obtain rfl : found = found' := List.forall₂_eq_eq_eq ▸ hfound
  exact edit_parallel (fun _ => rfl) (fun _ => rfl) fun _ _ ht => ht.withInterfaces _

theorem memberTaken_parallel (name : String) :
    Parallel (Beside d.path T v m n) Eq (memberTaken d.path name) (memberTaken d.path name) := by
  unfold memberTaken
  refine own_parallel.bind fun t t' ht => (image_parallel h.steady).bind fun im im' him => .pure ?_
  rw [ht.field?, rel_isSome (ht.static? name), Image.nestedType?_of_lookup him,
    forall₂_isEmpty (ht.methodsNamed name)]

theorem populateDeclarator_parallel (field : FieldDecl) (type : Ty) (w : Declarator) :
    Parallel (Beside d.path T v m n) (fun _ _ => True) (populateDeclarator d field type w)
      (populateDeclarator d.unplaced field.unplaced type w.unplaced) := by
  unfold populateDeclarator
  refine (memberTaken_parallel h w.name.name).bind fun taken _ htaken => ?_
  subst htaken
  refine .ite Iff.rfl (h.refuse_parallel) ?_
  refine .ite ?_ (h.refuse_parallel) (.ite Iff.rfl ?_ ?_)
  · change _ ↔ (field.modifiers.contains .constField && (w.init.map Expr.unplaced).isNone) = true
    rw [Option.isNone_map]
  · refine (addSlot_parallel _ _).bind fun slot slot' _ => ?_
    exact edit_parallel (fun _ => rfl) (fun _ => rfl) fun _ _ ht => ht.addStatic rfl
  · exact edit_parallel (fun _ => rfl) (fun _ => rfl) fun _ _ ht => ht.addField _

theorem populateField_parallel (field : FieldDecl) :
    Parallel (Beside d.path T v m n) (fun _ _ => True) (populateField d field)
      (populateField d.unplaced field.unplaced) := by
  unfold populateField
  refine own_parallel.bind fun t t' ht => ?_
  rw [ht.kind, ht.isStatic]
  refine .ite Iff.rfl (h.refuse_parallel) (.ite Iff.rfl (h.refuse_parallel) ?_)
  refine (h.resolveValueType_parallel d.inside field.type).bind fun type _ htype => ?_
  subst htype
  exact (Parallel.forAll_map (B := fun _ _ => True) Declarator.unplaced fun w _ =>
    populateDeclarator_parallel h field type w).bind fun _ _ _ => .pure trivial

theorem resolveParams_parallel (ctx : TypeContext) (ps : List Param) (known : List (String × Ty)) :
    Parallel (Beside d.path T v m n) Eq (resolveParams ctx known ps)
      (resolveParams ctx known (ps.map Param.unplaced)) := by
  induction ps generalizing known with
  | nil => exact .pure rfl
  | cons p rest ih =>
    unfold List.map resolveParams
    refine .ite Iff.rfl ?_ ?_
    · refine (h.report_parallel).andThen ?_
      exact (ih known).bind fun _ _ _ => .fail
    · refine (h.resolveValueType_parallel ctx p.type).optional.bind fun type? type'? htype => ?_
      cases htype with
      | none => exact (ih known).bind fun _ _ _ => .fail
      | some htype =>
        subst htype
        refine (ih _).bind fun others _ hothers => ?_
        subst hothers
        exact .pure rfl

theorem checkMethod_parallel {t t' : TypeDef} (ht : t.Resembles t') (f : MethodDecl) :
    Parallel (Beside d.path T v m n) (fun _ _ => True) (checkMethod d t f)
      (checkMethod d.unplaced t' f.unplaced) := by
  have hbody : f.unplaced.body = f.body.map Block.unplaced := rfl
  unfold checkMethod
  rw [ht.kind, ht.isStatic, ht.isAbstract, hbody, Option.isSome_map, Option.isNone_map]
  have hlast : Parallel (Beside d.path T v m n) (fun _ _ => True)
      (if (!f.modifiers.contains .staticMember && t'.isStatic) = true then
        refuse (.instanceInStatic d.name) f.name.span else pure ())
      (if (!f.modifiers.contains .staticMember && t'.isStatic) = true then
        refuse (.instanceInStatic d.name) f.name.bare.span else pure ()) :=
    .ite Iff.rfl (h.refuse_parallel) (.pure trivial)
  have hrefused : ∀ {problem problem' : Problem} {span span' : Span}, Parallel (Beside d.path T v m n)
      (fun _ _ => True) (refuse problem span : Bind PUnit) (refuse problem' span' : Bind PUnit) :=
    h.refuse_parallel
  refine .ite Iff.rfl (.ite Iff.rfl (hrefused.andThen hlast) hlast) ?_
  refine .ite Iff.rfl (hrefused.andThen hlast) (.ite Iff.rfl ?_ hlast)
  exact .ite Iff.rfl (hrefused.andThen hlast) (.ite Iff.rfl (hrefused.andThen hlast) hlast)

theorem populateMethod_parallel (f : MethodDecl) :
    Parallel (Beside d.path T v m n) Eq (populateMethod d f)
      (populateMethod d.unplaced f.unplaced) := by
  unfold populateMethod
  refine own_parallel.bind fun t t' ht => (checkMethod_parallel h ht f).andThen ?_
  refine (h.resolveType_parallel d.inside f.returns).bind fun returns _ hreturns => ?_
  subst hreturns
  refine (resolveParams_parallel h d.inside f.params []).bind fun params _ hparams => ?_
  subst hparams
  have hclash := any_congr_of_forall₂ (p := fun q => sameParams q.2.params params)
    (q := fun q => sameParams q.2.params params) (fun x y hxy => by rw [hxy.2.params])
    (ht.methodsNamed f.name.name)
  refine .ite ?_ (h.refuse_parallel) ?_
  · rw [ht.field?, rel_isSome (ht.static? _), hclash]
    rfl
  · rw [ht.kind, ht.methods.length_eq]
    refine Parallel.andThen (edit_parallel (fun _ => rfl) (fun _ => rfl) fun _ _ hr => ?_) (.pure rfl)
    exact hr.addMethod _

theorem populateConstructor_parallel (c : ConstructorDecl) :
    Parallel (Beside d.path T v m n) Eq (populateConstructor d c)
      (populateConstructor d.unplaced c.unplaced) := by
  unfold populateConstructor
  refine own_parallel.bind fun t t' ht => ?_
  rw [ht.kind, ht.isStatic]
  refine .ite Iff.rfl (h.refuse_parallel) (.ite Iff.rfl (h.refuse_parallel) ?_)
  refine .ite Iff.rfl (h.refuse_parallel) ?_
  refine (resolveParams_parallel h d.inside c.params []).bind fun params _ hparams => ?_
  subst hparams
  have hclash := any_congr_of_forall₂ (p := fun q => sameParams q.params params)
    (q := fun q => sameParams q.params params) (fun x y hxy => by rw [hxy.params]) ht.constructors
  refine .ite (by rw [hclash]) (h.refuse_parallel) ?_
  rw [ht.constructors.length_eq]
  refine Parallel.andThen (edit_parallel (fun _ => rfl) (fun _ => rfl) fun _ _ hr => ?_) (.pure rfl)
  exact hr.addConstructor _

theorem enumMember_parallel (type : String) (values : List (String × Int64)) (next : Int64)
    (f : EnumMemberDecl) :
    Parallel (Beside d.path T v m n) Eq (enumMember type values next f)
      (enumMember type values next f.unplaced) := by
  have hvalue : f.unplaced.value = f.value.map Expr.unplaced := rfl
  unfold enumMember
  rw [hvalue]
  refine .ite Iff.rfl (h.refuse_parallel) ?_
  cases f.value with
  | none => exact .pure rfl
  | some e =>
    dsimp only [Option.map]
    rw [Expr.unplaced, enumConstant?_relocate]
    cases enumConstant? values e with
    | some k => exact .pure rfl
    | none => exact h.refuse_parallel

theorem enumMembers_parallel (type : String) (ms : List MemberDecl) (values : List (String × Int64))
    (next : Int64) :
    Parallel (Beside d.path T v m n) Eq (enumMembers type values next ms)
      (enumMembers type values next (MemberDecl.unplacedAll ms)) := by
  induction ms generalizing values next with
  | nil => exact .pure rfl
  | cons member rest ih =>
    unfold MemberDecl.unplacedAll
    cases member with
    | enumMember f =>
      unfold MemberDecl.unplaced enumMembers
      refine (enumMember_parallel h type values next f).optional.bind fun k? k'? hk => ?_
      cases hk with
      | none => exact ih values next
      | some hk =>
        subst hk
        exact ih _ _
    | _ =>
      unfold MemberDecl.unplaced enumMembers
      exact ih values next

theorem populateEnum_parallel :
    Parallel (Beside d.path T v m n) (fun _ _ => True) (populateEnum d) (populateEnum d.unplaced) := by
  unfold populateEnum
  refine (enumMembers_parallel h d.name d.members [] 0).bind fun values _ hvalues => ?_
  subst hvalues
  exact edit_parallel (fun _ => rfl) (fun _ => rfl) fun _ _ ht => ht.withEnum _

theorem populateMembers_parallel (ms : List MemberDecl) (p : PopulatedType) :
    Parallel (Beside d.path T v m n) (fun q q' => q.unplaced = q') (populateMembers d p ms)
      (populateMembers d.unplaced p.unplaced (MemberDecl.unplacedAll ms)) := by
  induction ms generalizing p with
  | nil => exact .pure rfl
  | cons member rest ih =>
    unfold MemberDecl.unplacedAll
    cases member with
    | field f =>
      unfold MemberDecl.unplaced populateMembers
      exact (populateField_parallel h f).optional.bind fun _ _ _ => ih p
    | method f =>
      unfold MemberDecl.unplaced populateMembers
      refine (populateMethod_parallel h f).optional.bind fun i? i'? hi => ?_
      cases hi with
      | none => exact ih p
      | @some i _ hi =>
        subst hi
        have hadd : ({ p with methods := p.methods ++ [(f, i)] } : PopulatedType).unplaced =
            { p.unplaced with methods := p.unplaced.methods ++ [(f.unplaced, i)] } := by
          simp [PopulatedType.unplaced]
        have hrest := ih { p with methods := p.methods ++ [(f, i)] }
        rw [hadd] at hrest
        exact hrest
    | constructor c =>
      unfold MemberDecl.unplaced populateMembers
      refine (populateConstructor_parallel h c).optional.bind fun i? i'? hi => ?_
      cases hi with
      | none => exact ih p
      | @some i _ hi =>
        subst hi
        have hadd : ({ p with constructors := p.constructors ++ [(c, i)] } : PopulatedType).unplaced =
            { p.unplaced with constructors := p.unplaced.constructors ++ [(c.unplaced, i)] } := by
          simp [PopulatedType.unplaced]
        have hrest := ih { p with constructors := p.constructors ++ [(c, i)] }
        rw [hadd] at hrest
        exact hrest
    | _ =>
      unfold MemberDecl.unplaced populateMembers
      exact ih p

theorem populateType_parallel :
    Parallel (Beside d.path T v m n) (fun q q' => q.unplaced = q') (populateType d)
      (populateType d.unplaced) := by
  unfold populateType
  refine (populateBases_parallel h).andThen (.ite Iff.rfl ?_ ?_)
  · exact (populateEnum_parallel h).andThen (.pure rfl)
  · exact populateMembers_parallel h d.members ⟨d, [], []⟩

end Parts

theorem isImplemented_of_resembles {t t' : TypeDef} (ht : t.Resembles t') {f f' : Method}
    (hf : f.Resembles f') : isImplemented t f = isImplemented t' f' := by
  unfold isImplemented
  rw [hf.name]
  refine any_congr_of_forall₂ (fun x y hxy => ?_) (ht.methodsNamed f'.name)
  rw [hxy.2.isStatic, hxy.2.returns, hxy.2.params, hf.returns, hf.params]

section Conformance

variable [NameLookup] {w : Overview TypeDef} (h : Lenient (Abreast TypeDef.outline w m n))
  (d : DeclaredType)
include h

theorem checkInterface_parallel (interface : Path) :
    Parallel (Abreast TypeDef.outline w m n) (fun _ _ => True) (checkInterface d interface)
      (checkInterface d.unplaced interface) := by
  unfold checkInterface
  refine (typeDef_abreast interface).bind fun required required' hrequired => ?_
  refine (typeDef_abreast d.path).bind fun t t' ht => ?_
  have hmissing := filter_forall₂ (p := fun f => !isImplemented t f) (q := fun f => !isImplemented t' f)
    (fun f f' hf => by rw [isImplemented_of_resembles ht hf]) hrequired.methods
  exact (Parallel.forAll (B := fun _ _ => True) hmissing fun _ _ _ => h.report_parallel).bind
    fun _ _ _ => .pure trivial

theorem checkConformance_parallel :
    Parallel (Abreast TypeDef.outline w m n) (fun _ _ => True) (checkConformance d)
      (checkConformance d.unplaced) := by
  unfold checkConformance
  refine (typeDef_abreast d.path).bind fun t t' ht => ?_
  rw [ht.hasObjects, ht.interfaces]
  refine .ite Iff.rfl ?_ (.pure trivial)
  exact (Parallel.forAll (S := Eq) (B := fun _ _ => True) (List.forall₂_same.mpr fun _ _ => rfl)
    fun p _ hp => hp ▸ checkInterface_parallel h d p).bind fun _ _ _ => .pure trivial

end Conformance

end Bind

end Chunkwise
