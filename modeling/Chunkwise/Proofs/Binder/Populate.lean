import Chunkwise.Proofs.Binder.Ongoing
import Chunkwise.Proofs.Binder.Scope
import Mathlib.Data.List.Nodup

/-!
Every step that adds a member checks what the member needs to be well-formed. A type that has been
populated lacks exactly the bodies listed with it, and if no problem was reported, every class and
struct has the members of the interfaces it lists.
-/
namespace Chunkwise

open Attempt

namespace Bind

variable {α β : Type} {old : Session} {ds : List DeclaredType} {s s₀ : BindState}
  {p : PopulatedType}

/-- First look, then act on a state that differs in issues and remembered names only. -/
theorem quietThen {q : Bind α} {f : α → Bind β} {R : α → Prop} {Q : β → BindState → Prop}
    {E : BindState → Prop} (hcache : ∀ x ∈ s.cache, x.2.Known s.image) (hq : Yields s.Quiet q R)
    (hf : ∀ a s', s.Quiet s' → R a → Triple (· = s') (f a) Q E) (hE : ∀ s', s.Quiet s' → E s') :
    Triple (· = s) (q >>= f) Q E := by
  refine Triple.bind (Q := fun a s' => s.Quiet s' ∧ R a) ?_ fun a s' hs' => ?_
  · rintro s' rfl
    exact Triple.mono hq (fun _ h => h) (fun _ _ h => h) hE s' (.refl hcache)
  · exact hf a s' hs'.1 hs'.2 s' rfl

theorem refuse_then {Q : α → BindState → Prop} {E : BindState → Prop}
    (hcache : ∀ x ∈ s.cache, x.2.Known s.image) (hE : ∀ s', s.Quiet s' → E s') (problem : Problem)
    (span : Span) : Triple (· = s) (refuse problem span) Q E := by
  rintro s' rfl
  exact hE _ (refuse_quiet (α := α) (Q := fun _ => False) problem span s' (.refl hcache))

theorem usingTarget_quiet (u : UsingDirective) :
    Yields s.Quiet (usingTarget u) fun e => e.Known s.image := by
  unfold usingTarget
  refine image_quiet.bind fun im him => ?_
  subst him
  split
  · next hl => exact Yields.pure trivial
  · next hl =>
    split
    · exact Yields.pure (known_of_lookup hl)
    · exact refuse_quiet _ _
  · exact refuse_quiet _ _

theorem aliasTaken_quiet (aliasName target : String) :
    Yields s.Quiet (aliasTaken aliasName target) fun _ => True :=
  Yields.gets fun _ _ => trivial

theorem bindUsing_ongoing {im : Image} (u : UsingDirective) :
    Yields (fun s => s.Ongoing old ds ∧ s.image = im) (bindUsing u) fun _ => True := by
  rintro s ⟨hs, him⟩
  have hquiet : ∀ s', s.Quiet s' → s'.Ongoing old ds ∧ s'.image = im :=
    fun s' hq => ⟨hs.quiet hq, hq.image.trans him⟩
  -- the directive is added to a state in which nothing else has changed
  have hadd : ∀ (e : Entity) (s' : BindState), s.Quiet s' → e.Known s.image →
      Triple (· = s') (Attempt.modify fun s => { s with
        usings := s.usings ++ [⟨u.aliasName.map Ident.name, e, u.target.text⟩] })
        (fun _ s => (s.Ongoing old ds ∧ s.image = im) ∧ True)
        fun s => s.Ongoing old ds ∧ s.image = im := by
    rintro e s' hq he s'' rfl
    obtain ⟨h, him'⟩ := hquiet s'' hq
    refine ⟨⟨{ h with usings := fun v hv => ?_ }, him'⟩, trivial⟩
    rw [BindState.allUsings, ← List.append_assoc] at hv
    rcases List.mem_append.mp hv with hv | hv
    · exact h.usings v hv
    · rw [List.mem_singleton.mp hv]
      change e.Known s''.image
      rwa [hq.image]
  unfold bindUsing
  refine quietThen hs.cache (usingTarget_quiet u) (fun e s₁ hq he => ?_)
    hquiet s rfl
  cases hu : u.aliasName with
  | none =>
    have := hadd e s₁ hq he
    rw [hu] at this
    exact this
  | some name =>
    have := hadd e
    rw [hu] at this
    refine quietThen hq.cache (aliasTaken_quiet _ _) (fun taken s₂ hq₂ _ => ?_)
      fun s' hq' => hquiet s' (hq.trans hq')
    split
    · exact refuse_then hq₂.cache (fun s' hq' => hquiet s' ((hq.trans hq₂).trans hq')) _ _
    · exact this s₂ (hq.trans hq₂) he

theorem bindUsings_ongoing {im : Image} (us : List UsingDirective) :
    Yields (fun s => s.Ongoing old ds ∧ s.image = im) (bindUsings us) fun _ => True := by
  unfold bindUsings
  exact (Yields.forAll fun u _ => bindUsing_ongoing u).bind fun _ _ => Yields.pure trivial

theorem resolveBase_quiet (hu : s.UsingsKnown) (x : DeclaredType) (base : QualifiedName) :
    Yields s.Quiet (resolveBase x base) fun r => ∀ q, r = some q →
      s.image.kind? q = some .interfaceKind ∧ x.head.kind ≠ .enumKind := by
  unfold resolveBase
  dsimp only
  split
  · exact Yields.pure (by simp)
  · refine (lookupQualified_quiet hu _ base).bind fun e? _ => ?_
    split
    · next path _ =>
      refine (typeDef_quiet path).bind fun d hd => ?_
      subst hd
      split
      · next hkind =>
        split
        · exact refuse_quiet _ _
        · next henum =>
          refine Yields.pure fun q hq => ⟨?_, by simpa using henum⟩
          cases hq
          unfold Image.kind?
          cases hd : s.image.typeDef? path with
          | none => simp [hd, TypeDef.bare] at hkind
          | some d => simpa [hd] using hkind
      · exact refuse_quiet _ _
    · exact refuse_quiet _ _

theorem populateBases_populating (hp : p.decl ∈ ds) :
    Yields (fun s => s.Populating old ds s₀ p) (populateBases p.decl) fun _ => True := by
  intro s hs
  have hbases : Yields s.Quiet (Attempt.keepSome (resolveBase p.decl) p.decl.head.bases) fun rs =>
      ∀ r ∈ rs, ∀ q, r = some q →
        s.image.kind? q = some .interfaceKind ∧ p.decl.head.kind ≠ .enumKind :=
    Yields.keepSome fun base _ => resolveBase_quiet hs.ongoing.usings p.decl base
  unfold populateBases
  refine quietThen hs.ongoing.cache hbases (fun rs s₁ hq hrs => ?_) (fun s' hq => hs.quiet hq) s rfl
  rintro s₂ rfl
  refine ⟨(hs.quiet hq).update hp rfl fun d _ hsig hhead hlacks => ?_, trivial⟩
  have hmem : ∀ q ∈ rs.filterMap id, s₂.image.kind? q = some .interfaceKind ∧
      p.decl.head.kind ≠ .enumKind := by
    intro q hin
    obtain ⟨r, hr, hrq⟩ := List.mem_filterMap.mp hin
    rw [hq.image]
    exact hrs r hr q hrq
  refine ⟨⟨rfl, rfl, rfl⟩, { hsig with interfaces := fun q hin => (hmem q hin).1, enums := ?_ },
    ⟨hlacks.inits, hlacks.methods, hlacks.listed, hlacks.constructors⟩, fun g hg => .inl hg⟩
  intro henum
  refine List.eq_nil_iff_forall_not_mem.mpr fun q hin => (hmem q hin).2 ?_
  exact hhead.kind.symm.trans henum

theorem memberTaken_quiet (path : Path) (name : String) :
    Yields s.Quiet (memberTaken path name) fun taken => taken = false →
      ∀ d, s.image.typeDef? path = some d → name ∉ d.fieldNames ∧
        s.image.nestedType? path name = none ∧ ∀ m ∈ d.methods, m.name ≠ name := by
  unfold memberTaken
  refine (typeDef_quiet path).bind fun t ht => image_quiet.bind fun im him => Yields.pure ?_
  subst him
  intro htaken d hd
  obtain rfl : t = d := by simpa [hd] using ht
  simp only [Bool.or_eq_false_iff, Bool.not_eq_false', List.isEmpty_iff] at htaken
  obtain ⟨⟨⟨hfield, hstatic⟩, hnested⟩, hmethods⟩ := htaken
  refine ⟨fun hmem => ?_, by simpa using hnested, TypeDef.methodsNamed_eq_nil.mp hmethods⟩
  rcases List.mem_append.mp hmem with hmem | hmem
  · rw [TypeDef.isSome_field?.mpr hmem] at hfield
    cases hfield
  · rw [TypeDef.isSome_static?.mpr hmem] at hstatic
    cases hstatic

theorem populateDeclarator_populating (hp : p.decl ∈ ds) (field : FieldDecl) (t : Ty)
    (v : Declarator) :
    Yields (fun s => s.Populating old ds s₀ p ∧ s.image.Knows t)
      (populateDeclarator p.decl field t v) fun _ => True := by
  rintro s ⟨hs, ht⟩
  have hquiet : ∀ s', s.Quiet s' → s'.Populating old ds s₀ p ∧ s'.image.Knows t :=
    fun s' hq => ⟨hs.quiet hq, hq.image ▸ ht⟩
  unfold populateDeclarator
  refine quietThen hs.ongoing.cache (memberTaken_quiet _ _) (fun taken s₁ hq _ => ?_) hquiet s rfl
  split
  · exact refuse_then hq.cache (fun s' hq' => hquiet s' (hq.trans hq')) _ _
  split
  · exact refuse_then hq.cache (fun s' hq' => hquiet s' (hq.trans hq')) _ _
  obtain ⟨hs₁, ht₁⟩ := hquiet s₁ hq
  split
  · rintro s₂ rfl
    refine ⟨⟨(hs₁.addSlot v.name.name ht₁).update hp rfl fun d hd hsig _ hlacks => ?_, ?_⟩, trivial⟩
    · refine ⟨⟨rfl, rfl, rfl⟩, hsig.addStatic ht₁,
        ⟨hlacks.inits, hlacks.methods, hlacks.listed, hlacks.constructors⟩, fun g hg => ?_⟩
      rcases List.mem_append.mp hg with hg | hg
      · exact .inl hg
      · rw [List.mem_singleton.mp hg]
        refine .inr (hs₁.ongoing.fresh_addSlot v.name.name t rfl rfl fun k hk => ?_)
        rcases List.mem_append.mp hk with hk | hk
        · exact .inr ⟨_, d, hd, hk⟩
        · exact .inl (List.mem_singleton.mp hk)
    · refine (?_ : s₂.image.Keeps _).knows ht₁
      exact Image.updateType_keeps fun _ _ => rfl
  · rintro s₂ rfl
    refine ⟨⟨hs₁.update hp rfl fun d _ hsig _ hlacks => ?_, ?_⟩, trivial⟩
    · exact ⟨⟨rfl, rfl, rfl⟩, hsig.addField ht₁,
        ⟨hlacks.inits, hlacks.methods, hlacks.listed, hlacks.constructors⟩, fun g hg => .inl hg⟩
    · refine (?_ : s₂.image.Keeps _).knows ht₁
      exact Image.updateType_keeps fun _ _ => rfl

theorem populateField_populating (hp : p.decl ∈ ds) (field : FieldDecl) :
    Yields (fun s => s.Populating old ds s₀ p) (populateField p.decl field) fun _ => True := by
  intro s hs
  unfold populateField
  refine quietThen hs.ongoing.cache (typeDef_quiet _) (fun d s₁ hq _ => ?_)
    (fun s' hq => hs.quiet hq) s rfl
  have hquiet : ∀ s', s₁.Quiet s' → s'.Populating old ds s₀ p :=
    fun s' hq' => hs.quiet (hq.trans hq')
  dsimp only
  split
  · exact refuse_then hq.cache hquiet _ _
  split
  · exact refuse_then hq.cache hquiet _ _
  refine quietThen hq.cache (resolveValueType_quiet (hs.quiet hq).ongoing.usings _ _)
    (fun t s₂ hq₂ ht => ?_) hquiet
  rintro s₃ rfl
  refine Triple.mono (Yields.bind (Yields.forAll fun v _ =>
    populateDeclarator_populating hp field t v) fun _ _ => Yields.pure trivial) (fun _ h => h)
    (fun _ _ h => ⟨h.1.1, h.2⟩) (fun _ h => h.1) s₃ ⟨hquiet s₃ hq₂, hq₂.image ▸ ht.1⟩

/-- Parameters that are read to the end have known types and names of their own. -/
theorem resolveParams_quiet (hu : s.UsingsKnown) (ctx : TypeContext) :
    ∀ (ps : List Param) (seen : List (String × Ty)),
    Yields s.Quiet (resolveParams ctx seen ps) fun qs =>
      (∀ q ∈ qs, s.image.Knows q.2 ∧ ∀ r ∈ seen, r.1 ≠ q.1) ∧ (qs.map Prod.fst).Nodup
  | [], _ => Yields.pure (by simp)
  | x :: rest, seen => by
    unfold resolveParams
    split
    · refine (report_quiet _ _).bind fun _ _ => ?_
      exact (resolveParams_quiet hu ctx rest seen).bind fun _ _ => Yields.fail
    · next hseen =>
      refine (resolveValueType_quiet hu ctx _).optional.bind fun t? ht => ?_
      split
      · next t =>
        refine (resolveParams_quiet hu ctx rest _).bind fun qs hqs => Yields.pure ⟨?_, ?_⟩
        · intro q hq
          rcases List.mem_cons.mp hq with rfl | hq
          · refine ⟨(ht t rfl).1, fun r hr heq => hseen ?_⟩
            exact List.any_eq_true.mpr ⟨r, hr, by simpa using heq⟩
          · exact ⟨(hqs.1 q hq).1, fun r hr => (hqs.1 q hq).2 r (List.mem_append_left _ hr)⟩
        · refine List.nodup_cons.mpr ⟨fun hin => ?_, hqs.2⟩
          obtain ⟨q, hq, heq⟩ := List.mem_map.mp hin
          exact (hqs.1 q hq).2 _ (List.mem_append_right _ (List.mem_singleton.mpr rfl)) heq.symm
      · exact (resolveParams_quiet hu ctx rest seen).bind fun _ _ => Yields.fail

/-- What the rules on bodies and modifiers leave. -/
structure Checked (t : TypeDef) (m : MethodDecl) : Prop where
  ofInterface : t.kind = .interfaceKind → m.body.isSome = false ∧
    m.modifiers.contains .staticMember = false
  concrete : t.kind ≠ .interfaceKind → m.modifiers.contains .abstractMember = false →
    m.body.isSome = true
  abstracts : t.kind ≠ .interfaceKind → m.modifiers.contains .abstractMember = true →
    m.body.isSome = false ∧ m.modifiers.contains .staticMember = false ∧ t.isAbstract = true

/-- The rules are kept, or there is one issue about the name of the method. -/
theorem checkMethod_cases (x : DeclaredType) (t : TypeDef) (m : MethodDecl) :
    checkMethod x t m = Pure.pure () ∧ Checked t m ∨
      ∃ problem, checkMethod x t m = refuse problem m.name.span := by
  have hlast : ∀ {isStatic : Bool} {p : Bind Unit}, Checked t m →
      p = (if (!isStatic && t.isStatic) = true then
        refuse (.instanceInStatic x.name) m.name.span else Pure.pure ()) →
      p = Pure.pure () ∧ Checked t m ∨ ∃ problem, p = refuse problem m.name.span := by
    rintro isStatic _ h rfl
    split
    · exact .inr ⟨_, rfl⟩
    · exact .inl ⟨rfl, h⟩
  unfold checkMethod
  dsimp only
  split
  · next hkind =>
    split
    · exact .inr ⟨_, rfl⟩
    · next hfree =>
      simp only [Bool.or_eq_true, not_or, Bool.not_eq_true] at hfree
      exact hlast ⟨fun _ => hfree, fun h => absurd hkind h, fun h => absurd hkind h⟩ rfl
  · next hkind =>
    split
    · exact .inr ⟨_, rfl⟩
    · next hbody =>
      have hconcrete : m.modifiers.contains .abstractMember = false → m.body.isSome = true := by
        intro hno
        cases hm : m.body with
        | none =>
          rw [hm, hno] at hbody
          exact absurd rfl hbody
        | some b => rfl
      split
      · next habstract =>
        split
        · exact .inr ⟨_, rfl⟩
        · next hfree =>
          split
          · exact .inr ⟨_, rfl⟩
          · next hty =>
            simp only [Bool.or_eq_true, not_or, Bool.not_eq_true] at hfree
            exact hlast ⟨fun h => absurd h hkind, fun _ => hconcrete,
              fun _ _ => ⟨hfree.1, hfree.2, by simpa using hty⟩⟩ rfl
      · next habstract =>
        exact hlast ⟨fun h => absurd h hkind, fun _ => hconcrete,
          fun _ h => absurd h habstract⟩ rfl

theorem checkMethod_quiet (x : DeclaredType) (t : TypeDef) (m : MethodDecl) :
    Yields s.Quiet (checkMethod x t m) fun _ => Checked t m := by
  rcases checkMethod_cases x t m with ⟨hrun, hchecked⟩ | ⟨problem, hrun⟩
  · rw [hrun]
    exact Yields.pure hchecked
  · rw [hrun]
    exact refuse_quiet _ _

theorem sameSignature_of_methodsNamed {d : TypeDef} {m : Method}
    (h : ((d.methodsNamed m.name).any fun q => sameParams q.2.params m.params) = false) :
    ∀ n ∈ d.methods, n.sameSignature m = false := by
  intro n hn
  obtain ⟨i, hi⟩ := List.mem_iff_getElem?.mp hn
  unfold Method.sameSignature
  by_cases hname : n.name = m.name
  · have hin : (i, n) ∈ d.methodsNamed m.name := TypeDef.mem_methodsNamed.mpr ⟨hi, hname⟩
    have hparams := List.any_eq_false.mp h _ hin
    simpa [sameParams, Method.paramTypes, hname] using hparams
  · simp [hname]

theorem isAbstract_ite (name owner : String) (params : List (String × Ty)) (returns : Ty)
    (isStatic b : Bool) :
    (Method.mk name owner params returns isStatic
      (if b then .abstractMember else .missing)).isAbstract = b := by
  cases b <;> rfl

theorem addMethod_ok {im : Image} {d : TypeDef} {m : MethodDecl} {params : List (String × Ty)}
    {returns : Ty} {owner : String} (hsig : d.SigOk im) (hcheck : Checked d m)
    (hinterface : d.kind = .interfaceKind → d.isAbstract = true) (hreturns : im.Knows returns)
    (hparams : ∀ q ∈ params, im.Knows q.2) (hnames : (params.map Prod.fst).Nodup)
    (hclash : ((d.methodsNamed m.name.name).any fun q => sameParams q.2.params params) = false) :
    ({ d with methods := d.methods ++ [⟨m.name.name, owner, params, returns,
      m.modifiers.contains .staticMember,
      if d.kind == .interfaceKind || m.modifiers.contains .abstractMember then .abstractMember
        else .missing⟩] } : TypeDef).SigOk im := by
  refine hsig.addMethod ⟨fun t ht => ?_, hnames, hreturns⟩ (fun habstract => ?_)
    (sameSignature_of_methodsNamed hclash)
  · obtain ⟨q, hq, rfl⟩ := List.mem_map.mp ht
    exact hparams q hq
  · by_cases hkind : d.kind = .interfaceKind
    · exact ⟨hinterface hkind, (hcheck.ofInterface hkind).2⟩
    · have hkind' : (d.kind == .interfaceKind) = false := by simpa using hkind
      rw [isAbstract_ite, hkind', Bool.false_or] at habstract
      exact (hcheck.abstracts hkind habstract).2.symm

/-- A method that is added is one more at the end, and the list of missing bodies tells. -/
theorem populateMethod_populating (hp : p.decl ∈ ds) (henum : p.decl.head.kind ≠ .enumKind)
    (m : MethodDecl) :
    Triple (fun s => s.Populating old ds s₀ p) (populateMethod p.decl m)
      (fun i s => s.Populating old ds s₀ { p with methods := p.methods ++ [(m, i)] })
      fun s => s.Populating old ds s₀ p := by
  intro s hs
  have hquiet : ∀ s', s.Quiet s' → s'.Populating old ds s₀ p := fun s' hq => hs.quiet hq
  unfold populateMethod
  refine quietThen hs.ongoing.cache (typeDef_quiet _) (fun t s₁ hq₁ ht => ?_) hquiet s rfl
  dsimp only
  refine quietThen hq₁.cache (checkMethod_quiet p.decl t m) (fun _ s₂ hq₂ hcheck => ?_)
    fun s' hq => hquiet s' (hq₁.trans hq)
  have hq₂' := hq₁.trans hq₂
  refine quietThen hq₂.cache (resolveType_quiet (hquiet s₂ hq₂').ongoing.usings _ _)
    (fun returns s₃ hq₃ hreturns => ?_) fun s' hq => hquiet s' (hq₂'.trans hq)
  have hq₃' := hq₂'.trans hq₃
  refine quietThen hq₃.cache (resolveParams_quiet (hquiet s₃ hq₃').ongoing.usings _ _ _)
    (fun params s₄ hq₄ hparams => ?_) fun s' hq => hquiet s' (hq₃'.trans hq)
  have hq₄' := hq₃'.trans hq₄
  split
  · exact refuse_then hq₄.cache (fun s' hq => hquiet s' (hq₄'.trans hq)) _ _
  next hclash =>
  rintro s₅ rfl
  refine (?_ : BindState.Populating old ds _ s₀
    { p with methods := p.methods ++ [(m, t.methods.length)] })
  refine (hquiet s₅ hq₄').update hp (by rfl) fun d hd hsig hhead hlacks => ?_
  -- nothing has changed since the definition was read
  obtain rfl : t = d := by
    rw [hq₄'.image] at hd
    simpa [hd] using ht
  simp only [Bool.or_eq_true, not_or, Bool.not_eq_true] at hclash
  have hkinds : t.kind = p.decl.head.kind := hhead.kind
  have himage : s₅.image = s₃.image := hq₄.image
  refine ⟨⟨rfl, rfl, rfl⟩, addMethod_ok hsig hcheck (fun hkind => ?_) ?_ ?_ hparams.2 hclash.2,
    hlacks.addMethod ?_, fun g hg => .inl hg⟩
  · rw [hhead.isAbstract]
    simp [DeclaredType.bare, TypeDef.bare, ← hkinds, hkind]
  · rw [himage, hq₃.image]
    exact hreturns
  · rw [himage]
    exact fun q hq => (hparams.1 q hq).1
  · by_cases hkind : t.kind = .interfaceKind
    · exact .inl ⟨by simp [hkind], (hcheck.ofInterface hkind).1⟩
    · have hkind' : (t.kind == .interfaceKind) = false := by simpa using hkind
      cases hmodifier : m.modifiers.contains .abstractMember with
      | true => exact .inl ⟨by simp, (hcheck.abstracts hkind hmodifier).1⟩
      | false =>
        refine .inr ⟨by simp [hkind'], ?_, hcheck.concrete hkind hmodifier⟩
        rw [← hkinds] at henum
        cases hk : t.kind <;> simp_all [TypeDef.hasObjects]

theorem populateConstructor_populating (hp : p.decl ∈ ds) (henum : p.decl.head.kind ≠ .enumKind)
    (c : ConstructorDecl) :
    Triple (fun s => s.Populating old ds s₀ p) (populateConstructor p.decl c)
      (fun i s => s.Populating old ds s₀ { p with constructors := p.constructors ++ [(c, i)] })
      fun s => s.Populating old ds s₀ p := by
  intro s hs
  have hquiet : ∀ s', s.Quiet s' → s'.Populating old ds s₀ p := fun s' hq => hs.quiet hq
  unfold populateConstructor
  refine quietThen hs.ongoing.cache (typeDef_quiet _) (fun t s₁ hq₁ ht => ?_) hquiet s rfl
  split
  · exact refuse_then hq₁.cache (fun s' hq => hquiet s' (hq₁.trans hq)) _ _
  next hkind =>
  split
  · exact refuse_then hq₁.cache (fun s' hq => hquiet s' (hq₁.trans hq)) _ _
  split
  · exact refuse_then hq₁.cache (fun s' hq => hquiet s' (hq₁.trans hq)) _ _
  refine quietThen hq₁.cache (resolveParams_quiet (hquiet s₁ hq₁).ongoing.usings _ _ _)
    (fun params s₂ hq₂ hparams => ?_) fun s' hq => hquiet s' (hq₁.trans hq)
  have hq₂' := hq₁.trans hq₂
  split
  · exact refuse_then hq₂.cache (fun s' hq => hquiet s' (hq₂'.trans hq)) _ _
  rintro s₃ rfl
  refine (?_ : BindState.Populating old ds _ s₀
    { p with constructors := p.constructors ++ [(c, t.constructors.length)] })
  refine (hquiet s₃ hq₂').update hp (by rfl) fun d hd hsig hhead hlacks => ?_
  obtain rfl : t = d := by
    rw [hq₂'.image] at hd
    simpa [hd] using ht
  have hobjects : t.hasObjects = true := by
    have hkinds : t.kind = p.decl.head.kind := hhead.kind
    rw [← hkinds] at henum
    cases hk : t.kind <;> simp_all [TypeDef.hasObjects]
  refine ⟨⟨rfl, rfl, rfl⟩, hsig.addConstructor ⟨fun u hu => ?_, hparams.2, trivial⟩ rfl rfl,
    hlacks.addConstructor c rfl hobjects, fun g hg => .inl hg⟩
  obtain ⟨q, hq, rfl⟩ := List.mem_map.mp hu
  rw [hq₂.image]
  exact (hparams.1 q hq).1

theorem enumMember_quiet (type : String) (values : List (String × Int64)) (next : Int64)
    (m : EnumMemberDecl) :
    Yields s.Quiet (enumMember type values next m) fun _ => m.name.name ∉ values.map Prod.fst := by
  unfold enumMember
  split
  · exact refuse_quiet _ _
  · next hnew =>
    have hfresh : m.name.name ∉ values.map Prod.fst := by
      intro hmem
      obtain ⟨v, hv, hname⟩ := List.mem_map.mp hmem
      exact hnew (List.any_eq_true.mpr ⟨v, hv, by simpa using hname⟩)
    split
    · exact Yields.pure hfresh
    · split
      · exact Yields.pure hfresh
      · exact refuse_quiet _ _

theorem enumMembers_quiet (type : String) : ∀ (ms : List MemberDecl) (values : List (String × Int64))
    (next : Int64), Yields s.Quiet (enumMembers type values next ms) fun r =>
      (values.map Prod.fst).Nodup → (r.map Prod.fst).Nodup := by
  intro ms
  induction ms with
  | nil => exact fun _ _ => Yields.pure id
  | cons m ms ih =>
    intro values next
    cases m with
    | enumMember m =>
      unfold enumMembers
      refine (enumMember_quiet type values next m).optional.bind fun n? hn => ?_
      cases n? with
      | none => exact ih _ _
      | some n =>
        refine (ih _ _).mono fun r hr hnodup => hr ?_
        rw [List.map_append, List.map_singleton, ← List.concat_eq_append]
        exact hnodup.concat (hn n rfl)
    | _ => exact ih _ _

theorem populateEnum_populating (hp : p.decl ∈ ds) (henum : p.decl.head.kind = .enumKind) :
    Yields (fun s => s.Populating old ds s₀ p) (populateEnum p.decl) fun _ => True := by
  intro s hs
  unfold populateEnum
  refine quietThen hs.ongoing.cache (enumMembers_quiet _ _ _ _) (fun values s₁ hq _ => ?_)
    (fun s' hq => hs.quiet hq) s rfl
  rintro s₂ rfl
  refine ⟨(hs.quiet hq).update hp rfl fun d _ hsig hhead hlacks => ?_, trivial⟩
  exact ⟨⟨rfl, rfl, rfl⟩, { hsig with enumMembers := fun _ => hhead.kind.trans henum },
    ⟨hlacks.inits, hlacks.methods, hlacks.listed, hlacks.constructors⟩, fun g hg => .inl hg⟩

/-- The members of a type one after the other; those with a problem are left out. -/
theorem populateMembers_populating : ∀ (ms : List MemberDecl) {p : PopulatedType}, p.decl ∈ ds →
    p.decl.head.kind ≠ .enumKind →
    Triple (fun s => s.Populating old ds s₀ p) (populateMembers p.decl p ms)
      (fun p' s => p'.decl = p.decl ∧ s.Populating old ds s₀ p') fun _ => False
  | [], p, _, _ => Triple.pure fun s hs => ⟨rfl, hs⟩
  | .field f :: ms, p, hp, henum => by
    unfold populateMembers
    refine Triple.bind (Q := fun _ s => s.Populating old ds s₀ p) (Triple.optional ?_) fun _ =>
      populateMembers_populating ms hp henum
    exact Triple.mono (populateField_populating hp f) (fun _ h => h) (fun _ _ h => h.1) fun _ h => h
  | .method m :: ms, p, hp, henum => by
    unfold populateMembers
    refine Triple.bind (Q := fun i? s => i?.elim (s.Populating old ds s₀ p) fun i =>
      s.Populating old ds s₀ { p with methods := p.methods ++ [(m, i)] })
      (Triple.optional (populateMethod_populating hp henum m)) fun i? => ?_
    cases i? with
    | none => exact populateMembers_populating ms hp henum
    | some i =>
      exact populateMembers_populating ms
        (p := { p with methods := p.methods ++ [(m, i)] }) hp henum
  | .constructor c :: ms, p, hp, henum => by
    unfold populateMembers
    refine Triple.bind (Q := fun i? s => i?.elim (s.Populating old ds s₀ p) fun i =>
      s.Populating old ds s₀ { p with constructors := p.constructors ++ [(c, i)] })
      (Triple.optional (populateConstructor_populating hp henum c)) fun i? => ?_
    cases i? with
    | none => exact populateMembers_populating ms hp henum
    | some i =>
      exact populateMembers_populating ms
        (p := { p with constructors := p.constructors ++ [(c, i)] }) hp henum
  | .enumMember _ :: ms, p, hp, henum => by
    unfold populateMembers
    exact populateMembers_populating ms hp henum
  | .nested _ _ _ :: ms, p, hp, henum => by
    unfold populateMembers
    exact populateMembers_populating ms hp henum

theorem enumMembers_total (type : String) : ∀ (ms : List MemberDecl)
    (values : List (String × Int64)) (next : Int64), Total (enumMembers type values next ms) := by
  intro ms
  induction ms with
  | nil => exact fun _ _ => Total.pure
  | cons m ms ih =>
    intro values next
    cases m with
    | enumMember m =>
      unfold enumMembers
      refine Total.optional.bind fun n? => ?_
      cases n? with
      | none => exact ih _ _
      | some n => exact ih _ _
    | _ => exact ih _ _

theorem populateType_populating {x : DeclaredType} (hx : x ∈ ds) :
    Triple (fun s => s.Populating old ds s₀ ⟨x, [], []⟩) (populateType x)
      (fun p s => p.decl = x ∧ s.Populating old ds s₀ p) fun _ => False := by
  have hbases : Triple (fun s => s.Populating old ds s₀ ⟨x, [], []⟩) (populateBases x)
      (fun _ s => s.Populating old ds s₀ ⟨x, [], []⟩) fun _ => False := by
    exact Triple.mono (Total.triple ((Total.keepSome _).bind fun _ => Total.modify)
      (populateBases_populating (p := ⟨x, [], []⟩) hx)) (fun _ h => h) (fun _ _ h => h.1) fun _ h => h
  unfold populateType
  refine Triple.bind hbases fun _ => ?_
  split
  · next henum =>
    refine Triple.bind (Q := fun _ s => s.Populating old ds s₀ ⟨x, [], []⟩) ?_ fun _ =>
      Triple.pure fun s hs => ⟨rfl, hs⟩
    exact Triple.mono (Total.triple ((enumMembers_total _ _ _ _).bind fun _ => Total.modify)
      (populateEnum_populating (p := ⟨x, [], []⟩) hx henum)) (fun _ h => h) (fun _ _ h => h.1)
      fun _ h => h
  · next henum => exact populateMembers_populating x.members (p := ⟨x, [], []⟩) hx henum

/-- A declared type lacks the bodies that are listed with it. -/
def Waits (im : Image) (x : DeclaredType) (p : PopulatedType) : Prop :=
  p.decl = x ∧ ∃ d, im.typeDef? x.path = some d ∧ d.Lacks p.methods p.constructors

/-- The types that the loop is still to populate are bare, and those behind it wait for their
bodies. Types of other paths stay what they are. -/
theorem populateAll : ∀ (xs : List DeclaredType) (s₀ : BindState), (∀ x ∈ xs, x ∈ ds) →
    (xs.map DeclaredType.path).Nodup → s₀.Ongoing old ds →
    (∀ x ∈ xs, s₀.image.typeDef? x.path = some x.bare) →
    Triple (· = s₀) (Attempt.forAll populateType xs)
      (fun out s => s.Ongoing old ds ∧ s₀.Stays s ∧
        (∀ q, (∀ x ∈ xs, q ≠ x.path) → s.image.typeDef? q = s₀.image.typeDef? q) ∧
        List.Forall₂ (fun x p? => ∃ p, p? = some p ∧ Waits s.image x p) xs out) fun _ => False
  | [], s₀, _, _, h, _ => Triple.pure fun s hs => by
      subst hs
      exact ⟨h, .refl s, fun _ _ => rfl, .nil⟩
  | x :: xs, s₀, hds, hnodup, h, hbare => by
    unfold Attempt.forAll
    obtain ⟨hnotin, hrest⟩ := List.nodup_cons.mp hnodup
    have hne : ∀ y ∈ xs, y.path ≠ x.path := fun y hy heq =>
      hnotin (heq ▸ List.mem_map_of_mem hy)
    have hx : Triple (· = s₀) (populateType x)
        (fun p s => p.decl = x ∧ s.Populating old ds s₀ p) fun _ => False := by
      rintro s rfl
      exact populateType_populating (hds x (by simp)) s
        ⟨h, .refl s, fun _ _ => rfl, x.bare, hbare x (by simp), .bare _ _ _⟩
    refine Triple.bind (Q := fun p? s => ∃ p, p? = some p ∧ p.decl = x ∧ s.Populating old ds s₀ p)
      (Triple.optional (hx.mono (fun _ h => h) (fun p s hp => ⟨p, rfl, hp⟩) fun _ hf => hf.elim)) ?_
    · rintro p? s₁ ⟨p, rfl, rfl, hs₁⟩
      have hbare₁ : ∀ y ∈ xs, s₁.image.typeDef? y.path = some y.bare := fun y hy =>
        (hs₁.frame _ (hne y hy)).trans (hbare y (List.mem_cons_of_mem _ hy))
      refine Triple.bind (populateAll xs s₁ (fun y hy => hds y (List.mem_cons_of_mem _ hy)) hrest
        hs₁.ongoing hbare₁) (fun out => Triple.pure fun s hs => ?_) s₁ rfl
      obtain ⟨hs, hstays, hframe, hout⟩ := hs
      refine ⟨hs, hs₁.stays.trans hstays, fun q hq => ?_, .cons ⟨p, rfl, rfl, ?_⟩ hout⟩
      · exact (hframe q fun y hy => hq y (List.mem_cons_of_mem _ hy)).trans
          (hs₁.frame q (hq p.decl (by simp)))
      · obtain ⟨d, hd, hlacks⟩ := hs₁.lacks
        exact ⟨d, (hframe _ fun y hy heq => hne y hy heq.symm).trans hd, hlacks⟩

theorem forall₂_filterMap {R : α → β → Prop} {as : List α} {os : List (Option β)}
    (h : List.Forall₂ (fun a o => ∃ b, o = some b ∧ R a b) as os) :
    List.Forall₂ R as (os.filterMap id) := by
  induction h with
  | nil => exact .nil
  | cons hb _ ih =>
    obtain ⟨b, rfl, hb⟩ := hb
    exact .cons hb ih

/-- A check that changes nothing and, unless `ok` holds, leaves an issue behind. -/
def Checks (s₀ : BindState) (q : Bind α) (ok : Prop) : Prop :=
  ∀ s, s₀.Quiet s → Triple (· = s) q
    (fun _ s' => s.Quiet s' ∧ (s'.issues.hasAny = true ∨ ok))
    fun s' => s.Quiet s' ∧ (s'.issues.hasAny = true ∨ ok)

namespace Checks

variable {ok : Prop}

theorem pure {a : α} (h : ok) : Checks s₀ (Pure.pure a : Bind α) ok := by
  rintro s hs s' rfl
  exact ⟨.refl hs.cache, .inr h⟩

theorem report (problem : Problem) (span : Span) : Checks s₀ (Bind.report problem span) ok := by
  rintro s hs s' rfl
  exact ⟨(report_quiet problem span s' (.refl hs.cache)).1, .inl (hasAny_push _ _)⟩

theorem mono {q : Bind α} {ok' : Prop} (h : Checks s₀ q ok) (hok : ok → ok') : Checks s₀ q ok' :=
  fun s hs => (h s hs).mono (fun _ h => h) (fun _ _ h => ⟨h.1, h.2.imp_right hok⟩)
    fun _ h => ⟨h.1, h.2.imp_right hok⟩

theorem typeDef {q : Path} {f : TypeDef → Bind β}
    (hf : Checks s₀ (f ((s₀.image.typeDef? q).getD (.bare .classKind false false))) ok) :
    Checks s₀ (Bind.typeDef q >>= f) ok := by
  rintro s hs s' rfl
  have hrun := hf s' hs s' rfl
  rw [← hs.image] at hrun
  exact hrun

theorem then_pure {q : Bind α} {b : β} (h : Checks s₀ q ok) :
    Checks s₀ (q >>= fun _ => Pure.pure b) ok := by
  intro s hs
  refine Triple.bind (h s hs) fun _ => Triple.pure fun s' hs' => hs'

/-- All the elements of a list are checked, whatever the outcome of each. -/
theorem forAll {f : α → Bind β} {ok : α → Prop} : ∀ {as : List α},
    (∀ a ∈ as, Checks s₀ (f a) (ok a)) → Checks s₀ (Attempt.forAll f as) (∀ a ∈ as, ok a)
  | [], _ => pure (by simp)
  | a :: as, h => by
    intro s hs
    unfold Attempt.forAll
    refine Triple.bind (Q := fun _ s' => s.Quiet s' ∧ (s'.issues.hasAny = true ∨ ok a))
      (Triple.optional (h a (by simp) s hs)) ?_
    rintro b? s₁ ⟨hq₁, hok₁⟩
    have hboth : ∀ s₂, s₁.Quiet s₂ ∧ (s₂.issues.hasAny = true ∨ ∀ x ∈ as, ok x) →
        s.Quiet s₂ ∧ (s₂.issues.hasAny = true ∨ ∀ x ∈ a :: as, ok x) := by
      rintro s₂ ⟨hq₂, hok₂⟩
      refine ⟨hq₁.trans hq₂, ?_⟩
      rcases hok₁ with hany | hok₁
      · exact .inl (hq₂.issues hany)
      · exact hok₂.imp_right fun hok₂ => List.forall_mem_cons.mpr ⟨hok₁, hok₂⟩
    have hrest := (forAll (fun x hx => h x (List.mem_cons_of_mem _ hx)) s₁ (hs.trans hq₁)).mono
      (fun _ h => h) (fun _ => hboth) hboth
    exact Triple.bind hrest (fun bs => Triple.pure fun s₂ hs₂ => hs₂) s₁ rfl

end Checks

theorem checkInterface_checks (x : DeclaredType) (q : Path) :
    Checks s₀ (checkInterface x q) (∀ d e, s₀.image.typeDef? x.path = some d →
      s₀.image.typeDef? q = some e → ∀ m ∈ e.methods, isImplemented d m = true) := by
  unfold checkInterface
  refine Checks.typeDef (Checks.typeDef ?_)
  have hreports : ∀ {ms : List Method}, Checks s₀ (Attempt.forAll (fun (m : Method) =>
      report (.notImplemented x.path.text q.text m.name m.paramText) x.head.name.span) ms)
      (∀ m ∈ ms, False) := Checks.forAll fun m _ => Checks.report _ _
  refine Checks.then_pure (hreports.mono fun hnone d e hd he m hm => ?_)
  simp only [hd, he, Option.getD_some, List.mem_filter, Bool.not_eq_true', and_imp] at hnone
  cases himpl : isImplemented d m with
  | true => rfl
  | false => exact (hnone m hm himpl).elim

theorem checkConformance_checks (x : DeclaredType) :
    Checks s₀ (checkConformance x) (∀ d, s₀.image.typeDef? x.path = some d →
      s₀.image.Conforming d) := by
  unfold checkConformance
  refine Checks.typeDef ?_
  split
  · refine Checks.then_pure ((Checks.forAll fun q _ => checkInterface_checks x q).mono
      fun hall d hd _ q hq e he => ?_)
    simp only [hd, Option.getD_some] at hall
    exact hall q hq d e rfl he
  · next hno =>
    refine Checks.pure fun d hd hobjects => ?_
    simp [hd, hobjects] at hno

/-- Populated types wait for their bodies, and unless there are issues they conform. -/
theorem populateTypes_ongoing (xs : List DeclaredType) (hds : ∀ x ∈ xs, x ∈ ds)
    (hnodup : (xs.map DeclaredType.path).Nodup) (h : s₀.Ongoing old ds)
    (hbare : ∀ x ∈ xs, s₀.image.typeDef? x.path = some x.bare) :
    Triple (· = s₀) (populateTypes xs) (fun ps s => s.Ongoing old ds ∧ s₀.Stays s ∧
      List.Forall₂ (Waits s.image) xs ps ∧ (s.issues.hasAny = true ∨ ∀ x ∈ xs, ∀ d,
        s.image.typeDef? x.path = some d → s.image.Conforming d)) fun _ => False := by
  have hpopulate : Triple (· = s₀) (Attempt.keepSome populateType xs) (fun ps s =>
      s.Ongoing old ds ∧ s₀.Stays s ∧ List.Forall₂ (Waits s.image) xs ps) fun _ => False := by
    unfold Attempt.keepSome
    refine Triple.bind (populateAll xs s₀ hds hnodup h hbare) fun out => Triple.pure fun s hs => ?_
    exact ⟨hs.1, hs.2.1, forall₂_filterMap hs.2.2.2⟩
  unfold populateTypes
  refine Triple.bind hpopulate fun ps => ?_
  rintro s ⟨hs, hstays, hps⟩
  have hchecks : Checks s (Attempt.forAll checkConformance xs) (∀ x ∈ xs, ∀ d,
      s.image.typeDef? x.path = some d → s.image.Conforming d) :=
    Checks.forAll fun x _ => checkConformance_checks x
  have hcheck := hchecks s (.refl hs.cache)
  refine Triple.bind (Total.triple (Total.forAll _) hcheck) (fun _ => Triple.pure fun s' hs' => ?_)
    s rfl
  obtain ⟨hq, hok⟩ := hs'
  rw [hq.image]
  exact ⟨hs.quiet hq, hstays.aside hq.aside, hps, hok⟩

end Bind

end Chunkwise
