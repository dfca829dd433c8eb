import Chunkwise.Proofs.Faithful.Populate

namespace Chunkwise

open Attempt

theorem Bind.withBody_append (done : List Method) (m : Method) (rest : List Method) (code : Code) :
    withBody (done ++ m :: rest) done.length code = done ++ { m with body := .code code } :: rest := by
  induction done with
  | nil => rfl
  | cons n done ih => exact congrArg (n :: ·) ih

/-- The first methods have their code and the others are still waiting for it. -/
def Half {δ : Type} (Formed Awaited : δ → Method → Prop) (before after : List δ)
    (ms : List Method) : Prop :=
  ∃ done rest, ms = done ++ rest ∧ List.Forall₂ Formed before done ∧ List.Forall₂ Awaited after rest

namespace Half

variable {δ : Type} {Formed Awaited : δ → Method → Prop} {before after xs : List δ} {x : δ}
  {ms : List Method}

theorem start (h : List.Forall₂ Awaited xs ms) : Half Formed Awaited [] xs ms := ⟨[], ms, rfl, .nil, h⟩

theorem finish (h : Half Formed Awaited xs [] ms) : List.Forall₂ Formed xs ms := by
  obtain ⟨done, rest, rfl, hdone, hrest⟩ := h
  cases hrest
  rw [List.append_nil]
  exact hdone

theorem next (h : Half Formed Awaited before (x :: after) ms) :
    ∃ m, ms[before.length]? = some m ∧ Awaited x m := by
  obtain ⟨done, rest, rfl, hdone, hrest⟩ := h
  cases hrest with
  | @cons _ m _ rest hm _ => exact ⟨m, by simp [hdone.length_eq], hm⟩

theorem keep (h : Half Formed Awaited before (x :: after) ms) (hx : ∀ m, Awaited x m → Formed x m) :
    Half Formed Awaited (before ++ [x]) after ms := by
  obtain ⟨done, rest, rfl, hdone, hrest⟩ := h
  cases hrest with
  | @cons _ m _ rest hm hrest =>
    refine ⟨done ++ [m], rest, by simp, ?_, hrest⟩
    exact List.rel_append hdone (.cons (hx m hm) .nil)

theorem fill (h : Half Formed Awaited before (x :: after) ms) {code : Code}
    (hx : ∀ m, Awaited x m → Formed x { m with body := .code code }) :
    Half Formed Awaited (before ++ [x]) after (Bind.withBody ms before.length code) := by
  obtain ⟨done, rest, rfl, hdone, hrest⟩ := h
  cases hrest with
  | @cons _ m _ rest hm hrest =>
    refine ⟨done ++ [{ m with body := .code code }], rest, ?_,
      List.rel_append hdone (.cons (hx m hm) .nil), hrest⟩
    rw [hdone.length_eq, Bind.withBody_append]
    simp

end Half

namespace Bind

variable {J : TypeTable → Prop} {H : Prop} {T : TypeTable} {d : DeclaredType} {t : TypeDef}

/-- An initial value of a field, shared or not. -/
def InitOf (t : TypeDef) (shared : Bool) (v : Declarator) (init : FieldInit) : Prop :=
  if shared then ∃ b, init = .static b ∧ v.SetsStatic t b
  else ∃ i e, init = .ofObject i e ∧ v.SetsField t (i, e)

theorem staticInit_sure {v : Declarator} {init : Expr} (hinit : v.init = some init)
    (h : H → ∃ f ∈ t.statics, f.name = v.name.name) :
    Sure (T.On d.path (· = t)) H (staticInit d v.name.name init) (InitOf t true v) := by
  unfold staticInit
  refine typeDef_on.bind fun t' => ?_
  refine Sure.bind (Q := fun f => t.static? v.name.name = some f) (Sure.ofOption fun hs => ?_) fun f => ?_
  · obtain ⟨f, hf⟩ := Option.isSome_iff_exists.mp
      (TypeDef.isSome_static?.mpr (List.mem_map.mpr (h hs.1)))
    exact ⟨f, hs.2 ▸ hf, hf⟩
  · refine (setBody_sure _).bind fun _ => (converted_sure f.type init).bind fun b => ?_
    exact Sure.pure fun hs => ⟨_, rfl, init, b, f, hinit, hs.1.1.2, hs.2, rfl⟩

theorem objectInit_sure {v : Declarator} {init : Expr} (hinit : v.init = some init)
    (h : H → ∃ f ∈ t.fields, f.name = v.name.name) :
    Sure (T.On d.path (· = t)) H (objectInit d v.name.name init) (InitOf t false v) := by
  unfold objectInit
  refine typeDef_on.bind fun t' => ?_
  refine Sure.bind (Q := fun x => t.field? v.name.name = some x) (Sure.ofOption fun hs => ?_) fun x => ?_
  · obtain ⟨⟨i, f⟩, hf⟩ := Option.isSome_iff_exists.mp
      (TypeDef.isSome_field?.mpr (List.mem_map.mpr (h hs.1)))
    exact ⟨(i, f), hs.2 ▸ hf, hf⟩
  · obtain ⟨i, f⟩ := x
    refine (setBody_sure _).bind fun _ => (converted_sure f.type init).bind fun b => ?_
    exact Sure.pure fun hs => ⟨i, b, rfl, init, f, hinit, hs.1.1.2, hs.2⟩

theorem declaratorInit_sure {f : FieldDecl} {v : Declarator}
    (hshared : H → f.isShared = true → ∃ g ∈ t.statics, g.name = v.name.name)
    (hown : H → f.isShared = false → ∃ g ∈ t.fields, g.name = v.name.name) :
    Sure (T.On d.path (· = t)) H (declaratorInit d f v) fun init? =>
      List.Forall₂ (InitOf t f.isShared) (Declarator.initialized [v]) init?.toList := by
  unfold declaratorInit
  split
  · next hnone => exact Sure.pure fun _ => by simp [Declarator.initialized, hnone]
  · next init hinit =>
    have honly : Declarator.initialized [v] = [v] := by simp [Declarator.initialized, hinit]
    have hdef : (f.modifiers.contains .staticMember || f.modifiers.contains .constField) =
        f.isShared := rfl
    dsimp only
    rw [honly, hdef]
    split
    · next hs =>
      rw [hs]
      refine (staticInit_sure hinit fun hH => hshared hH hs).bind fun r => Sure.pure fun hr => ?_
      exact .cons hr.2 .nil
    · next hs =>
      rw [Bool.eq_false_iff.mpr hs]
      refine (objectInit_sure hinit fun hH => hown hH (Bool.eq_false_iff.mpr hs)).bind fun r =>
        Sure.pure fun hr => ?_
      exact .cons hr.2 .nil

theorem sort_inits {shared : Bool} {vs : List Declarator} {inits : List FieldInit}
    (h : List.Forall₂ (InitOf t shared) vs inits) :
    List.Forall₂ (Declarator.SetsStatic t) (if shared = true then vs else [])
      (inits.filterMap FieldInit.static?) ∧
    List.Forall₂ (Declarator.SetsField t) (if shared = false then vs else [])
      (inits.filterMap FieldInit.ofObject?) := by
  induction h with
  | nil => cases shared <;> exact ⟨.nil, .nil⟩
  | cons hv _ ih =>
    cases shared with
    | true =>
      obtain ⟨b, rfl, hb⟩ := hv
      exact ⟨.cons hb ih.1, ih.2⟩
    | false =>
      obtain ⟨i, e, rfl, he⟩ := hv
      exact ⟨ih.1, .cons he ih.2⟩

theorem initialized_append (vs ws : List Declarator) :
    Declarator.initialized (vs ++ ws) = Declarator.initialized vs ++ Declarator.initialized ws :=
  List.filter_append vs ws

theorem initialized_ite (b : Bool) (shared : Bool) (vs : List Declarator) :
    Declarator.initialized (if b = shared then vs else []) =
      if b = shared then Declarator.initialized vs else [] := by
  split <;> rfl

theorem fieldInits_sure : ∀ (ms : List MemberDecl) {H : Prop},
    (H → ∀ v ∈ MemberDecl.allDeclarators true ms, ∃ f ∈ t.statics, f.name = v.name.name) →
    (H → ∀ v ∈ MemberDecl.allDeclarators false ms, ∃ f ∈ t.fields, f.name = v.name.name) →
    Sure (T.On d.path (· = t)) H (fieldInits d ms) fun inits =>
      List.Forall₂ (Declarator.SetsStatic t)
        (Declarator.initialized (MemberDecl.allDeclarators true ms))
        (inits.filterMap FieldInit.static?) ∧
      List.Forall₂ (Declarator.SetsField t)
        (Declarator.initialized (MemberDecl.allDeclarators false ms))
        (inits.filterMap FieldInit.ofObject?)
  | [], _, _, _ => Sure.pure fun _ => ⟨.nil, .nil⟩
  | m :: rest, _, hshared, hown => by
    cases m with
    | field f =>
      have hcons : ∀ shared, MemberDecl.allDeclarators shared (.field f :: rest) =
          (if f.isShared = shared then f.declarators else []) ++
            MemberDecl.allDeclarators shared rest := fun _ => rfl
      simp only [hcons, List.mem_append] at hshared hown
      unfold fieldInits
      refine (Sure.keepSome fun v hv => declaratorInit_sure (fun hH hs => ?_) fun hH hs => ?_).bind
        fun found => ?_
      · exact hshared hH v (.inl (by rwa [if_pos hs]))
      · exact hown hH v (.inl (by rwa [if_pos hs]))
      · refine (fieldInits_sure rest (fun hs v hv => hshared hs.1 v (.inr hv))
          fun hs v hv => hown hs.1 v (.inr hv)).bind fun more => Sure.pure fun hs => ?_
        have hfound := sort_inits (forall₂_filter_filterMap hs.1.2)
        rw [hcons, hcons, initialized_append, initialized_append, initialized_ite, initialized_ite,
          List.filterMap_append, List.filterMap_append]
        exact ⟨List.rel_append hfound.1 hs.2.1, List.rel_append hfound.2 hs.2.2⟩
    | _ => exact fieldInits_sure rest hshared hown

/-- How far the bodies of a type have come: its fields are done, and its methods and constructors are as
far as `M` and `C` say. -/
structure Bodied (d : DeclaredType) (statics : List BoundStmt) (M C : List Method → Prop) (t : TypeDef) :
    Prop where
  inits : List.Forall₂ (Declarator.SetsField t)
    (Declarator.initialized (MemberDecl.allDeclarators false d.members)) t.inits
  statics : d.StaticsSetBy t statics
  methods : M t.methods
  constructors : C t.constructors

theorem bindFieldInits_turns {M C : List Method → Prop}
    (h : H → (∀ v ∈ MemberDecl.allDeclarators true d.members, ∃ f ∈ t.statics, f.name = v.name.name) ∧
      (∀ v ∈ MemberDecl.allDeclarators false d.members, ∃ f ∈ t.fields, f.name = v.name.name) ∧
      M t.methods ∧ C t.constructors) :
    Turns (T.On d.path (· = t)) H (bindFieldInits d) fun statics =>
      T.On d.path (Bodied d statics M C) := by
  unfold bindFieldInits
  refine (fieldInits_sure d.members (fun hs => (h hs).1) fun hs => (h hs).2.1).turns fun inits => ?_
  refine Turns.bind (Turns.updateType (S := Bodied d (inits.filterMap FieldInit.static?) M C) ?_)
    fun _ => Turns.pure fun _ hT _ => hT
  rintro _ hs rfl
  exact ⟨hs.2.2, hs.2.1, (h hs.1).2.2.1, (h hs.1).2.2.2⟩

theorem methodCode_sure (context : BodyContext) (m : Method) (body : Block) (span : Span) :
    Sure J H (methodCode context m body span) fun code =>
      List.Forall₂ Enacts (Stmt.written body.stmts) code.body := by
  unfold methodCode
  refine (setBody_sure _).bind fun _ => ?_
  refine (Sure.forAll (Q := fun _ _ => True) fun p _ => updateScopes_sure _).bind fun _ => ?_
  refine (stmts_sure body.stmts).bind fun code => ?_
  split
  · exact Sure.refuse _ _
  · exact body_sure.bind fun _ => Sure.pure fun hs => hs.1.2

section Fill

variable {statics : List BoundStmt} {M C : List Method → Prop}

theorem bindMethod_turns (m : MethodDecl) (before after : List MethodDecl) :
    Turns (T.On d.path (Bodied d statics
        (Half MethodDecl.FormedBy MethodDecl.AwaitedBy before (m :: after)) C)) H
      (bindMethod d (m, before.length)) fun _ => T.On d.path (Bodied d statics
        (Half MethodDecl.FormedBy MethodDecl.AwaitedBy (before ++ [m]) after) C) := by
  unfold bindMethod
  dsimp only
  split
  · next hnone =>
    refine Turns.pure fun T' hT _ => hT.mono fun t ht => ?_
    refine ⟨ht.inits, ht.statics, ht.methods.keep fun n hn => ⟨hn.name, ?_⟩, ht.constructors⟩
    rw [hnone]
    exact hn.abstracts hnone
  · next block hblock =>
    refine typeDef_on.turns fun t => ?_
    refine Sure.turns (Q := fun _ => True) (Sure.ofOption fun hs => ?_) fun method => ?_
    · obtain ⟨n, hn, -⟩ := hs.2.methods.next
      exact ⟨n, hn, trivial⟩
    · refine (methodCode_sure _ _ _ _).turns fun code => Turns.updateType fun t' hs ht' => ?_
      refine ⟨ht'.inits, ht'.statics, ht'.methods.fill fun n hn => ⟨hn.name, ?_⟩, ht'.constructors⟩
      rw [hblock]
      exact ⟨code, rfl, hs.2⟩

theorem bindConstructor_turns (c : ConstructorDecl) (before after : List ConstructorDecl) :
    Turns (T.On d.path (Bodied d statics M
        (Half ConstructorDecl.FormedBy (fun _ _ => True) before (c :: after)))) H
      (bindConstructor d (c, before.length)) fun _ => T.On d.path (Bodied d statics M
        (Half ConstructorDecl.FormedBy (fun _ _ => True) (before ++ [c]) after)) := by
  unfold bindConstructor
  refine typeDef_on.turns fun t => ?_
  refine Sure.turns (Q := fun _ => True) (Sure.ofOption fun hs => ?_) fun method => ?_
  · obtain ⟨n, hn, -⟩ := hs.2.constructors.next
    exact ⟨n, hn, trivial⟩
  · refine (methodCode_sure _ _ _ _).turns fun code => Turns.updateType fun t' hs ht' => ?_
    exact ⟨ht'.inits, ht'.statics, ht'.methods,
      ht'.constructors.fill fun n _ => ⟨code, rfl, hs.2⟩⟩

theorem turns_zipIdx {δ : Type} {f : δ × Nat → Bind Unit} {xs : List δ}
    {I : List δ → List δ → TypeTable → Prop}
    (h : ∀ before x after, Turns (I before (x :: after)) H (f (x, before.length)) fun _ =>
      I (before ++ [x]) after) :
    Turns (I [] xs) H (Attempt.forAll f xs.zipIdx) fun _ => I xs [] := by
  have hsteps : Turns _ H (Attempt.forAll f xs.zipIdx) _ := Turns.steps
    (I := fun before => I (before.map Prod.fst) (xs.drop before.length)) fun before a after hsplit => by
      have hlen : before.length < xs.length := by
        have hlength := congrArg List.length hsplit
        simp at hlength
        omega
      have ha : a = (xs[before.length], before.length) := by
        have hget := congrArg (fun l => l[before.length]?) hsplit
        simpa [List.getElem?_eq_getElem hlen] using hget.symm
      have hstep := h (before.map Prod.fst) xs[before.length] (xs.drop (before.length + 1))
      rw [List.length_map] at hstep
      rw [ha, List.drop_eq_getElem_cons hlen]
      simpa using hstep
  simpa using hsteps

end Fill

theorem outline_eq (d : DeclaredType) : d.outline =
    ⟨d.members.filterMap MemberDecl.method?, d.members.filterMap MemberDecl.constructor?,
      MemberDecl.allDeclarators true d.members, MemberDecl.allDeclarators false d.members⟩ := by
  unfold DeclaredType.outline
  rw [Outline.foldl_add]
  rfl

theorem formed_of_bodiless {p : PopulatedType} (h : Laid d d.outline p t) (hb : d.outline.Bodiless) :
    d.FormedBy t ∧ d.StaticsSetBy t [] := by
  have hmethods := h.methods
  have hconstructors := h.constructors
  have hbodies := hb.methods
  rw [hb.constructors] at hconstructors
  have hnone := hb.constructors
  have hshared := hb.shared
  have hown := hb.own
  rw [outline_eq] at hmethods hbodies hnone hshared hown
  refine ⟨⟨?_, ?_, ?_⟩, ?_⟩
  · refine List.forall₂_iff_get.mpr ⟨hmethods.length_eq, fun i hi hi' => ?_⟩
    have hm := (List.forall₂_iff_get.mp hmethods).2 i hi hi'
    have hbody := hbodies _ (List.get_mem _ ⟨i, hi⟩)
    refine ⟨hm.name, ?_⟩
    rw [hbody]
    exact hm.abstracts hbody
  · rw [show d.members.filterMap MemberDecl.constructor? = [] from hnone,
      List.eq_nil_of_length_eq_zero hconstructors]
    exact .nil
  · rw [show MemberDecl.allDeclarators false d.members = [] from hown, h.inits]
    exact .nil
  · unfold DeclaredType.StaticsSetBy
    rw [show MemberDecl.allDeclarators true d.members = [] from hshared]
    exact .nil

theorem bodiless_empty : Outline.empty.Bodiless := ⟨by simp [Outline.empty], rfl, rfl, rfl⟩

theorem bindFieldInits_counts (d : DeclaredType) : Counts (bindFieldInits d) :=
  (bindFieldInits_turns (H := False) (T := fun _ => none) (t := d.bare) (M := fun _ => True)
    (C := fun _ => True) False.elim).grows

theorem bindLaidFields_turns {p : PopulatedType} :
    Turns (T.On d.path (Laid d d.outline p)) True (bindFieldInits d) fun statics =>
      T.On d.path (Bodied d statics (List.Forall₂ MethodDecl.AwaitedBy d.outline.methods)
        fun cs => cs.length = d.outline.constructors.length) := by
  refine Turns.start (bindFieldInits_counts d) ?_
  rintro _ ⟨t, ht, rfl⟩ -
  have hshared := ht.shared
  have hown := ht.own
  rw [outline_eq] at hshared hown
  refine (bindFieldInits_turns (H := True) (t := t) fun _ =>
    ⟨hshared, hown, ht.methods, ht.constructors⟩).mono ?_ id fun _ _ hK => hK
  rintro _ rfl
  exact ⟨t, rfl, rfl⟩

theorem Bodied.mono {statics : List BoundStmt} {M M' C C' : List Method → Prop}
    (h : Bodied d statics M C t) (hM : ∀ ms, M ms → M' ms) (hC : ∀ cs, C cs → C' cs) :
    Bodied d statics M' C' t := ⟨h.inits, h.statics, hM _ h.methods, hC _ h.constructors⟩

theorem bindBodies_turns (hplain : d.Plain) :
    Turns (T.On d.path (Laid d d.outline d.populated)) True (bindBodies d.populated) fun statics =>
      T.On d.path fun t => d.FormedBy t ∧ d.StaticsSetBy t statics := by
  unfold bindBodies DeclaredType.populated
  dsimp only
  split
  · next hkind =>
    refine Turns.pure fun T' hT _ => hT.mono fun t ht => formed_of_bodiless ht ?_
    rcases hkind with henum | hinterface
    · rw [hplain henum]
      exact bodiless_empty
    · exact ht.bodiless hinterface
  · refine bindLaidFields_turns.bind fun statics => ?_
    have hmethods : Turns _ True (Attempt.forAll (bindMethod d) d.outline.methods.zipIdx) _ :=
      turns_zipIdx (I := fun before after => T.On d.path (Bodied d statics
        (Half MethodDecl.FormedBy MethodDecl.AwaitedBy before after)
        fun cs => cs.length = d.outline.constructors.length)) fun before m after =>
        bindMethod_turns m before after
    have hconstructors : Turns _ True
        (Attempt.forAll (bindConstructor d) d.outline.constructors.zipIdx) _ :=
      turns_zipIdx (I := fun before after => T.On d.path (Bodied d statics
        (List.Forall₂ MethodDecl.FormedBy d.outline.methods)
        (Half ConstructorDecl.FormedBy (fun _ _ => True) before after))) fun before c after =>
        bindConstructor_turns c before after
    refine Turns.bind (hmethods.mono (fun T' hT => hT.mono fun t ht => ?_) id fun _ _ hK => hK) fun _ => ?_
    · exact ht.mono (fun _ hms => Half.start hms) fun _ hcs => hcs
    · refine Turns.bind (hconstructors.mono (fun T' hT => hT.mono fun t ht => ?_) id fun _ _ hK => hK)
        fun _ => Turns.pure fun T' hT _ => hT.mono fun t ht => ?_
      · refine ht.mono (fun _ hms => Half.finish hms) fun cs hcs => Half.start ?_
        exact List.forall₂_iff_get.mpr ⟨hcs.symm, fun _ _ _ => trivial⟩
      · have hms := ht.methods
        have hcs := ht.constructors.finish
        rw [outline_eq] at hms hcs
        exact ⟨⟨hms, hcs, ht.inits⟩, ht.statics⟩

theorem bindMethod_counts (d : DeclaredType) (m : MethodDecl × Nat) : Counts (bindMethod d m) := by
  obtain ⟨m, i⟩ := m
  have hturns : Turns (TypeTable.On (fun _ => none) d.path (Bodied d [] _ fun _ => True)) True _ _ :=
    bindMethod_turns m (List.replicate i m) []
  rw [List.length_replicate] at hturns
  exact hturns.grows

theorem bindConstructor_counts (d : DeclaredType) (c : ConstructorDecl × Nat) :
    Counts (bindConstructor d c) := by
  obtain ⟨c, i⟩ := c
  have hturns : Turns (TypeTable.On (fun _ => none) d.path (Bodied d [] (fun _ => True) _)) True _ _ :=
    bindConstructor_turns c (List.replicate i c) []
  rw [List.length_replicate] at hturns
  exact hturns.grows

theorem bindBodies_counts (p : PopulatedType) : Counts (bindBodies p) := by
  unfold bindBodies
  split
  · exact Counts.pure []
  · refine (bindFieldInits_counts p.decl).bind fun statics => ?_
    refine (Counts.forAll fun m _ => bindMethod_counts p.decl m).bind fun _ => ?_
    refine (Counts.forAll fun c _ => bindConstructor_counts p.decl c).bind fun _ => ?_
    exact Counts.pure statics

theorem bindAllBodies_turns {ds : List DeclaredType} (ps : List PopulatedType)
    (hdistinct : (ds.map DeclaredType.path).Nodup) (hplain : ∀ d ∈ ds, d.Plain) :
    Turns (fun T => List.Forall₂ (fun d p => ∃ t, T d.path = some t ∧ Laid d d.outline p t) ds ps) True
      (bindAllBodies ps) fun code T => ∃ parts, List.Forall₂ (fun d part => ∃ t, T d.path = some t ∧
        d.FormedBy t ∧ d.StaticsSetBy t part) ds parts ∧ code = parts.flatten := by
  unfold bindAllBodies
  have hcounts := Counts.keepSome fun p (_ : p ∈ ps) => bindBodies_counts p
  refine Turns.start (hcounts.bind fun _ => Counts.pure _) fun T hlaid _ => ?_
  -- the list is made of the populated types, so that the loop can be followed type by type
  have hps : ds.map DeclaredType.populated = ps := by
    rw [← List.forall₂_eq_eq_eq, List.forall₂_map_left_iff]
    exact hlaid.imp fun d p ⟨t, _, ht⟩ => ht.listed.symm
  subst hps
  rw [List.forall₂_map_right_iff, List.forall₂_same] at hlaid
  have hpaths : ((ds.map DeclaredType.populated).map fun p => p.decl.path).Nodup := by
    rw [List.map_map]
    exact hdistinct
  have heach := Turns.each (k := fun p => p.decl.path)
    (B := fun p t => Laid p.decl p.decl.outline p t)
    (D := fun p part t => p.decl.FormedBy t ∧ p.decl.StaticsSetBy t part) (f := bindBodies) hpaths
    fun p hp T => ?_
  · refine Turns.bind (heach.mono (fun T' hT p hp => ?_) id fun _ _ hT => hT) fun parts =>
      Turns.pure fun T' hT _ => ⟨parts, ?_, rfl⟩
    · obtain ⟨d, hd, rfl⟩ := List.mem_map.mp hp
      exact hT ▸ hlaid d hd
    · rw [List.forall₂_map_left_iff] at hT
      exact hT
  · obtain ⟨d, hd, rfl⟩ := List.mem_map.mp hp
    exact bindBodies_turns (hplain d hd)

end Bind

end Chunkwise
