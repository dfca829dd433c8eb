import Chunkwise.Proofs.Binder.Declare
import Chunkwise.Proofs.Image.Shape
import Chunkwise.Proofs.Session.Valid

/-!
While members are added, the image is the old one and the declared types with well-formed
signatures, and storage grows by the slots of new static fields. `Ongoing` says so and holds to the
end of binding, also where binding gives up. `Populating` adds which bodies the type at hand still
lacks.
-/
namespace Chunkwise

open Attempt

/-- The same kind of type with the same modifiers. -/
structure TypeDef.SameHead (d e : TypeDef) : Prop where
  kind : d.kind = e.kind
  isStatic : d.isStatic = e.isStatic
  isAbstract : d.isAbstract = e.isAbstract

/-- The state is one on the way through the members of the declared types. -/
structure BindState.Ongoing (old : Session) (ds : List DeclaredType) (s : BindState) : Prop where
  extended : old.image.Extends s.image s.undo
  registry : s.registry = old.registry
  newVariables : s.newVariables = []
  cache : ∀ x ∈ s.cache, x.2.Known s.image
  usings : s.UsingsKnown
  store : old.store.Adds s.image s.store
  kept : ∀ p d, old.image.typeDef? p = some d → s.image.typeDef? p = some d
  new : ∀ p d, s.image.typeDef? p = some d → old.image.typeDef? p = some d ∨ ∃ x ∈ ds, x.path = p
  found : ∀ x ∈ ds, old.image.typeDef? x.path = none ∧
    ∃ d, s.image.typeDef? x.path = some d ∧ d.SameHead x.bare
  sigs : ∀ p d, s.image.typeDef? p = some d → d.SigOk s.image
  statics : ∀ i t, s.image.StaticSlot i t → s.store.Offers true i t ∧
    (old.image.StaticSlot i t ∨ old.store.slots.size ≤ i)
  marks : ∀ i isReadonly, s.image.Marks i isReadonly → old.image.Marks i isReadonly ∨
    old.store.slots.size ≤ i ∧ ∀ other, s.image.Marks i other → other = isReadonly

/-- The static field has a slot that no field of the image has, and no other field of its type. -/
structure BindState.Fresh (old : Session) (s : BindState) (d : TypeDef) (f : StaticField) : Prop where
  offers : s.store.Offers true f.slot f.type
  size : old.store.slots.size ≤ f.slot
  unmarked : ∀ isReadonly, ¬ s.image.Marks f.slot isReadonly
  only : ∀ g ∈ d.statics, g.slot = f.slot → g = f

/-- Nothing but issues, remembered names and the body has changed, and what is remembered exists. -/
structure BindState.Aside (s s' : BindState) : Prop where
  image : s'.image = s.image
  undo : s'.undo = s.undo
  registry : s'.registry = s.registry
  store : s'.store = s.store
  usings : s'.usings = s.usings
  newVariables : s'.newVariables = s.newVariables
  declared : s'.declared = s.declared
  issues : s.issues.hasAny = true → s'.issues.hasAny = true
  cache : ∀ x ∈ s'.cache, x.2.Known s'.image

/-- Nothing has been declared, whatever members have been added. -/
structure BindState.Stays (s s' : BindState) : Prop where
  shape : s'.image.shape = s.image.shape
  usings : s'.usings = s.usings
  declared : s'.declared = s.declared

theorem Entity.Known.keep {im im' : Image} (hk : im.Keeps im') :
    ∀ {e : Entity}, e.Known im → e.Known im'
  | .space _, _ => trivial
  | .type p, h => hk.knows (t := .named p) h

theorem TypeDef.bare_sigOk (im : Image) (kind : TypeKind) (isStatic isAbstract : Bool) :
    (TypeDef.bare kind isStatic isAbstract).SigOk im := by
  constructor <;> simp [bare]

namespace Image

theorem updateType_keeps {im : Image} {p : Path} {f : TypeDef → TypeDef}
    (h : ∀ d, im.typeDef? p = some d → (f d).kind = d.kind) : im.Keeps (im.updateType p f) := by
  intro q k hk
  obtain ⟨d, hd, rfl⟩ := Option.map_eq_some_iff.mp hk
  unfold kind?
  rw [typeDef?_updateType]
  split
  · next hq =>
    subst hq
    simp [hd, h d hd]
  · simp [hd]

theorem Extends.mem_paths {old im : Image} {undo : UndoLog} (h : old.Extends im undo) {p : Path}
    {d : TypeDef} (hd : im.typeDef? p = some d) (hold : old.typeDef? p = none) :
    p ∈ undo.paths := by
  obtain ⟨new, hnew, hpaths⟩ := h.entries
  have hfind : im.find? p = (old.find? p).or (new.find? fun e => e.path == p) := by
    unfold find?
    rw [hnew, List.find?_append]
  unfold typeDef? at hd hold
  rw [hfind] at hd
  cases ho : old.find? p with
  | some e =>
    obtain ⟨q, c⟩ := e
    cases c <;> simp [ho] at hd hold
  | none =>
    cases hn : new.find? fun e => e.path == p with
    | none => simp [ho, hn] at hd
    | some e =>
      rw [← hpaths]
      exact List.mem_map.mpr ⟨e, List.mem_of_find?_eq_some hn, by simpa using List.find?_some hn⟩

end Image

namespace BindState

variable {old : Session} {ds : List DeclaredType} {s s' s'' : BindState}

theorem Quiet.aside (h : s.Quiet s') : s.Aside s' :=
  ⟨h.image, h.undo, h.registry, h.store, h.usings, h.newVariables, h.declared, h.issues, h.cache⟩

theorem Aside.trans (h : s.Aside s') (h' : s'.Aside s'') : s.Aside s'' :=
  ⟨h'.image.trans h.image, h'.undo.trans h.undo, h'.registry.trans h.registry,
    h'.store.trans h.store, h'.usings.trans h.usings, h'.newVariables.trans h.newVariables,
    h'.declared.trans h.declared, fun hi => h'.issues (h.issues hi), h'.cache⟩

theorem Stays.refl (s : BindState) : s.Stays s := ⟨rfl, rfl, rfl⟩

theorem Stays.trans (h : s.Stays s') (h' : s'.Stays s'') : s.Stays s'' :=
  ⟨h'.shape.trans h.shape, h'.usings.trans h.usings, h'.declared.trans h.declared⟩

theorem Stays.aside (h : s.Stays s') (ha : s'.Aside s'') : s.Stays s'' :=
  ⟨ha.image ▸ h.shape, ha.usings.trans h.usings, ha.declared.trans h.declared⟩

theorem Stays.update (h : s.Stays s') (p : Path) (f : TypeDef → TypeDef) :
    s.Stays { s' with image := s'.image.updateType p f } :=
  ⟨(s'.image.updateType_shape p f).trans h.shape, h.usings, h.declared⟩

namespace Ongoing

theorem start (hold : old.Valid)
    (h : (BindState.start old.image old.registry old.store).Declares s ds) : s.Ongoing old ds where
  extended := h.extended old.image (.refl hold.closed)
  registry := h.registry
  newVariables := h.newVariables
  cache := by
    rw [h.cache]
    exact fun x hx => by cases hx
  usings u hu := by
    have hext := h.extended old.image (.refl hold.closed)
    have hkeeps : old.image.Keeps s.image := fun p k hk => by
      obtain ⟨d, hd, rfl⟩ := Option.map_eq_some_iff.mp hk
      exact Image.kind?_eq (h.gains.old p d hd)
    refine Entity.Known.keep hkeeps (hold.usings u ?_)
    simpa [allUsings, h.usings, hext.usings, BindState.start] using hu
  store := by
    rw [h.store]
    exact .refl _ _
  kept := h.gains.old
  new := h.gains.new
  found x hx := ⟨(h.gains.found x hx).1, x.bare, (h.gains.found x hx).2, rfl, rfl, rfl⟩
  sigs p d hd := by
    rcases h.gains.new p d hd with hd' | ⟨x, hx, rfl⟩
    · refine (hold.sound.sigs p d hd').keep fun q k hk => ?_
      obtain ⟨e, he, rfl⟩ := Option.map_eq_some_iff.mp hk
      exact Image.kind?_eq (h.gains.old q e he)
    · rw [(h.gains.found x hx).2] at hd
      cases hd
      exact TypeDef.bare_sigOk _ _ _ _
  statics i t hs := by
    obtain ⟨p, d, f, hd, hf, hi, ht⟩ := hs
    rcases h.gains.new p d hd with hd' | ⟨x, hx, rfl⟩
    · have hstatic : old.image.StaticSlot i t := ⟨p, d, f, hd', hf, hi, ht⟩
      exact ⟨h.store ▸ hold.statics i t hstatic, .inl hstatic⟩
    · rw [(h.gains.found x hx).2] at hd
      cases hd
      cases hf
  marks i isReadonly hm := by
    obtain ⟨p, d, f, hd, hf, hi, hr⟩ := hm
    rcases h.gains.new p d hd with hd' | ⟨x, hx, rfl⟩
    · exact .inl ⟨p, d, f, hd', hf, hi, hr⟩
    · rw [(h.gains.found x hx).2] at hd
      cases hd
      cases hf

theorem aside (h : s.Ongoing old ds) (ha : s.Aside s') : s'.Ongoing old ds where
  extended := by rw [ha.image, ha.undo]; exact h.extended
  registry := ha.registry.trans h.registry
  newVariables := ha.newVariables.trans h.newVariables
  cache := ha.cache
  usings := by
    have := h.usings
    unfold UsingsKnown allUsings at this ⊢
    rwa [ha.image, ha.usings]
  store := by rw [ha.image, ha.store]; exact h.store
  kept := by rw [ha.image]; exact h.kept
  new := by rw [ha.image]; exact h.new
  found := by rw [ha.image]; exact h.found
  sigs := by rw [ha.image]; exact h.sigs
  statics := by rw [ha.image, ha.store]; exact h.statics
  marks := by rw [ha.image]; exact h.marks

theorem quiet (h : s.Ongoing old ds) (hq : s.Quiet s') : s'.Ongoing old ds := h.aside hq.aside

theorem update (h : s.Ongoing old ds) {x : DeclaredType} (hx : x ∈ ds) {d : TypeDef}
    (hd : s.image.typeDef? x.path = some d) {f : TypeDef → TypeDef} (hhead : (f d).SameHead d)
    (hsig : (f d).SigOk s.image)
    (hstatics : ∀ g ∈ (f d).statics, g ∈ d.statics ∨ s.Fresh old (f d) g) :
    ({ s with image := s.image.updateType x.path f } : BindState).Ongoing old ds := by
  have hkeeps : s.image.Keeps (s.image.updateType x.path f) :=
    Image.updateType_keeps fun e he => by
      obtain rfl : d = e := by simpa [hd] using he
      exact hhead.kind
  have hat : ∀ {p e}, (s.image.updateType x.path f).typeDef? p = some e →
      p = x.path ∧ e = f d ∨ p ≠ x.path ∧ s.image.typeDef? p = some e := by
    intro p e he
    rw [Image.typeDef?_updateType] at he
    split at he
    · next hp =>
      subst hp
      rw [hd] at he
      exact .inl ⟨rfl, by simpa using he.symm⟩
    · next hp => exact .inr ⟨hp, he⟩
  obtain ⟨hnone, d', hd', hhead'⟩ := h.found x hx
  obtain rfl : d = d' := by simpa [hd] using hd'
  exact {
    extended := h.extended.updateType f (h.extended.mem_paths hd hnone)
    registry := h.registry
    newVariables := h.newVariables
    cache := fun y hy => (h.cache y hy).keep hkeeps
    usings := fun u hu => (h.usings u hu).keep hkeeps
    store := h.store.keep hkeeps
    kept := fun p e he => by
      have hp : p ≠ x.path := by
        rintro rfl
        rw [hnone] at he
        cases he
      rw [Image.typeDef?_updateType, if_neg hp]
      exact h.kept p e he
    new := fun p e he => by
      rcases hat he with ⟨rfl, -⟩ | ⟨-, he⟩
      · exact .inr ⟨x, hx, rfl⟩
      · exact h.new p e he
    found := fun y hy => by
      obtain ⟨hn, e, he, hh⟩ := h.found y hy
      refine ⟨hn, ?_⟩
      rw [Image.typeDef?_updateType]
      split
      · next hp =>
        rw [hp, hd] at he
        cases he
        refine ⟨f d, by simp [hp, hd], hhead.kind.trans hh.kind, hhead.isStatic.trans hh.isStatic,
          hhead.isAbstract.trans hh.isAbstract⟩
      · exact ⟨e, he, hh⟩
    sigs := fun p e he => by
      rcases hat he with ⟨-, rfl⟩ | ⟨-, he⟩
      · exact hsig.keep hkeeps
      · exact (h.sigs p e he).keep hkeeps
    statics := fun i t hs => by
      obtain ⟨p, e, g, he, hg, rfl, rfl⟩ := hs
      rcases hat he with ⟨rfl, rfl⟩ | ⟨-, he⟩
      · rcases hstatics g hg with hg | hfresh
        · exact h.statics _ _ ⟨_, d, g, hd, hg, rfl, rfl⟩
        · exact ⟨hfresh.offers, .inr hfresh.size⟩
      · exact h.statics _ _ ⟨p, e, g, he, hg, rfl, rfl⟩
    marks := fun i isReadonly hm => by
      -- a field of the new image is one of the old image or a fresh one
      have hcases : ∀ {r}, (s.image.updateType x.path f).Marks i r → s.image.Marks i r ∨
          ∃ g ∈ (f d).statics, s.Fresh old (f d) g ∧ g.slot = i ∧ g.isReadonly = r := by
        rintro r ⟨p, e, g, he, hg, hi, hr⟩
        rcases hat he with ⟨rfl, rfl⟩ | ⟨-, he⟩
        · rcases hstatics g hg with hg' | hfresh
          · exact .inl ⟨_, d, g, hd, hg', hi, hr⟩
          · exact .inr ⟨g, hg, hfresh, hi, hr⟩
        · exact .inl ⟨p, e, g, he, hg, hi, hr⟩
      rcases hcases hm with hm' | ⟨g, hg, hfresh, rfl, rfl⟩
      · refine (h.marks i isReadonly hm').imp_right fun ⟨hsize, honly⟩ => ⟨hsize, fun other ho => ?_⟩
        rcases hcases ho with ho | ⟨g, -, hfresh, rfl, -⟩
        · exact honly other ho
        · exact absurd hm' (hfresh.unmarked _)
      · refine .inr ⟨hfresh.size, fun other ho => ?_⟩
        rcases hcases ho with ho | ⟨k, hk, -, hslot, rfl⟩
        · exact absurd ho (hfresh.unmarked _)
        · rw [hfresh.only k hk hslot] }

theorem addSlot (h : s.Ongoing old ds) (name : String) {t : Ty} (ht : s.image.Knows t) :
    ({ s with store := (s.store.addSlot name t (s.image.defaultValue t)).2 } : BindState).Ongoing
      old ds := by
  have hadds := Store.Adds.addSlot s.image s.store name ht
  exact { h with
    store := h.store.trans hadds
    statics := fun i u hs => ⟨hadds.offers (h.statics i u hs).1, (h.statics i u hs).2⟩
    marks := h.marks }

/-- A field with a slot that has just been added is fresh. -/
theorem fresh_addSlot (h : s.Ongoing old ds) (name : String) (t : Ty) {d : TypeDef} {f : StaticField}
    (hslot : f.slot = s.store.slots.size) (htype : f.type = t)
    (hd : ∀ g ∈ d.statics, g = f ∨ ∃ p e, s.image.typeDef? p = some e ∧ g ∈ e.statics) :
    ({ s with store := (s.store.addSlot name t (s.image.defaultValue t)).2 } : BindState).Fresh old d
      f := by
  have hold : ∀ {i r}, s.image.Marks i r → i < s.store.slots.size := fun hm => by
    obtain ⟨u, hu⟩ := hm.staticSlot
    exact (h.statics _ u hu).1.lt
  refine ⟨?_, hslot ▸ h.store.size, fun r hm => ?_, fun g hg hgf => ?_⟩
  · rw [hslot, htype]
    exact Store.offers_addSlot _ _ _ _ _
  · exact absurd (hold hm) (by omega)
  · rcases hd g hg with rfl | ⟨p, e, he, hge⟩
    · rfl
    · have hlt := hold (r := g.isReadonly) ⟨p, e, g, he, hge, rfl, rfl⟩
      omega

end Ongoing

end BindState

namespace TypeDef.SigOk

variable {im : Image} {d : TypeDef}

theorem addStatic (h : d.SigOk im) {g : StaticField} (hg : im.Knows g.type) :
    ({ d with statics := d.statics ++ [g] } : TypeDef).SigOk im :=
  { h with
    statics := fun f hf => by
      rcases List.mem_append.mp hf with hf | hf
      · exact h.statics f hf
      · rwa [List.mem_singleton.mp hf] }

theorem addField (h : d.SigOk im) {g : InstanceField} (hg : im.Knows g.type) :
    ({ d with fields := d.fields ++ [g] } : TypeDef).SigOk im :=
  { h with
    fields := fun f hf => by
      rcases List.mem_append.mp hf with hf | hf
      · exact h.fields f hf
      · rwa [List.mem_singleton.mp hf] }

theorem addMethod (h : d.SigOk im) {m : Method} (hm : m.SigOk im)
    (habstract : m.isAbstract = true → d.isAbstract = true ∧ m.isStatic = false)
    (hnew : ∀ n ∈ d.methods, n.sameSignature m = false) :
    ({ d with methods := d.methods ++ [m] } : TypeDef).SigOk im :=
  { h with
    methods := fun n hn => by
      rcases List.mem_append.mp hn with hn | hn
      · exact h.methods n hn
      · rwa [List.mem_singleton.mp hn]
    abstracts := fun n hn ha => by
      rcases List.mem_append.mp hn with hn | hn
      · exact h.abstracts n hn ha
      · rw [List.mem_singleton.mp hn] at ha ⊢
        exact habstract ha
    distinct := by
      refine List.pairwise_append.mpr ⟨h.distinct, List.pairwise_singleton _ _, fun n hn k hk => ?_⟩
      rw [List.mem_singleton.mp hk]
      exact hnew n hn }

theorem addConstructor (h : d.SigOk im) {m : Method} (hm : m.SigOk im) (hr : m.returns = .void)
    (ha : m.isAbstract = false) :
    ({ d with constructors := d.constructors ++ [m] } : TypeDef).SigOk im :=
  { h with
    constructors := fun n hn => by
      rcases List.mem_append.mp hn with hn | hn
      · exact h.constructors n hn
      · rw [List.mem_singleton.mp hn]
        exact ⟨hm, hr, ha⟩ }

end TypeDef.SigOk

theorem getElem?_concat {α : Type} {l : List α} {a b : α} {i : Nat} (h : (l ++ [a])[i]? = some b) :
    l[i]? = some b ∨ i = l.length ∧ b = a := by
  rw [List.getElem?_append] at h
  split at h
  · exact .inl h
  · rw [List.getElem?_singleton] at h
    split at h
    · exact .inr ⟨by omega, by simpa using h.symm⟩
    · cases h

/-- What a definition lacks: the bodies at the listed positions and no others. -/
structure TypeDef.Lacks (d : TypeDef) (ms : List (MethodDecl × Nat))
    (cs : List (ConstructorDecl × Nat)) : Prop where
  inits : d.inits = []
  methods : ∀ (i : Nat) (m : Method), d.methods[i]? = some m → m.body = .abstractMember ∨
    m.body = .missing ∧ d.hasObjects = true ∧ ∃ decl, (decl, i) ∈ ms ∧ decl.body.isSome = true
  listed : ∀ x ∈ ms, ∃ m, d.methods[x.2]? = some m ∧
    (x.1.body.isSome = true → m.isAbstract = false)
  constructors : ∀ (i : Nat) (m : Method), d.constructors[i]? = some m →
    m.body = .missing ∧ d.hasObjects = true ∧ ∃ decl, (decl, i) ∈ cs

namespace TypeDef.Lacks

variable {d : TypeDef} {methods : List (MethodDecl × Nat)}
  {constructors : List (ConstructorDecl × Nat)}

theorem bare (kind : TypeKind) (isStatic isAbstract : Bool) :
    (TypeDef.bare kind isStatic isAbstract).Lacks [] [] :=
  ⟨rfl, by simp [TypeDef.bare], by simp, by simp [TypeDef.bare]⟩

theorem addMethod (h : d.Lacks methods constructors) {m : Method} {decl : MethodDecl}
    (hm : m.body = .abstractMember ∧ decl.body.isSome = false ∨
      m.body = .missing ∧ d.hasObjects = true ∧ decl.body.isSome = true) :
    ({ d with methods := d.methods ++ [m] } : TypeDef).Lacks
      (methods ++ [(decl, d.methods.length)]) constructors := by
  refine ⟨h.inits, fun i n hn => ?_, fun x hx => ?_, h.constructors⟩
  · rcases getElem?_concat hn with hn | ⟨rfl, rfl⟩
    · rcases h.methods i n hn with hb | ⟨hb, ho, decl', hin, hsome⟩
      · exact .inl hb
      · exact .inr ⟨hb, ho, decl', List.mem_append_left _ hin, hsome⟩
    · rcases hm with ⟨hb, -⟩ | ⟨hb, ho, hsome⟩
      · exact .inl hb
      · exact .inr ⟨hb, ho, decl, by simp, hsome⟩
  · rcases List.mem_append.mp hx with hx | hx
    · obtain ⟨n, hn, hconcrete⟩ := h.listed x hx
      have hlt := (List.getElem?_eq_some_iff.mp hn).1
      exact ⟨n, (List.getElem?_append_left hlt).trans hn, hconcrete⟩
    · obtain rfl := List.mem_singleton.mp hx
      refine ⟨m, by simp, fun hsome => ?_⟩
      rcases hm with ⟨-, hnone⟩ | ⟨hb, -⟩
      · rw [hsome] at hnone
        cases hnone
      · simp [Method.isAbstract, hb]

theorem addConstructor (h : d.Lacks methods constructors) {m : Method} (decl : ConstructorDecl)
    (hm : m.body = .missing) (ho : d.hasObjects = true) :
    ({ d with constructors := d.constructors ++ [m] } : TypeDef).Lacks methods
      (constructors ++ [(decl, d.constructors.length)]) := by
  refine ⟨h.inits, h.methods, h.listed, fun i n hn => ?_⟩
  rcases getElem?_concat hn with hn | ⟨rfl, rfl⟩
  · obtain ⟨hb, ho, decl', hin⟩ := h.constructors i n hn
    exact ⟨hb, ho, decl', List.mem_append_left _ hin⟩
  · exact ⟨hm, ho, decl, by simp⟩

end TypeDef.Lacks

/-- The type at hand is given its members; the other types are what they were. -/
structure BindState.Populating (old : Session) (ds : List DeclaredType) (s s₀ : BindState)
    (p : PopulatedType) : Prop where
  ongoing : s.Ongoing old ds
  stays : s₀.Stays s
  frame : ∀ q, q ≠ p.decl.path → s.image.typeDef? q = s₀.image.typeDef? q
  lacks : ∃ d, s.image.typeDef? p.decl.path = some d ∧ d.Lacks p.methods p.constructors

namespace BindState.Populating

variable {old : Session} {ds : List DeclaredType} {s₀ s s' : BindState} {p p' : PopulatedType}

theorem quiet (h : s.Populating old ds s₀ p) (hq : s.Quiet s') : s'.Populating old ds s₀ p :=
  ⟨h.ongoing.quiet hq, h.stays.aside hq.aside, by rw [hq.image]; exact h.frame,
    by rw [hq.image]; exact h.lacks⟩

theorem addSlot (h : s.Populating old ds s₀ p) (name : String) {t : Ty} (ht : s.image.Knows t) :
    ({ s with store := (s.store.addSlot name t (s.image.defaultValue t)).2 } : BindState).Populating
      old ds s₀ p :=
  ⟨h.ongoing.addSlot name ht, ⟨h.stays.shape, h.stays.usings, h.stays.declared⟩, h.frame, h.lacks⟩

theorem update (h : s.Populating old ds s₀ p) (hp : p.decl ∈ ds) (hdecl : p'.decl = p.decl)
    {f : TypeDef → TypeDef} (hf : ∀ d, s.image.typeDef? p.decl.path = some d → d.SigOk s.image →
      d.SameHead p.decl.bare → d.Lacks p.methods p.constructors →
      (f d).SameHead d ∧ (f d).SigOk s.image ∧ (f d).Lacks p'.methods p'.constructors ∧
      ∀ g ∈ (f d).statics, g ∈ d.statics ∨ s.Fresh old (f d) g) :
    ({ s with image := s.image.updateType p.decl.path f } : BindState).Populating old ds s₀ p' := by
  obtain ⟨d, hd, hlacks⟩ := h.lacks
  obtain ⟨-, d', hd', hhead'⟩ := h.ongoing.found _ hp
  obtain rfl : d = d' := by simpa [hd] using hd'
  obtain ⟨hhead, hsig, hl, hstatics⟩ := hf d hd (h.ongoing.sigs _ d hd) hhead' hlacks
  refine ⟨h.ongoing.update hp hd hhead hsig hstatics, h.stays.update _ _, fun q hq => ?_, f d, ?_,
    hl⟩
  · rw [hdecl] at hq
    rw [Image.typeDef?_updateType, if_neg hq]
    exact h.frame q hq
  · rw [hdecl, Image.typeDef?_updateType, if_pos rfl, hd]
    rfl

end BindState.Populating

end Chunkwise
