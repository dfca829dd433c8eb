import Chunkwise.Binder.Member
import Chunkwise.Proofs.Binder.Names
import Chunkwise.Proofs.Typing.Writes

/-!
What a name denotes is typed, and it may be assigned exactly if it is not marked as read-only. `Fits` and
`Opens` say what the state has to offer for that: the types of all that has a name, and the locations that
code here may write.
-/
namespace Chunkwise

open Attempt

/-- A name in scope stands for a location of its type. -/
def Binding.Ok (c : TypingContext) : Binding → Prop
  | .frame i t _ => c.locals i = some t ∧ c.image.Knows t
  | .variable i t _ => c.slots i t ∧ c.image.Knows t

/-- The typing context describes the place where binding stands. -/
structure BindState.Fits (s : BindState) (c : TypingContext) : Prop where
  image : c.image = s.image
  self : c.self = s.body.thisType
  usings : s.UsingsKnown
  sigs : ∀ p d, c.image.typeDef? p = some d → d.SigOk c.image
  objects : ∀ p, c.self = some p → ∃ d, c.image.typeDef? p = some d ∧ d.hasObjects = true
  statics : ∀ i t, c.image.StaticSlot i t → c.slots i t
  registry : s.body.isHost = true → ∀ name v slot, s.registry.lookup name = some v →
    s.store.slots[v.slot]? = some slot → c.slots v.slot slot.type ∧ c.image.Knows slot.type
  scopes : ∀ scope ∈ s.body.scopes.all, ∀ x ∈ scope.bindings, x.2.Ok c

/-- Whether a receiver of the group's calls has the methods of the group. -/
def MethodGroup.Ok (c : TypingContext) (g : MethodGroup) : Prop :=
  match g.dispatch with
  | .toText => ∀ e, g.receiver = some e → ∃ t, e.HasType c t
  | .virtual => ∃ e p d, g.receiver = some e ∧ e.HasType c (.named p) ∧
      c.image.typeDef? p = some d ∧ d.kind = .interfaceKind ∧
      ∀ x ∈ g.candidates, ∃ i, x.1 = .member p i ∧ d.methods[i]? = some x.2
  | .direct => ∀ x ∈ g.candidates, Machine.method? c.image x.1 = some x.2 ∧
      (x.2.isStatic = false → ∀ e, g.receiver = some e → ∃ p d i, x.1 = .member p i ∧
        e.HasType c (.named p) ∧ c.image.typeDef? p = some d ∧ d.hasObjects = true ∧
        d.methods[i]? = some x.2)

def Resolved.Ok (c : TypingContext) : Resolved → Prop
  | .value e t => e.HasType c t ∧ c.image.Knows t
  | .place p t _ => p.HasType c t ∧ c.image.Knows t
  | .type p => c.image.Knows (.named p)
  | .space _ => True
  | .methods g => g.Ok c

/-- A name in scope is read-only, or its location is one of these. -/
def Binding.Opens (A : Place → Prop) : Binding → Prop
  | .frame i _ isReadonly => isReadonly = false → A (.frame i)
  | .variable i _ isReadonly => isReadonly = false → A (.static i)

/-- Whatever location has a name here is read-only or one of these. The read-only fields of an object
are open to a constructor that reaches them through `this`. -/
structure BindState.Opens (c : TypingContext) (A : Place → Prop) (s : BindState) : Prop where
  scopes : ∀ scope ∈ s.body.scopes.all, ∀ x ∈ scope.bindings, x.2.Opens A
  registry : s.body.isHost = true → ∀ name v, s.registry.lookup name = some v →
    v.isReadonly = false → A (.static v.slot)
  statics : ∀ p d f, c.image.typeDef? p = some d → f ∈ d.statics → f.isReadonly = false →
    A (.static f.slot)
  fields : ∀ target p d i f, target.HasType c (.named p) → c.image.typeDef? p = some d →
    d.fields[i]? = some f →
    (f.isReadonly = true → target = .thisRef ∧ s.body.inConstructor = true) → A (.field target i)

/-- What a denotation writes, and the location that it lets assign, are among these. -/
def Resolved.Opens (A : Place → Prop) : Resolved → Prop
  | .value e _ => e.WritesOnly A
  | .place p _ isReadonly => p.WritesOnly A ∧ (isReadonly = false → A p)
  | .type _ | .space _ => True
  | .methods group => ∀ e, group.receiver = some e → e.WritesOnly A

/-- Typed, and nothing but what is open is written. -/
def Resolved.Sound (c : TypingContext) (A : Place → Prop) (r : Resolved) : Prop := r.Ok c ∧ r.Opens A

theorem BindState.opens_all (s : BindState) (c : TypingContext) : s.Opens c fun _ => True where
  scopes _ _ x _ := by cases x.2 <;> exact fun _ => trivial
  registry _ _ _ _ _ := trivial
  statics _ _ _ _ _ _ := trivial
  fields _ _ _ _ _ _ _ _ _ := trivial

namespace TypeDef

variable {d : TypeDef} {name : String}

theorem field?_eq_some {i : Nat} {f : InstanceField} (h : d.field? name = some (i, f)) :
    d.fields[i]? = some f := by
  unfold field? at h
  split at h
  · obtain ⟨g, hg, heq⟩ := Option.map_eq_some_iff.mp h
    cases heq
    exact hg
  · cases h

/-- The names of the fields, those of objects first. -/
def fieldNames (d : TypeDef) : List String :=
  d.fields.map InstanceField.name ++ d.statics.map StaticField.name

theorem isSome_static? : (d.static? name).isSome = true ↔ name ∈ d.statics.map StaticField.name := by
  simp [static?]

theorem isSome_field? : (d.field? name).isSome = true ↔ name ∈ d.fields.map InstanceField.name := by
  unfold field?
  constructor
  · intro h
    split at h
    · next i hi =>
      obtain ⟨hlt, hname, -⟩ := List.findIdx?_eq_some_iff_getElem.mp hi
      exact List.mem_map.mpr ⟨_, List.getElem_mem hlt, by simpa using hname⟩
    · cases h
  · intro h
    obtain ⟨f, hf, rfl⟩ := List.mem_map.mp h
    have hfound : (d.fields.findIdx? fun g => g.name == f.name).isSome = true := by
      rw [List.findIdx?_isSome]
      exact List.any_eq_true.mpr ⟨f, hf, by simp⟩
    obtain ⟨i, hi⟩ := Option.isSome_iff_exists.mp hfound
    obtain ⟨hlt, -⟩ := List.findIdx?_eq_some_iff_getElem.mp hi
    simp [hi, hlt]

theorem methodsNamed_eq_nil : d.methodsNamed name = [] ↔ ∀ m ∈ d.methods, m.name ≠ name := by
  constructor
  · intro h m hm hname
    obtain ⟨i, hi⟩ := List.mem_iff_getElem?.mp hm
    have hin : (i, m) ∈ d.methodsNamed name := mem_methodsNamed.mpr ⟨hi, hname⟩
    rw [h] at hin
    cases hin
  · intro h
    refine List.eq_nil_iff_forall_not_mem.mpr fun x hx => ?_
    obtain ⟨hi, hname⟩ := mem_methodsNamed.mp hx
    exact h x.2 (List.mem_of_getElem? hi) hname

theorem mem_candidates {p : Path} {x : MethodRef × Method} (h : x ∈ d.candidates p name) :
    ∃ i, x.1 = .member p i ∧ d.methods[i]? = some x.2 := by
  obtain ⟨⟨i, m⟩, hm, rfl⟩ := List.mem_map.mp h
  exact ⟨i, rfl, (mem_methodsNamed.mp hm).1⟩

theorem enumMembers_of_enumValue? {n : Int64} (h : d.enumValue? name = some n) :
    d.enumMembers ≠ [] := by
  intro hnil
  simp [enumValue?, hnil] at h

theorem eq_of_getD {d? : Option TypeDef} (h : d = d?.getD (.bare .classKind false false)) :
    d? = some d ∨ d = .bare .classKind false false := by
  cases d? with
  | none => exact .inr h
  | some e => exact .inl (by rw [h]; rfl)

end TypeDef

namespace Image

variable {im : Image} {p : Path} {d : TypeDef}

theorem typeDef?_of_field {name : String} {i : Nat} {f : InstanceField}
    (h : d = (im.typeDef? p).getD (.bare .classKind false false))
    (hf : d.field? name = some (i, f)) : im.typeDef? p = some d := by
  rcases TypeDef.eq_of_getD h with hd | rfl
  · exact hd
  · have := TypeDef.field?_eq_some hf
    simp [TypeDef.bare] at this

theorem typeDef?_of_static {name : String} {f : StaticField}
    (h : d = (im.typeDef? p).getD (.bare .classKind false false))
    (hf : d.static? name = some f) : im.typeDef? p = some d := by
  rcases TypeDef.eq_of_getD h with hd | rfl
  · exact hd
  · cases hf

theorem typeDef?_of_enumValue {name : String} {n : Int64}
    (h : d = (im.typeDef? p).getD (.bare .classKind false false))
    (hn : d.enumValue? name = some n) : im.typeDef? p = some d := by
  rcases TypeDef.eq_of_getD h with hd | rfl
  · exact hd
  · cases hn

theorem typeDef?_of_method {i : Nat} {m : Method}
    (h : d = (im.typeDef? p).getD (.bare .classKind false false))
    (hm : d.methods[i]? = some m) : im.typeDef? p = some d := by
  rcases TypeDef.eq_of_getD h with hd | rfl
  · exact hd
  · simp [TypeDef.bare] at hm

end Image

/-- What the helpers of the host and the methods of types have in common. -/
theorem sigOk_of_method? {c : TypingContext} (hs : ∀ p d, c.image.typeDef? p = some d → d.SigOk c.image)
    {ref : MethodRef} {m : Method} (h : Machine.method? c.image ref = some m) :
    m.SigOk c.image := by
  cases ref with
  | helper i =>
    obtain ⟨hi, rfl⟩ := List.getElem?_eq_some_iff.mp h
    match i, hi with
    | 0, _ => exact ⟨by simp [Builtin.helpers, Builtin.native, Method.paramTypes, Image.Knows],
        by simp [Builtin.helpers, Builtin.native], trivial⟩
  | member p i =>
    obtain ⟨d, hd, hm⟩ := Option.bind_eq_some_iff.mp h
    exact (hs p d hd).methods m (List.mem_of_getElem? hm)

namespace Bind

variable {s₀ : BindState} {c : TypingContext}

theorem typeDef_fits (h : s₀.Fits c) (p : Path) : Yields s₀.Quiet (typeDef p) fun d =>
    d = (c.image.typeDef? p).getD (.bare .classKind false false) :=
  (typeDef_quiet p).mono fun _ hd => by rw [h.image, hd]

theorem image_fits (h : s₀.Fits c) : Yields s₀.Quiet image fun im => im = c.image :=
  image_quiet.mono fun _ him => him.trans h.image.symm

section Denotations

variable {A : Place → Prop} (h : s₀.Fits c) (hA : s₀.Opens c A)
include h

include hA in
theorem ofStatic_sound {p : Path} {d : TypeDef} {name : String} {f : StaticField}
    (hd : d = (c.image.typeDef? p).getD (.bare .classKind false false))
    (hf : d.static? name = some f) : (Resolved.ofStatic f).Sound c A := by
  have hp := Image.typeDef?_of_static hd hf
  have hmem := List.mem_of_find?_eq_some hf
  exact ⟨⟨h.statics _ _ ⟨p, d, f, hp, hmem, rfl, rfl⟩, (h.sigs p d hp).statics f hmem⟩, .static _,
    hA.statics p d f hp hmem⟩

theorem ofEnum_sound {p : Path} {d : TypeDef} {name : String} {n : Int64}
    (hd : d = (c.image.typeDef? p).getD (.bare .classKind false false))
    (hn : d.enumValue? name = some n) : (Resolved.ofEnum p n).Sound c A := by
  have hp := Image.typeDef?_of_enumValue hd hn
  have hk := (h.sigs p d hp).enumMembers (TypeDef.enumMembers_of_enumValue? hn)
  refine ⟨⟨⟨?_, d, hp⟩, d, hp⟩, .const _⟩
  simp [Value.Conforms, Image.kind?_eq hp, hk]

include hA in
/-- A field of an object. A read-only one may be marked otherwise in a constructor, for `this`. -/
theorem field_sound {p : Path} {d : TypeDef} {name : String} {i : Nat} {f : InstanceField}
    {target : BoundExpr} {isReadonly : Bool}
    (hd : d = (c.image.typeDef? p).getD (.bare .classKind false false))
    (hf : d.field? name = some (i, f)) (ho : d.hasObjects = true) (ht : target.HasType c (.named p))
    (hw : target.WritesOnly A) (hopen : isReadonly = false → f.isReadonly = true →
      target = .thisRef ∧ s₀.body.inConstructor = true) :
    (Resolved.place (.field target i) f.type isReadonly).Sound c A := by
  have hp := Image.typeDef?_of_field hd hf
  have hi := TypeDef.field?_eq_some hf
  refine ⟨⟨⟨p, d, f, ht, hp, ho, hi, rfl⟩, (h.sigs p d hp).fields f (List.mem_of_getElem? hi)⟩, ?_⟩
  exact ⟨.field hw i, fun hmark => hA.fields target p d i f ht hp hi (hopen hmark)⟩

omit h in
/-- Methods of a type, called on an object of it or through its name. -/
theorem candidates_sound {p : Path} {d : TypeDef} {name : String} {receiver : Option BoundExpr}
    {candidates : List (MethodRef × Method)}
    (hd : d = (c.image.typeDef? p).getD (.bare .classKind false false))
    (hc : ∀ x ∈ candidates, x ∈ d.candidates p name)
    (hr : ∀ e, receiver = some e → e.HasType c (.named p) ∧ d.hasObjects = true)
    (hw : ∀ e, receiver = some e → e.WritesOnly A) :
    (Resolved.methods ⟨name, receiver, candidates, .direct⟩).Sound c A := by
  refine ⟨fun x hx => ?_, hw⟩
  obtain ⟨i, hi, hm⟩ := TypeDef.mem_candidates (hc x hx)
  have hp := Image.typeDef?_of_method hd hm
  refine ⟨by simp [hi, Machine.method?, hp, hm], fun _ e he => ?_⟩
  obtain ⟨het, ho⟩ := hr e he
  exact ⟨p, d, i, hi, het, hp, ho, hm⟩

theorem self_hasType {p : Path} (hp : (s₀.body.thisType == some p) = true) :
    BoundExpr.thisRef.HasType c (.named p) :=
  ⟨p, h.self.trans (eq_of_beq hp), rfl⟩

theorem self_hasObjects {p : Path} {d : TypeDef}
    (hd : d = (c.image.typeDef? p).getD (.bare .classKind false false))
    (hp : (s₀.body.thisType == some p) = true) : d.hasObjects = true := by
  obtain ⟨d', hd', ho⟩ := h.objects p (h.self.trans (eq_of_beq hp))
  rw [hd, hd']
  exact ho

include hA

theorem enclosingMember_sound (outer : Path) (id : Ident) :
    Yields s₀.Quiet (enclosingMember outer id) fun r? => ∀ r, r? = some r → r.Sound c A := by
  unfold enclosingMember
  refine (typeDef_fits h outer).bind fun d hd => body_quiet.bind fun b hb => ?_
  subst hb
  split
  · next hf =>
    split
    · next hthis =>
      refine Yields.pure fun r hr => ?_
      cases hr
      refine field_sound h hA hd hf (self_hasObjects h hd hthis) (self_hasType h hthis) .thisRef
        fun hmark hreadonly => ⟨rfl, ?_⟩
      simpa [hreadonly] using hmark
    · exact refuse_quiet _ _
  · split
    · next hf =>
      refine Yields.pure fun r hr => ?_
      cases hr
      exact ofStatic_sound h hA hd hf
    · split
      · next hn =>
        refine Yields.pure fun r hr => ?_
        cases hr
        exact ofEnum_sound h hd hn
      · simp only
        split
        · refine Yields.pure fun r hr => ?_
          cases hr
          refine candidates_sound hd (fun x hx => hx) (fun e he => ?_) fun e he => ?_
          · split at he
            · next hthis =>
              cases he
              exact ⟨self_hasType h hthis, self_hasObjects h hd hthis⟩
            · cases he
          · split at he
            · cases he
              exact .thisRef
            · cases he
        · refine (image_fits h).bind fun im him => Yields.pure fun r hr => ?_
          subst him
          obtain ⟨p, hp, rfl⟩ := Option.map_eq_some_iff.mp hr
          exact ⟨known_of_nested hp, trivial⟩

theorem enclosingMembers_sound (id : Ident) (outers : List Path) :
    Yields s₀.Quiet (enclosingMembers id outers) fun r? => ∀ r, r? = some r → r.Sound c A := by
  induction outers with
  | nil => exact Yields.pure (by simp)
  | cons outer rest ih =>
    unfold enclosingMembers
    refine (enclosingMember_sound h hA outer id).bind fun r? hr => ?_
    split
    · next r =>
      refine Yields.pure fun r' hr' => ?_
      cases hr'
      exact hr r rfl
    · exact ih

theorem registered_sound (name : String) :
    Yields s₀.Quiet (registered name) fun r? => ∀ r, r? = some r → r.Sound c A := by
  intro s hs
  unfold registered
  rw [hs.body, hs.registry, hs.store]
  by_cases hhost : s₀.body.isHost = true
  · rw [if_pos hhost]
    cases hv : s₀.registry.lookup name with
    | none => exact ⟨hs, by simp⟩
    | some v =>
      cases hslot : s₀.store.slots[v.slot]? with
      | none => simpa only [hslot] using ⟨hs, by simp⟩
      | some slot =>
        simp only [hslot]
        refine ⟨hs, fun r hr => ?_⟩
        cases hr
        exact ⟨h.registry hhost name v slot hv hslot, .static _, hA.registry hhost name v hv⟩
  · rw [if_neg hhost]
    exact ⟨hs, by simp⟩

omit h hA in
theorem mem_helpersNamed {name : String} {x : MethodRef × Method}
    (hx : x ∈ Builtin.helpersNamed name) : Machine.method? c.image x.1 = some x.2 ∧
      x.2.isStatic = true := by
  simp only [Builtin.helpersNamed, List.mem_map, List.mem_filter, Prod.exists] at hx
  obtain ⟨m, i, ⟨hm, -⟩, rfl⟩ := hx
  have hi := List.mem_zipIdx_iff_getElem?.mp hm
  refine ⟨hi, ?_⟩
  have hmem := List.mem_of_getElem? hi
  simp only [Builtin.helpers, List.mem_singleton] at hmem
  subst hmem
  rfl

omit h hA in
theorem hostHelper_sound (name : String) :
    Yields s₀.Quiet (hostHelper name) fun r? => ∀ r, r? = some r → r.Sound c A := by
  unfold hostHelper
  refine body_quiet.bind fun b _ => ?_
  split
  · refine Yields.pure fun r hr => ?_
    cases hr
    refine ⟨fun x hx => ?_, fun e he => by cases he⟩
    obtain ⟨hm, hstatic⟩ := mem_helpersNamed hx
    exact ⟨hm, fun hs => by simp [hstatic] at hs⟩
  · exact Yields.pure (by simp)

omit h hA in
theorem ofEntity_sound {e : Entity} (he : e.Known c.image) : (Resolved.ofEntity e).Sound c A := by
  cases e with
  | space p => exact ⟨trivial, trivial⟩
  | type p => exact ⟨he, trivial⟩

theorem binding_sound {name : String} {b : Binding} (hb : s₀.body.scopes.lookup name = some b) :
    (Resolved.ofBinding b).Sound c A := by
  obtain ⟨scope, hscope, hl⟩ := List.exists_of_findSome?_eq_some hb
  have hok := h.scopes scope hscope _ (mem_of_lookup hl)
  have hopens := hA.scopes scope hscope _ (mem_of_lookup hl)
  match b, hok, hopens with
  | .frame i _ _, hok, hopens => exact ⟨hok, .frame i, hopens⟩
  | .variable i _ _, hok, hopens => exact ⟨hok, .static i, hopens⟩

theorem resolveName_sound (id : Ident) : Yields s₀.Quiet (resolveName id) fun r => r.Sound c A := by
  unfold resolveName
  refine body_quiet.bind fun b hb => ?_
  subst hb
  split
  · next hl => exact Yields.pure (binding_sound h hA hl)
  · refine (registered_sound h hA id.name).bind fun r? hr => ?_
    split
    · exact Yields.pure (hr _ rfl)
    · refine (enclosingMembers_sound h hA id _).bind fun r? hr => ?_
      split
      · exact Yields.pure (hr _ rfl)
      · refine (hostHelper_sound (c := c) (A := A) id.name).bind fun r? hr => ?_
        split
        · exact Yields.pure (hr _ rfl)
        · refine (lookupEntity_quiet h.usings _ id.name).bind fun e? he => ?_
          split
          · refine Yields.pure (ofEntity_sound ?_)
            rw [h.image]
            exact he _ rfl
          · exact refuse_quiet _ _

theorem staticMember_sound (path : Path) (id : Ident) :
    Yields s₀.Quiet (staticMember path id) fun r => r.Sound c A := by
  unfold staticMember
  refine (typeDef_fits h path).bind fun d hd => ?_
  split
  · next hn =>
    split at hn
    · exact Yields.pure (ofEnum_sound h hd hn)
    · cases hn
  · split
    · next hf => exact Yields.pure (ofStatic_sound h hA hd hf)
    · refine (image_fits h).bind fun im him => ?_
      subst him
      split
      · next hp => exact Yields.pure ⟨known_of_nested hp, trivial⟩
      · simp only
        split
        · exact Yields.pure (candidates_sound hd (fun _ hx => hx) (by simp) (by simp))
        · split <;> exact refuse_quiet _ _

theorem objectMember_sound {target : BoundExpr} {path : Path} {d : TypeDef}
    (hd : d = (c.image.typeDef? path).getD (.bare .classKind false false))
    (ho : d.hasObjects = true) (ht : target.HasType c (.named path)) (hw : target.WritesOnly A)
    (id : Ident) :
    Yields s₀.Quiet (objectMember target path d id) fun r? => ∀ r, r? = some r → r.Sound c A := by
  unfold objectMember
  split
  · next hf =>
    refine body_quiet.bind fun b hb => Yields.pure fun r hr => ?_
    subst hb
    cases hr
    refine field_sound h hA hd hf ho ht hw fun hmark hreadonly => ?_
    simp only [hreadonly, Bool.true_and, Bool.not_eq_false', Bool.and_eq_true] at hmark
    obtain ⟨⟨hconstructor, -⟩, hthis⟩ := hmark
    split at hthis
    · exact ⟨rfl, hconstructor⟩
    · cases hthis
  · simp only
    split
    · refine Yields.pure fun r hr => ?_
      cases hr
      refine candidates_sound hd (fun x hx => List.mem_of_mem_filter hx) (fun e he => ?_) fun e he => ?_
      · cases he
        exact ⟨ht, ho⟩
      · cases he
        exact hw
    · split
      · exact refuse_quiet _ _
      · exact Yields.pure (by simp)

theorem namedMember_sound {target : BoundExpr} {path : Path} (ht : target.HasType c (.named path))
    (hw : target.WritesOnly A) (hk : c.image.Knows (.named path)) (id : Ident) :
    Yields s₀.Quiet (namedMember target path id) fun r? => ∀ r, r? = some r → r.Sound c A := by
  unfold namedMember
  refine (typeDef_fits h path).bind fun d hd => ?_
  have hp : c.image.typeDef? path = some d := by
    obtain ⟨d', hd'⟩ := hk
    rw [hd, hd']
    rfl
  split
  · next hkind => exact objectMember_sound h hA hd (by simp [TypeDef.hasObjects, hkind]) ht hw id
  · next hkind => exact objectMember_sound h hA hd (by simp [TypeDef.hasObjects, hkind]) ht hw id
  · next hkind =>
    simp only
    split
    · exact Yields.pure (by simp)
    · refine Yields.pure fun r hr => ?_
      cases hr
      refine ⟨⟨target, path, d, rfl, ht, hp, hkind, fun x hx => TypeDef.mem_candidates hx⟩, ?_⟩
      rintro e ⟨⟩
      exact hw
  · exact Yields.pure (by simp)

omit h hA in
theorem foundMember_sound {found : Option Resolved} (hr : ∀ r, found = some r → r.Sound c A) (type : Ty)
    (id : Ident) : Yields s₀.Quiet (match found with
      | some r => pure r
      | none => refuse (.unknownMember type.text id.name) id.span) fun r => r.Sound c A := by
  split
  · exact Yields.pure (hr _ rfl)
  · exact refuse_quiet _ _

theorem valueMember_sound {target : BoundExpr} {type : Ty} (ht : target.HasType c type)
    (hw : target.WritesOnly A) (hk : c.image.Knows type) (id : Ident) :
    Yields s₀.Quiet (valueMember target type id) fun r => r.Sound c A := by
  unfold valueMember
  split
  · refine Yields.pure ⟨?_, ?_⟩
    · rintro e ⟨⟩
      exact ⟨type, ht⟩
    · rintro e ⟨⟩
      exact hw
  · split
    · next hlen =>
      obtain ⟨rfl, -⟩ := hlen
      exact Yields.pure ⟨⟨⟨ht, rfl⟩, trivial⟩, hw⟩
    · simp only
      split
      · exact (namedMember_sound h hA ht hw hk id).bind fun found hr => foundMember_sound hr _ id
      · exact Yields.bind (Q := fun r? : Option Resolved => ∀ r, r? = some r → r.Sound c A)
          (Yields.pure (by simp)) fun found hr => foundMember_sound hr _ id

theorem memberOf_sound {target : Resolved} (ht : target.Sound c A) (id : Ident) :
    Yields s₀.Quiet (memberOf target id) fun r => r.Sound c A := by
  obtain ⟨hok, hopens⟩ := ht
  unfold memberOf
  split
  · refine (image_fits h).bind fun im him => ?_
    subst him
    split
    · next hc => exact Yields.pure (ofEntity_sound (known_of_child hc))
    · exact refuse_quiet _ _
  · exact staticMember_sound h hA _ id
  · exact refuse_quiet _ _
  · exact valueMember_sound h hA hok.1 hopens hok.2 id
  · exact valueMember_sound h hA (show BoundExpr.HasType c (.load _) _ from hok.1) (.load hopens.1)
      hok.2 id

end Denotations

end Bind

end Chunkwise
