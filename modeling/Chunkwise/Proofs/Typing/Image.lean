import Chunkwise.Binder.Populate
import Chunkwise.Proofs.Typing.Weaken

/-!
An image is sound when its signatures fit together, every body is typed by its signature, and every
type with objects has the members of the interfaces it lists. Whether it also has the members of
the interfaces that these list in turn is a matter of its own: `Covered`.
-/
namespace Chunkwise

/-- The types of the values that a built-in body gives. -/
def Native.Gives : Native → Ty → Prop
  | .writeLine, t | .writeBlankLine, t | .write, t => t = .void
  | .absInt, t | .maxInt, t | .minInt, t => t.isIntegral = true
  | .absDouble, t | .maxDouble, t | .minDouble, t | .sqrt, t | .pow, t => t = .double

namespace Image

/-- A slot that belongs to a static field. -/
def StaticSlot (im : Image) (slot : Nat) (t : Ty) : Prop :=
  ∃ p d f, im.typeDef? p = some d ∧ f ∈ d.statics ∧ f.slot = slot ∧ f.type = t

/-- Some static field has this slot, and it is read-only or not as told. -/
def Marks (im : Image) (slot : Nat) (isReadonly : Bool) : Prop :=
  ∃ p d f, im.typeDef? p = some d ∧ f ∈ d.statics ∧ f.slot = slot ∧ f.isReadonly = isReadonly

/-- Types that exist stay, and stay what they are. -/
def Keeps (im im' : Image) : Prop := ∀ p k, im.kind? p = some k → im'.kind? p = some k

end Image

structure Method.SigOk (im : Image) (m : Method) : Prop where
  params : ∀ t ∈ m.paramTypes, im.Knows t
  names : (m.params.map Prod.fst).Nodup
  returns : im.Knows m.returns

structure TypeDef.SigOk (im : Image) (d : TypeDef) : Prop where
  interfaces : ∀ q ∈ d.interfaces, im.kind? q = some .interfaceKind
  enums : d.kind = .enumKind → d.interfaces = []
  enumMembers : d.enumMembers ≠ [] → d.kind = .enumKind
  statics : ∀ f ∈ d.statics, im.Knows f.type
  fields : ∀ f ∈ d.fields, im.Knows f.type
  methods : ∀ m ∈ d.methods, m.SigOk im
  constructors : ∀ m ∈ d.constructors, m.SigOk im ∧ m.returns = .void ∧ m.isAbstract = false
  abstracts : ∀ m ∈ d.methods, m.isAbstract = true → d.isAbstract = true ∧ m.isStatic = false
  distinct : d.methods.Pairwise fun m n => m.sameSignature n = false

/-- A body that is typed by a signature and does not fall off its end if it owes a result. -/
def Code.WellTyped (im : Image) (self : Option Path) (params : List Ty) (returns : Ty)
    (code : Code) : Prop :=
  params.length ≤ code.locals ∧ (returns ≠ .void → BoundStmt.allComplete code.body = false) ∧
  ∃ Δ, BoundStmt.AllWellTyped ⟨im, im.StaticSlot, self, code.locals, some returns, none⟩ false
    code.body (.ofParams params) Δ

def Method.BodyOk (im : Image) (self : Option Path) (m : Method) : Prop :=
  match m.body with
  | .missing => False
  | .abstractMember => True
  | .native n => n.Gives m.returns
  | .code code => code.WellTyped im self m.paramTypes m.returns

/-- The type of `this` in a method of the type at `p`. -/
def Method.self (m : Method) (p : Path) : Option Path := if m.isStatic then none else some p

structure TypeDef.BodiesOk (im : Image) (p : Path) (d : TypeDef) : Prop where
  methods : ∀ m ∈ d.methods, m.BodyOk im (m.self p)
  constructors : ∀ m ∈ d.constructors, m.BodyOk im (some p)
  inits : ∀ x ∈ d.inits, ∃ f, d.fields[x.1]? = some f ∧
    x.2.Fits ⟨im, im.StaticSlot, .none, some p⟩ f.type

namespace Image

/-- A type with objects has every member of the interfaces it lists. -/
def Conforming (im : Image) (d : TypeDef) : Prop :=
  d.hasObjects = true → ∀ q ∈ d.interfaces, ∀ e, im.typeDef? q = some e →
    ∀ m ∈ e.methods, Bind.isImplemented d m = true

structure Sound (im : Image) : Prop where
  sigs : ∀ p d, im.typeDef? p = some d → d.SigOk im
  bodies : ∀ p d, im.typeDef? p = some d → d.BodiesOk im p
  conforming : ∀ p d, im.typeDef? p = some d → im.Conforming d

/-- A type whose objects exist has every member of the interfaces that a chain of conversions leads
to. -/
def Covered (im : Image) : Prop :=
  ∀ p d, im.typeDef? p = some d → d.Instantiable → ∀ q e, im.Reaches p q → im.typeDef? q = some e →
    ∀ m ∈ e.methods, Bind.isImplemented d m = true

def Flat (im : Image) : Prop :=
  ∀ p d, im.typeDef? p = some d → d.kind = .interfaceKind → d.interfaces = []

end Image

namespace Image

variable {im im' : Image}

theorem Grows.staticSlot (h : im.Grows im') {i : Nat} {t : Ty} (hs : im.StaticSlot i t) :
    im'.StaticSlot i t := by
  obtain ⟨p, d, f, hd, hf, hi, ht⟩ := hs
  obtain ⟨d', hd', he⟩ := h p d hd
  exact ⟨p, d', f, hd', by rwa [TypeDef.statics_of_erased he], hi, ht⟩

theorem Marks.staticSlot {i : Nat} {isReadonly : Bool} (h : im.Marks i isReadonly) :
    ∃ t, im.StaticSlot i t := by
  obtain ⟨p, d, f, hd, hf, hi, -⟩ := h
  exact ⟨f.type, p, d, f, hd, hf, hi, rfl⟩

theorem Grows.marks (h : im.Grows im') {i : Nat} {isReadonly : Bool} (hm : im.Marks i isReadonly) :
    im'.Marks i isReadonly := by
  obtain ⟨p, d, f, hd, hf, hi, hr⟩ := hm
  obtain ⟨d', hd', he⟩ := h p d hd
  exact ⟨p, d', f, hd', by rwa [TypeDef.statics_of_erased he], hi, hr⟩

theorem Grows.keeps (h : im.Grows im') : im.Keeps im' := fun _ _ hk => h.kind? hk

theorem knows_iff_kind? {p : Path} : im.Knows (.named p) ↔ ∃ k, im.kind? p = some k := by
  constructor
  · exact Knows.kind?
  · rintro ⟨k, hk⟩
    obtain ⟨d, hd, -⟩ := Option.map_eq_some_iff.mp hk
    exact ⟨d, hd⟩

theorem Keeps.knows (h : im.Keeps im') {t : Ty} (ht : im.Knows t) : im'.Knows t := by
  cases t with
  | named p =>
    obtain ⟨k, hk⟩ := Knows.kind? ht
    exact knows_iff_kind?.mpr ⟨k, h p k hk⟩
  | _ => trivial

theorem Keeps.defaultValue (h : im.Keeps im') {t : Ty} (ht : im.Knows t) :
    im'.defaultValue t = im.defaultValue t := by
  cases t with
  | named p =>
    obtain ⟨k, hk⟩ := Knows.kind? ht
    simp [Image.defaultValue, hk, h p k hk]
  | _ => rfl

end Image

theorem Method.SigOk.keep {im im' : Image} {m : Method} (h : m.SigOk im) (hk : im.Keeps im') :
    m.SigOk im' :=
  ⟨fun t ht => hk.knows (h.params t ht), h.names, hk.knows h.returns⟩

theorem TypeDef.SigOk.keep {im im' : Image} {d : TypeDef} (h : d.SigOk im) (hk : im.Keeps im') :
    d.SigOk im' where
  interfaces q hq := hk q _ (h.interfaces q hq)
  enums := h.enums
  enumMembers := h.enumMembers
  statics f hf := hk.knows (h.statics f hf)
  fields f hf := hk.knows (h.fields f hf)
  methods m hm := (h.methods m hm).keep hk
  constructors m hm := ⟨(h.constructors m hm).1.keep hk, (h.constructors m hm).2⟩
  abstracts := h.abstracts
  distinct := h.distinct

theorem Code.WellTyped.grow {im im' : Image} {self : Option Path} {params : List Ty} {returns : Ty}
    {code : Code} (h : code.WellTyped im self params returns) (hg : im.Grows im') :
    code.WellTyped im' self params returns := by
  obtain ⟨hsize, hend, Δ, hbody⟩ := h
  refine ⟨hsize, hend, Δ, BoundStmt.AllWellTyped.weaken ?_ hbody⟩
  exact ⟨hg, rfl, fun _ _ _ hs => hg.staticSlot hs, Nat.le_refl _, rfl, fun _ h => h⟩

theorem Method.BodyOk.grow {im im' : Image} {self : Option Path} {m : Method}
    (h : m.BodyOk im self) (hg : im.Grows im') : m.BodyOk im' self := by
  unfold Method.BodyOk at h ⊢
  split at h
  · exact h
  · trivial
  · exact h
  · exact Code.WellTyped.grow h hg

theorem TypeDef.BodiesOk.grow {im im' : Image} {p : Path} {d : TypeDef} (h : d.BodiesOk im p)
    (hg : im.Grows im') : d.BodiesOk im' p where
  methods m hm := (h.methods m hm).grow hg
  constructors m hm := (h.constructors m hm).grow hg
  inits x hx := by
    obtain ⟨f, hf, he⟩ := h.inits x hx
    refine ⟨f, hf, BoundExpr.Fits.weaken ?_ he⟩
    exact ⟨hg, .refl _, rfl, fun _ _ _ hs => hg.staticSlot hs⟩

theorem TypeDef.mem_methodsNamed {d : TypeDef} {name : String} {i : Nat} {m : Method} :
    (i, m) ∈ d.methodsNamed name ↔ d.methods[i]? = some m ∧ m.name = name := by
  simp only [methodsNamed, List.mem_map, List.mem_filter, List.mem_zipIdx_iff_getElem?, beq_iff_eq,
    Prod.exists, Prod.mk.injEq]
  constructor
  · rintro ⟨n, j, h, rfl, rfl⟩
    exact h
  · rintro h
    exact ⟨m, i, h, rfl, rfl⟩

namespace Bind

/-- A type has a member of an interface exactly if one of its object methods agrees with it. -/
theorem isImplemented_iff {d : TypeDef} {wanted : Method} :
    isImplemented d wanted = true ↔ ∃ m ∈ d.methods, m.isStatic = false ∧
      m.sameSignature wanted = true ∧ m.returns = wanted.returns := by
  simp only [isImplemented, List.any_eq_true, Bool.and_eq_true, Bool.not_eq_true', beq_iff_eq,
    sameParams, Prod.exists, TypeDef.mem_methodsNamed, Method.sameSignature, Method.paramTypes]
  constructor
  · rintro ⟨i, m, ⟨hm, hn⟩, ⟨hs, hr⟩, hp⟩
    exact ⟨m, List.mem_of_getElem? hm, hs, ⟨hn, hp⟩, hr⟩
  · rintro ⟨m, hm, hs, ⟨hn, hp⟩, hr⟩
    obtain ⟨i, hi⟩ := List.mem_iff_getElem?.mp hm
    exact ⟨i, m, ⟨hi, hn⟩, ⟨hs, hr⟩, hp⟩

end Bind

/-- The method that dispatch is after: one of the type's own that can run in place of the member. -/
structure TypeDef.Answers (d : TypeDef) (wanted target : Method) : Prop where
  mem : target ∈ d.methods
  ofObject : target.isStatic = false
  concrete : target.isAbstract = false
  params : target.paramTypes = wanted.paramTypes
  returns : target.returns = wanted.returns

namespace TypeDef

theorem sameSignature_unique {d : TypeDef} {im : Image} (h : d.SigOk im) {m n wanted : Method}
    (hm : m ∈ d.methods) (hn : n ∈ d.methods) (hmw : m.sameSignature wanted = true)
    (hnw : n.sameSignature wanted = true) : m = n := by
  obtain ⟨i, hi⟩ := List.mem_iff_getElem?.mp hm
  obtain ⟨j, hj⟩ := List.mem_iff_getElem?.mp hn
  obtain ⟨hilt, rfl⟩ := List.getElem?_eq_some_iff.mp hi
  obtain ⟨hjlt, rfl⟩ := List.getElem?_eq_some_iff.mp hj
  simp only [Method.sameSignature, Bool.and_eq_true, beq_iff_eq] at hmw hnw
  have hpair := List.pairwise_iff_getElem.mp h.distinct
  rcases Nat.lt_trichotomy i j with hij | rfl | hij
  · have := hpair i j hilt hjlt hij
    simp [Method.sameSignature, hmw, hnw] at this
  · rfl
  · have := hpair j i hjlt hilt hij
    simp [Method.sameSignature, hmw, hnw] at this

theorem Instantiable.concrete {d : TypeDef} {im : Image} (hd : d.Instantiable) (h : d.SigOk im)
    {m : Method} (hm : m ∈ d.methods) : m.isAbstract = false := by
  refine Bool.eq_false_iff.mpr fun ha => ?_
  have := (h.abstracts m hm ha).1
  simp [hd.2.2] at this

/-- Dispatch on an object finds a method that answers for a member exactly if the type has it. -/
theorem implementation?_iff {d : TypeDef} {im : Image} (h : d.SigOk im) (hd : d.Instantiable)
    {wanted : Method} : (∃ target, d.implementation? wanted = some target ∧ d.Answers wanted target) ↔
      Bind.isImplemented d wanted = true := by
  rw [Bind.isImplemented_iff]
  constructor
  · rintro ⟨m, hm, hans⟩
    have hfound := List.find?_some hm
    simp only [Bool.and_eq_true] at hfound
    exact ⟨m, hans.mem, hans.ofObject, hfound.2, hans.returns⟩
  · rintro ⟨m, hm, hs, hw, hr⟩
    cases hf : d.implementation? wanted with
    | none =>
      have := List.find?_eq_none.mp hf m hm
      simp [hs, hd.concrete h hm, hw] at this
    | some n =>
      have hn := List.mem_of_find?_eq_some hf
      have hfound := List.find?_some hf
      simp only [Bool.and_eq_true] at hfound
      obtain rfl := sameSignature_unique h hn hm hfound.2 hw
      refine ⟨n, rfl, hn, hs, hd.concrete h hn, ?_, hr⟩
      simp only [Method.sameSignature, Bool.and_eq_true, beq_iff_eq] at hw
      exact hw.2

end TypeDef

namespace Image

variable {im : Image}

theorem Reaches.head {p q : Path} (h : im.Reaches p q) :
    ∃ r, im.implements p r = true ∧ (r = q ∨ im.Reaches r q) := by
  rcases Relation.TransGen.head'_iff.mp h with ⟨r, hr, hrest⟩
  rcases Relation.reflTransGen_iff_eq_or_transGen.mp hrest with rfl | hrest
  · exact ⟨_, hr, .inl rfl⟩
  · exact ⟨r, hr, .inr hrest⟩

theorem Flat.reaches (hs : im.Sound) (hf : im.Flat) {p q : Path} (h : im.Reaches p q) :
    im.implements p q = true := by
  obtain ⟨r, hr, rfl | hrest⟩ := h.head
  · exact hr
  · obtain ⟨r', hr', -⟩ := hrest.head
    obtain ⟨d, hd, hmem⟩ := implements_iff.mp hr'
    obtain ⟨c, hc, hrc⟩ := implements_iff.mp hr
    have hk := (hs.sigs p c hc).interfaces r hrc
    rw [kind?_eq hd, Option.some.injEq] at hk
    rw [hf r d hd hk] at hmem
    cases hmem

theorem Flat.covered (hs : im.Sound) (hf : im.Flat) : im.Covered := by
  intro p d hd hi q e hr he m hm
  obtain ⟨d', hd', hq⟩ := implements_iff.mp (hf.reaches hs hr)
  obtain rfl : d = d' := by simpa [hd] using hd'
  exact hs.conforming p d hd hi.1 q hq e he m hm

end Image

end Chunkwise
