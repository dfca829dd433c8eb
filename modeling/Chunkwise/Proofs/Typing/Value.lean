import Chunkwise.Image.Basic
import Chunkwise.Proofs.Image.Lookup
import Mathlib.Logic.Relation

/-!
Which runtime values a static type has, and how that depends on the image and on the objects that
exist. `Grows` orders images by what a session can add to them: types that exist keep their
signatures, and at most bodies are filled in.
-/
namespace Chunkwise

/-- A method without its body; whether it is abstract stays. -/
def Method.erased (m : Method) : Method :=
  { m with body := if m.isAbstract then .abstractMember else .missing }

def TypeDef.erased (d : TypeDef) : TypeDef :=
  { d with
    methods := d.methods.map Method.erased
    constructors := d.constructors.map Method.erased
    inits := [] }

/-- The types of which objects are created. -/
def TypeDef.Instantiable (d : TypeDef) : Prop :=
  d.hasObjects = true ∧ d.isStatic = false ∧ d.isAbstract = false

namespace Image

def Knows (im : Image) : Ty → Prop
  | .named p => ∃ d, im.typeDef? p = some d
  | _ => True

/-- A chain of interfaces leads from one type to the other, each listed by the one before. -/
def Reaches (im : Image) : Path → Path → Prop :=
  Relation.TransGen fun a b => im.implements a b = true

/-- Types that exist keep their signatures. -/
def Grows (im im' : Image) : Prop :=
  ∀ p d, im.typeDef? p = some d → ∃ d', im'.typeDef? p = some d' ∧ d'.erased = d.erased

/-- An implicit conversion that leaves the value as it is. -/
def Passes (im : Image) (s t : Ty) : Prop :=
  s = t ∨ im.isAssignable s t = true ∧ t ≠ .double ∧ im.Knows t

end Image

/-- Whether a value is one of a type, when `objects` tells the type of each object. -/
def Value.Conforms (im : Image) (objects : Nat → Option Path) (v : Value) : Ty → Prop
  | .void | .null => v = .null
  | .bool => ∃ b, v = .bool b
  | .int | .long => ∃ n, v = .int n
  | .double => ∃ x, v = .double x
  | .string => v = .null ∨ ∃ s, v = .str s
  | .object => True
  | .named p =>
    match im.kind? p with
    | some .enumKind => ∃ n, v = .enum p n
    | some .interfaceKind =>
      v = .null ∨ ∃ q id, v = .object q id ∧ objects id = some q ∧ im.Reaches q p
    | _ => v = .null ∨ ∃ id, v = .object p id ∧ objects id = some p

namespace Method

@[simp] theorem erased_params (m : Method) : m.erased.params = m.params := rfl
@[simp] theorem erased_paramTypes (m : Method) : m.erased.paramTypes = m.paramTypes := rfl
@[simp] theorem erased_returns (m : Method) : m.erased.returns = m.returns := rfl
@[simp] theorem erased_isStatic (m : Method) : m.erased.isStatic = m.isStatic := rfl

@[simp]
theorem erased_isAbstract (m : Method) : m.erased.isAbstract = m.isAbstract := by
  cases h : m.isAbstract <;> simp [erased, h] <;> rfl

end Method

namespace TypeDef

@[simp] theorem erased_kind (d : TypeDef) : d.erased.kind = d.kind := rfl
@[simp] theorem erased_isStatic (d : TypeDef) : d.erased.isStatic = d.isStatic := rfl
@[simp] theorem erased_isAbstract (d : TypeDef) : d.erased.isAbstract = d.isAbstract := rfl
@[simp] theorem erased_interfaces (d : TypeDef) : d.erased.interfaces = d.interfaces := rfl
@[simp] theorem erased_statics (d : TypeDef) : d.erased.statics = d.statics := rfl
@[simp] theorem erased_fields (d : TypeDef) : d.erased.fields = d.fields := rfl
@[simp] theorem erased_enumMembers (d : TypeDef) : d.erased.enumMembers = d.enumMembers := rfl
@[simp] theorem erased_hasObjects (d : TypeDef) : d.erased.hasObjects = d.hasObjects := rfl

variable {d d' : TypeDef}

theorem kind_of_erased (h : d'.erased = d.erased) : d'.kind = d.kind := by
  simpa using congrArg TypeDef.kind h

theorem hasObjects_of_erased (h : d'.erased = d.erased) : d'.hasObjects = d.hasObjects := by
  simpa using congrArg TypeDef.hasObjects h

theorem fields_of_erased (h : d'.erased = d.erased) : d'.fields = d.fields := by
  simpa using congrArg TypeDef.fields h

theorem interfaces_of_erased (h : d'.erased = d.erased) : d'.interfaces = d.interfaces := by
  simpa using congrArg TypeDef.interfaces h

theorem statics_of_erased (h : d'.erased = d.erased) : d'.statics = d.statics := by
  simpa using congrArg TypeDef.statics h

theorem Instantiable.of_erased (h : d'.erased = d.erased) (hd : d.Instantiable) :
    d'.Instantiable := by
  have hs := congrArg TypeDef.isStatic h
  have ha := congrArg TypeDef.isAbstract h
  simp only [erased_isStatic, erased_isAbstract] at hs ha
  exact ⟨(hasObjects_of_erased h).trans hd.1, hs.trans hd.2.1, ha.trans hd.2.2⟩

theorem method_of_erased (h : d'.erased = d.erased) {i : Nat} {m : Method}
    (hm : d.methods[i]? = some m) : ∃ m', d'.methods[i]? = some m' ∧ m'.erased = m.erased := by
  have hi := congrArg (fun e => e.methods[i]?) h
  simpa [erased, hm, Option.map_eq_some_iff] using hi

theorem constructor_of_erased (h : d'.erased = d.erased) {i : Nat} {m : Method}
    (hm : d.constructors[i]? = some m) :
    ∃ m', d'.constructors[i]? = some m' ∧ m'.erased = m.erased := by
  have hi := congrArg (fun e => e.constructors[i]?) h
  simpa [erased, hm, Option.map_eq_some_iff] using hi

end TypeDef

namespace Image

variable {im im' im'' : Image}

theorem Grows.refl (im : Image) : im.Grows im := fun _ d h => ⟨d, h, rfl⟩

theorem Grows.trans (h : im.Grows im') (h' : im'.Grows im'') : im.Grows im'' := by
  intro p d hd
  obtain ⟨d', hd', he⟩ := h p d hd
  obtain ⟨d'', hd'', he'⟩ := h' p d' hd'
  exact ⟨d'', hd'', he'.trans he⟩

theorem grows_updateType (im : Image) (p : Path) {f : TypeDef → TypeDef}
    (hf : ∀ d, im.typeDef? p = some d → (f d).erased = d.erased) : im.Grows (im.updateType p f) := by
  intro q d hd
  by_cases hq : q = p
  · subst hq
    exact ⟨f d, by simp [hd], hf d hd⟩
  · exact ⟨d, by simp [hq, hd], rfl⟩

theorem Grows.knows (h : im.Grows im') {t : Ty} (ht : im.Knows t) : im'.Knows t := by
  cases t with
  | named p =>
    obtain ⟨d, hd⟩ := ht
    obtain ⟨d', hd', -⟩ := h p d hd
    exact ⟨d', hd'⟩
  | _ => trivial

theorem kind?_eq {p : Path} {d : TypeDef} (h : im.typeDef? p = some d) : im.kind? p = some d.kind := by
  simp [kind?, h]

theorem Grows.kind? (h : im.Grows im') {p : Path} {k : TypeKind} (hk : im.kind? p = some k) :
    im'.kind? p = some k := by
  obtain ⟨d, hd, rfl⟩ := Option.map_eq_some_iff.mp hk
  obtain ⟨d', hd', he⟩ := h p d hd
  rw [kind?_eq hd', TypeDef.kind_of_erased he]

theorem Knows.kind? {p : Path} (h : im.Knows (.named p)) : ∃ k, im.kind? p = some k := by
  obtain ⟨d, hd⟩ := h
  exact ⟨d.kind, kind?_eq hd⟩

theorem implements_iff {p q : Path} :
    im.implements p q = true ↔ ∃ d, im.typeDef? p = some d ∧ q ∈ d.interfaces := by
  unfold implements
  cases im.typeDef? p <;> simp

theorem Grows.implements (h : im.Grows im') {p q : Path} (hp : im.implements p q = true) :
    im'.implements p q = true := by
  obtain ⟨d, hd, hq⟩ := implements_iff.mp hp
  obtain ⟨d', hd', he⟩ := h p d hd
  exact implements_iff.mpr ⟨d', hd', by rwa [TypeDef.interfaces_of_erased he]⟩

theorem Grows.reaches (h : im.Grows im') {p q : Path} (hp : im.Reaches p q) : im'.Reaches p q :=
  Relation.TransGen.mono (fun _ _ hab => h.implements hab) _ _ hp

theorem Grows.isNullable (h : im.Grows im') {t : Ty} (ht : im.Knows t)
    (hn : im.isNullable t = true) : im'.isNullable t = true := by
  cases t with
  | named p =>
    obtain ⟨k, hk⟩ := Knows.kind? ht
    simpa [Image.isNullable, hk, h.kind? hk] using hn
  | _ => exact hn

theorem Grows.isAssignable (h : im.Grows im') {s t : Ty} (ht : im.Knows t)
    (hs : im.isAssignable s t = true) : im'.isAssignable s t = true := by
  unfold Image.isAssignable at hs ⊢
  rcases Bool.or_eq_true_iff.mp hs with heq | hs
  · simp [heq]
  · refine Bool.or_eq_true_iff.mpr (.inr ?_)
    split at hs <;> simp_all [h.isNullable ht, h.implements]

theorem Grows.passes (h : im.Grows im') {s t : Ty} (hp : im.Passes s t) : im'.Passes s t := by
  rcases hp with rfl | ⟨ha, hd, hk⟩
  · exact .inl rfl
  · exact .inr ⟨h.isAssignable hk ha, hd, h.knows hk⟩

end Image

namespace Value

variable {im im' : Image} {objects objects' : Nat → Option Path} {v : Value}

theorem Conforms.grow {t : Ty} (h : v.Conforms im objects t) (hk : im.Knows t)
    (him : im.Grows im') (ho : ∀ id p, objects id = some p → objects' id = some p) :
    v.Conforms im' objects' t := by
  cases t with
  | named p =>
    obtain ⟨k, hk⟩ := Image.Knows.kind? hk
    simp only [Conforms, hk, him.kind? hk] at h ⊢
    cases k with
    | enumKind => exact h
    | interfaceKind =>
      rcases h with h | ⟨q, id, hv, hq, hr⟩
      · exact .inl h
      · exact .inr ⟨q, id, hv, ho id q hq, him.reaches hr⟩
    | classKind | structKind =>
      rcases h with h | ⟨id, hv, hq⟩
      · exact .inl h
      · exact .inr ⟨id, hv, ho id p hq⟩
  | _ => exact h

theorem Conforms.more {t : Ty} (h : v.Conforms im objects t)
    (ho : ∀ id p, objects id = some p → objects' id = some p) : v.Conforms im objects' t := by
  cases t with
  | named p =>
    simp only [Conforms] at h ⊢
    split at h
    · exact h
    · rcases h with h | ⟨q, id, hv, hq, hr⟩
      · exact .inl h
      · exact .inr ⟨q, id, hv, ho id q hq, hr⟩
    · rcases h with h | ⟨id, hv, hq⟩
      · exact .inl h
      · exact .inr ⟨id, hv, ho id p hq⟩
  | _ => exact h

theorem conforms_null {t : Ty} (h : im.isNullable t = true) : Value.null.Conforms im objects t := by
  cases t with
  | named p =>
    simp only [Conforms]
    split
    · next hk => simp [Image.isNullable, hk] at h
    · exact .inl trivial
    · exact .inl trivial
  | string => exact .inl rfl
  | object => trivial
  | null => rfl
  | _ => simp [Image.isNullable] at h

theorem conforms_defaultValue (im : Image) (objects : Nat → Option Path) {t : Ty} :
    (im.defaultValue t).Conforms im objects t := by
  cases t with
  | named p =>
    simp only [Image.defaultValue, Conforms]
    split
    · next hk => exact ⟨0, by simp [hk]⟩
    · next hk => exact .inl (by simp [hk])
    · next hk _ => exact .inl (if_neg hk)
  | bool => exact ⟨false, rfl⟩
  | int | long => exact ⟨0, rfl⟩
  | double => exact ⟨0.0, rfl⟩
  | string => exact .inl rfl
  | object => trivial
  | void | null => rfl

end Value

end Chunkwise
