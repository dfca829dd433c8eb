import Chunkwise.Binder.Populate
import Chunkwise.Binder.Expr
import Chunkwise.Proofs.Image.Shape
import Mathlib.Data.List.Forall2

/-!
The outline of a type is all of it but its code and the slots of its shared fields. What a name, a
conversion or a call means depends on the outlines of types only.
-/
namespace Chunkwise

def Method.outline (m : Method) : Method := { m with body := .missing }

def StaticField.outline (f : StaticField) : StaticField := { f with slot := 0 }

def TypeDef.outline (d : TypeDef) : TypeDef :=
  { d with
    statics := d.statics.map StaticField.outline
    methods := d.methods.map Method.outline
    constructors := d.constructors.map Method.outline
    inits := [] }

def Method.Resembles (m n : Method) : Prop := m.outline = n.outline

def StaticField.Resembles (f g : StaticField) : Prop := f.outline = g.outline

def TypeDef.Resembles (d e : TypeDef) : Prop := d.outline = e.outline

namespace Method.Resembles

variable {m n : Method}

theorem outline_eq (h : m.Resembles n) : m.outline = n.outline := h

theorem params (h : m.Resembles n) : m.params = n.params :=
  (congrArg Method.params h.outline_eq :)

theorem returns (h : m.Resembles n) : m.returns = n.returns :=
  (congrArg Method.returns h.outline_eq :)

theorem isStatic (h : m.Resembles n) : m.isStatic = n.isStatic :=
  (congrArg Method.isStatic h.outline_eq :)

theorem name (h : m.Resembles n) : m.name = n.name := (congrArg Method.name h.outline_eq :)

theorem owner (h : m.Resembles n) : m.owner = n.owner := (congrArg Method.owner h.outline_eq :)

end Method.Resembles

namespace StaticField.Resembles

variable {f g : StaticField}

theorem outline_eq (h : f.Resembles g) : f.outline = g.outline := h

theorem name (h : f.Resembles g) : f.name = g.name := (congrArg StaticField.name h.outline_eq :)

theorem type (h : f.Resembles g) : f.type = g.type := (congrArg StaticField.type h.outline_eq :)

theorem isReadonly (h : f.Resembles g) : f.isReadonly = g.isReadonly :=
  (congrArg StaticField.isReadonly h.outline_eq :)

end StaticField.Resembles

section Lists

variable {α β γ : Type} {R : α → β → Prop}

theorem forall₂_of_map_eq {f : α → γ} {g : β → γ} {as : List α} {bs : List β}
    (h : as.map f = bs.map g) : List.Forall₂ (fun a b => f a = g b) as bs := by
  rw [← List.forall₂_eq_eq_eq, List.forall₂_map_left_iff, List.forall₂_map_right_iff] at h
  exact h

theorem forall₂_zipIdx {as : List α} {bs : List β} (h : List.Forall₂ R as bs) (k : Nat) :
    List.Forall₂ (fun x y => R x.1 y.1 ∧ x.2 = y.2) (as.zipIdx k) (bs.zipIdx k) := by
  induction h generalizing k with
  | nil => exact .nil
  | cons hab _ ih => exact .cons ⟨hab, rfl⟩ (ih (k + 1))

theorem rel_getElem? {as : List α} {bs : List β} (h : List.Forall₂ R as bs) (i : Nat) :
    Option.Rel R as[i]? bs[i]? := by
  induction h generalizing i with
  | nil => exact .none
  | cons hab _ ih =>
    cases i with
    | zero => exact .some hab
    | succ i => simpa using ih i

theorem rel_find? {p : α → Bool} {q : β → Bool} (hpq : ∀ a b, R a b → p a = q b) {as : List α}
    {bs : List β} (h : List.Forall₂ R as bs) : Option.Rel R (as.find? p) (bs.find? q) := by
  induction h with
  | nil => exact .none
  | cons hab _ ih =>
    rw [List.find?_cons, List.find?_cons, hpq _ _ hab]
    split
    · exact .some hab
    · exact ih

theorem filter_forall₂ {p : α → Bool} {q : β → Bool} (hpq : ∀ a b, R a b → p a = q b)
    {as : List α} {bs : List β} (h : List.Forall₂ R as bs) :
    List.Forall₂ R (as.filter p) (bs.filter q) :=
  List.rel_filter (fun a b hab => by dsimp only; rw [hpq a b hab]) h

theorem forall₂_isEmpty {as : List α} {bs : List β} (h : List.Forall₂ R as bs) :
    as.isEmpty = bs.isEmpty := by
  cases h <;> rfl

theorem any_congr_of_forall₂ {p : α → Bool} {q : β → Bool} (hpq : ∀ a b, R a b → p a = q b)
    {as : List α} {bs : List β} (h : List.Forall₂ R as bs) : as.any p = bs.any q := by
  induction h with
  | nil => rfl
  | cons hab _ ih => rw [List.any_cons, List.any_cons, hpq _ _ hab, ih]

theorem rel_isSome {a? : Option α} {b? : Option β} (h : Option.Rel R a? b?) :
    a?.isSome = b?.isSome := by
  cases h <;> rfl

end Lists

namespace TypeDef.Resembles

variable {d e : TypeDef}

theorem outline_eq (h : d.Resembles e) : d.outline = e.outline := h

theorem kind (h : d.Resembles e) : d.kind = e.kind := (congrArg TypeDef.kind h.outline_eq :)

theorem isStatic (h : d.Resembles e) : d.isStatic = e.isStatic :=
  (congrArg TypeDef.isStatic h.outline_eq :)

theorem isAbstract (h : d.Resembles e) : d.isAbstract = e.isAbstract :=
  (congrArg TypeDef.isAbstract h.outline_eq :)

theorem interfaces (h : d.Resembles e) : d.interfaces = e.interfaces :=
  (congrArg TypeDef.interfaces h.outline_eq :)

theorem hasObjects (h : d.Resembles e) : d.hasObjects = e.hasObjects := by
  unfold TypeDef.hasObjects
  rw [h.kind]

theorem statics (h : d.Resembles e) : List.Forall₂ StaticField.Resembles d.statics e.statics :=
  forall₂_of_map_eq (congrArg TypeDef.statics h.outline_eq :)

theorem methods (h : d.Resembles e) : List.Forall₂ Method.Resembles d.methods e.methods :=
  forall₂_of_map_eq (congrArg TypeDef.methods h.outline_eq :)

theorem constructors (h : d.Resembles e) :
    List.Forall₂ Method.Resembles d.constructors e.constructors :=
  forall₂_of_map_eq (congrArg TypeDef.constructors h.outline_eq :)

theorem field? (h : d.Resembles e) (name : String) : d.field? name = e.field? name := by
  have hfields : d.fields = e.fields := (congrArg TypeDef.fields h.outline_eq :)
  unfold TypeDef.field?
  rw [hfields]

theorem enumValue? (h : d.Resembles e) (name : String) : d.enumValue? name = e.enumValue? name :=
  (congrArg (fun x : TypeDef => x.enumMembers.lookup name) h.outline_eq :)

theorem static? (h : d.Resembles e) (name : String) :
    Option.Rel StaticField.Resembles (d.static? name) (e.static? name) :=
  rel_find? (fun f g hfg => by rw [hfg.name]) h.statics

theorem methodsNamed (h : d.Resembles e) (name : String) :
    List.Forall₂ (fun x y => x.1 = y.1 ∧ x.2.Resembles y.2) (d.methodsNamed name)
      (e.methodsNamed name) := by
  unfold TypeDef.methodsNamed
  rw [List.forall₂_map_left_iff, List.forall₂_map_right_iff]
  refine (filter_forall₂ (fun x y hxy => ?_) (forall₂_zipIdx h.methods 0)).imp
    fun x y hxy => ⟨hxy.2, hxy.1⟩
  dsimp only
  rw [hxy.1.name]

theorem candidates (h : d.Resembles e) (path : Path) (name : String) :
    List.Forall₂ (fun x y => x.1 = y.1 ∧ x.2.Resembles y.2) (d.candidates path name)
      (e.candidates path name) := by
  unfold TypeDef.candidates
  rw [List.forall₂_map_left_iff, List.forall₂_map_right_iff]
  exact (h.methodsNamed name).imp fun _ _ hxy => ⟨congrArg (MethodRef.member path) hxy.1, hxy.2⟩

end TypeDef.Resembles

namespace Image

variable {im im' : Image}

/-- The images have the same things at the same places, and their types look the same. -/
structure Resembles (im im' : Image) : Prop where
  lookup : im.lookup = im'.lookup
  outline : ∀ p, (im.typeDef? p).map TypeDef.outline = (im'.typeDef? p).map TypeDef.outline

theorem rel_of_outline {a? b? : Option TypeDef}
    (h : a?.map TypeDef.outline = b?.map TypeDef.outline) : Option.Rel TypeDef.Resembles a? b? := by
  cases a? with
  | none =>
    cases b? with
    | none => exact .none
    | some b => cases h
  | some a =>
    cases b? with
    | none => cases h
    | some b => exact .some (Option.some.inj h)

theorem outline_of_rel {a? b? : Option TypeDef} (h : Option.Rel TypeDef.Resembles a? b?) :
    a?.map TypeDef.outline = b?.map TypeDef.outline := by
  cases h with
  | none => rfl
  | some h => exact congrArg some h

theorem Resembles.typeDef? (h : im.Resembles im') (p : Path) :
    Option.Rel TypeDef.Resembles (im.typeDef? p) (im'.typeDef? p) := rel_of_outline (h.outline p)

theorem kind?_of_rel {p : Path}
    (h : Option.Rel TypeDef.Resembles (im.typeDef? p) (im'.typeDef? p)) :
    im.kind? p = im'.kind? p := by
  unfold kind?
  generalize im.typeDef? p = d? at h
  generalize im'.typeDef? p = e? at h
  cases h with
  | none => rfl
  | some hde => exact congrArg some hde.kind

theorem child_of_lookup (h : im.lookup = im'.lookup) : im.child = im'.child := by
  funext parent name
  unfold child
  rw [h]

theorem nestedType?_of_lookup (h : im.lookup = im'.lookup) : im.nestedType? = im'.nestedType? := by
  funext outer name
  unfold nestedType?
  rw [child_of_lookup h]

namespace Resembles

theorem kind? (h : im.Resembles im') (p : Path) : im.kind? p = im'.kind? p :=
  kind?_of_rel (h.typeDef? p)

theorem defaultValue (h : im.Resembles im') (t : Ty) : im.defaultValue t = im'.defaultValue t := by
  cases t <;> simp only [Image.defaultValue, h.kind?]

theorem implements (h : im.Resembles im') (p q : Path) : im.implements p q = im'.implements p q := by
  have hrel := h.typeDef? p
  unfold Image.implements
  generalize im.typeDef? p = d? at hrel
  generalize im'.typeDef? p = e? at hrel
  cases hrel with
  | none => rfl
  | some hde => exact congrArg (List.contains · q) hde.interfaces

theorem isNullable (h : im.Resembles im') : im.isNullable = im'.isNullable := by
  funext t
  unfold Image.isNullable
  simp only [h.kind?]

theorem isAssignable (h : im.Resembles im') : im.isAssignable = im'.isAssignable := by
  funext a b
  unfold Image.isAssignable
  simp only [h.isNullable, h.implements]

theorem isComparable (h : im.Resembles im') (a b : Ty) :
    im.isComparable a b = im'.isComparable a b := by
  unfold Image.isComparable
  simp only [h.isNullable, h.isAssignable]

theorem commonType? (h : im.Resembles im') (a b : Ty) :
    Bind.commonType? im a b = Bind.commonType? im' a b := by
  unfold Bind.commonType?
  rw [h.isAssignable]

theorem totalCost? (h : im.Resembles im') (args params : List Ty) :
    im.totalCost? args params = im'.totalCost? args params := by
  induction args generalizing params with
  | nil => rfl
  | cons arg args ih =>
    cases params with
    | nil => rfl
    | cons param params =>
      unfold Image.totalCost? Image.conversionCost?
      rw [h.isAssignable, ih]

variable {α β : Type} {R : α × Method → β × Method → Prop}

theorem cheaper_rel {x? : Option (Nat × (α × Method))} {y? : Option (Nat × (β × Method))}
    {x : Nat × (α × Method)} {y : Nat × (β × Method)}
    (hbest : Option.Rel (fun x y => x.1 = y.1 ∧ R x.2 y.2) x? y?) (hnext : x.1 = y.1 ∧ R x.2 y.2) :
    Option.Rel (fun x y => x.1 = y.1 ∧ R x.2 y.2) (cheaper x? x) (cheaper y? y) := by
  cases hbest with
  | none => exact .some hnext
  | some hb =>
    unfold cheaper
    dsimp only
    rw [hb.1, hnext.1]
    split
    · exact .some hnext
    · exact .some hb

theorem foldl_cheaper_rel {xs : List (Nat × (α × Method))} {ys : List (Nat × (β × Method))}
    (h : List.Forall₂ (fun x y => x.1 = y.1 ∧ R x.2 y.2) xs ys)
    {x? : Option (Nat × (α × Method))} {y? : Option (Nat × (β × Method))}
    (hbest : Option.Rel (fun x y => x.1 = y.1 ∧ R x.2 y.2) x? y?) :
    Option.Rel (fun x y => x.1 = y.1 ∧ R x.2 y.2) (xs.foldl cheaper x?) (ys.foldl cheaper y?) := by
  induction h generalizing x? y? with
  | nil => exact hbest
  | cons hxy _ ih => exact ih (cheaper_rel hbest hxy)

theorem filterMap_cost_rel (h : im.Resembles im') (hR : ∀ x y, R x y → x.2.params = y.2.params)
    {cs : List (α × Method)} {cs' : List (β × Method)} (hcs : List.Forall₂ R cs cs')
    (args : List Ty) :
    List.Forall₂ (fun x y => x.1 = y.1 ∧ R x.2 y.2)
      (cs.filterMap fun c => (im.totalCost? args c.2.paramTypes).map fun cost => (cost, c))
      (cs'.filterMap fun c => (im'.totalCost? args c.2.paramTypes).map fun cost => (cost, c)) := by
  refine List.rel_filterMap (fun x y hxy => ?_) hcs
  unfold Method.paramTypes
  rw [hR x y hxy, h.totalCost?]
  cases im'.totalCost? args _ with
  | none => exact .none
  | some cost => exact .some ⟨rfl, hxy⟩

/-- Among methods that resemble each other one by one, a call means the same one. -/
theorem selectOverload (h : im.Resembles im') (hR : ∀ x y, R x y → x.2.params = y.2.params)
    {cs : List (α × Method)} {cs' : List (β × Method)} (hcs : List.Forall₂ R cs cs')
    (args : List Ty) :
    (∃ c c', im.selectOverload cs args = .ok c ∧ im'.selectOverload cs' args = .ok c' ∧ R c c') ∨
      ∃ e, im.selectOverload cs args = .error e ∧ im'.selectOverload cs' args = .error e := by
  have hfitting : List.Forall₂ R (cs.filter fun c => c.2.params.length == args.length)
      (cs'.filter fun c => c.2.params.length == args.length) :=
    filter_forall₂ (fun x y hxy => by rw [hR x y hxy]) hcs
  unfold Image.selectOverload
  dsimp only
  rw [forall₂_isEmpty hfitting]
  split
  · exact .inr ⟨_, rfl, rfl⟩
  · have hcosted := filterMap_cost_rel h hR hfitting args
    have hbest : Option.Rel R
        (im.cheapest? args (cs.filter fun c => c.2.params.length == args.length))
        (im'.cheapest? args (cs'.filter fun c => c.2.params.length == args.length)) := by
      have hfold := foldl_cheaper_rel hcosted .none
      unfold cheapest?
      dsimp only
      generalize List.foldl cheaper none _ = x? at hfold ⊢
      generalize List.foldl cheaper none _ = y? at hfold ⊢
      cases hfold with
      | none => exact .none
      | some hxy => exact .some hxy.2
    generalize im.cheapest? args _ = c? at hbest ⊢
    generalize im'.cheapest? args _ = c'? at hbest ⊢
    cases hbest with
    | none => exact .inr ⟨_, rfl, rfl⟩
    | some hc => exact .inl ⟨_, _, rfl, rfl, hc⟩

end Resembles

end Image

end Chunkwise
