import Chunkwise.Proofs.Machine.Contract

namespace Chunkwise.Machine

variable {strict : Bool} {im : Image} {objects : Nat → Option Path} {v l r : Value} {t a b : Ty}

theorem int_of_belongs (ht : NumKind.int.Of t) (h : v.Belongs strict im objects t) :
    (∃ n, v = .int n) ∨ strict = false ∧ v = .null := by
  rcases h with h | h
  · left
    cases t <;> simp_all [NumKind.Of, Ty.isIntegral, Value.Conforms]
  · exact .inr h

theorem double_of_belongs (ht : NumKind.double.Of t) (h : v.Belongs strict im objects t) :
    (∃ x, v = .double x) ∨ strict = false ∧ v = .null := by
  cases (show t = .double from ht)
  exact h

theorem belongs_int (ht : NumKind.int.Of t) (n : Int64) :
    (Value.int n).Belongs strict im objects t := by
  left
  cases t <;> simp_all [NumKind.Of, Ty.isIntegral, Value.Conforms]

theorem belongs_double (ht : NumKind.double.Of t) (x : Float) :
    (Value.double x).Belongs strict im objects t := by
  cases (show t = .double from ht)
  exact .inl ⟨x, rfl⟩

theorem belongs_bool (x : Bool) : (Value.bool x).Belongs strict im objects .bool := .inl ⟨x, rfl⟩

theorem belongs_str (s : String) : (Value.str s).Belongs strict im objects .string :=
  .inl (.inr ⟨s, rfl⟩)

theorem arith_int_meets {op : ArithOp} (ha : NumKind.int.Of a) (hb : NumKind.int.Of b)
    (ht : NumKind.int.Of t) (hl : l.Belongs strict im objects a)
    (hr : r.Belongs strict im objects b) (im' : Image) :
    Run.Meets strict (apply im' (.arith op .int) l r) (·.Belongs strict im objects t) := by
  rcases int_of_belongs ha hl with ⟨m, rfl⟩ | ⟨hs, rfl⟩
  · rcases int_of_belongs hb hr with ⟨n, rfl⟩ | ⟨hs, rfl⟩
    · change Run.Meets strict ((intArith op m n).map Value.int) _
      have hint : ∀ k, (Value.int k).Belongs strict im objects t := fun k => belongs_int ht k
      cases op with
      | add | sub | mul => exact hint _
      | div | rem =>
        simp only [intArith]
        split
        · trivial
        · exact hint _
    · exact hs
  · exact hs

theorem apply_meets {op : ValueOp} (h : op.Takes a b t) (hl : l.Belongs strict im objects a)
    (hr : r.Belongs strict im objects b) (im' : Image) :
    Run.Meets strict (apply im' op l r) (·.Belongs strict im objects t) := by
  cases op with
  | arith op kind =>
    obtain ⟨ha, hb, ht⟩ := h
    cases kind with
    | int => exact arith_int_meets ha hb ht hl hr im'
    | double =>
      rcases double_of_belongs ha hl with ⟨m, rfl⟩ | ⟨hs, rfl⟩
      · rcases double_of_belongs hb hr with ⟨n, rfl⟩ | ⟨hs, rfl⟩
        · exact belongs_double ht _
        · exact hs
      · exact hs
  | compare op kind =>
    obtain ⟨ha, hb, rfl⟩ := h
    cases kind with
    | int =>
      rcases int_of_belongs ha hl with ⟨m, rfl⟩ | ⟨hs, rfl⟩
      · rcases int_of_belongs hb hr with ⟨n, rfl⟩ | ⟨hs, rfl⟩
        · exact belongs_bool _
        · exact hs
      · exact hs
    | double =>
      rcases double_of_belongs ha hl with ⟨m, rfl⟩ | ⟨hs, rfl⟩
      · rcases double_of_belongs hb hr with ⟨n, rfl⟩ | ⟨hs, rfl⟩
        · exact belongs_bool _
        · exact hs
      · exact hs
  | concat =>
    cases (show t = .string from h)
    exact belongs_str _
  | equal | notEqual =>
    cases (show t = .bool from h)
    exact belongs_bool _

theorem negate_meets {kind : NumKind} (ht : kind.Of t) (hv : v.Belongs strict im objects t) :
    Run.Meets strict (negate kind v) (·.Belongs strict im objects t) := by
  cases kind with
  | int =>
    rcases int_of_belongs ht hv with ⟨n, rfl⟩ | ⟨hs, rfl⟩
    · exact belongs_int ht _
    · exact hs
  | double =>
    rcases double_of_belongs ht hv with ⟨n, rfl⟩ | ⟨hs, rfl⟩
    · exact belongs_double ht _
    · exact hs

theorem stepValue_meets {kind : NumKind} {op : StepOp} (ht : kind.Of t)
    (hv : v.Belongs strict im objects t) :
    Run.Meets strict (stepValue kind op v) (·.Belongs strict im objects t) := by
  cases kind with
  | int =>
    rcases int_of_belongs ht hv with ⟨n, rfl⟩ | ⟨hs, rfl⟩
    · exact belongs_int ht _
    · exact hs
  | double =>
    rcases double_of_belongs ht hv with ⟨n, rfl⟩ | ⟨hs, rfl⟩
    · exact belongs_double ht _
    · exact hs

theorem toText_meets (im' : Image) (v : Value) :
    Run.Meets strict (toText im' v) (·.Belongs strict im objects .string) := by
  cases v <;> first | exact belongs_str _ | trivial

theorem textLength_meets (hv : v.Belongs strict im objects .string) :
    Run.Meets strict (textLength v) (·.Belongs strict im objects .int) := by
  rcases hv with (rfl | ⟨s, rfl⟩) | ⟨-, rfl⟩
  · trivial
  · exact belongs_int (t := .int) rfl _
  · trivial

theorem widen_belongs (ht : t.isIntegral = true) (hv : v.Belongs strict im objects t) :
    (widen v).Belongs strict im objects .double := by
  rcases int_of_belongs ht hv with ⟨n, rfl⟩ | ⟨hs, rfl⟩
  · exact belongs_double rfl _
  · exact .inr ⟨hs, rfl⟩

/-- Only objects are called, and a value of a type without enum values is one or is null. -/
theorem receiver_meets {p : Path} {k : TypeKind} (hp : im.kind? p = some k) (hk : k ≠ .enumKind)
    (hv : v.Belongs strict im objects (.named p)) :
    Run.Meets strict (receiver v) fun o => o.value.Conforms im objects (.named p) := by
  have hnull : Run.Meets strict (receiver .null) fun o =>
      o.value.Conforms im objects (.named p) := trivial
  rcases hv with hv | ⟨-, rfl⟩
  · have hv' := hv
    simp only [Value.Conforms, hp] at hv'
    cases k with
    | enumKind => exact absurd rfl hk
    | interfaceKind =>
      rcases hv' with rfl | ⟨q, id, rfl, -⟩
      · exact hnull
      · exact hv
    | classKind | structKind =>
      rcases hv' with rfl | ⟨id, rfl, -⟩
      · exact hnull
      · exact hv
  · exact hnull

/-- An object of a type that has objects is of exactly that type. -/
theorem object_of_conforms {p : Path} {d : TypeDef} {o : ObjectRef} (hd : im.typeDef? p = some d)
    (ho : d.hasObjects = true) (h : o.value.Conforms im objects (.named p)) :
    o.type = p ∧ objects o.id = some p := by
  simp only [Value.Conforms, Image.kind?_eq hd, ObjectRef.value] at h
  cases hk : d.kind with
  | enumKind | interfaceKind => simp [TypeDef.hasObjects, hk] at ho
  | classKind | structKind =>
    rw [hk] at h
    rcases h with h | ⟨id, hv, hid⟩
    · cases h
    · cases hv
      exact ⟨rfl, hid⟩

/-- An object behind an interface has a type from which a chain leads there. -/
theorem object_of_interface {p : Path} {o : ObjectRef} (hk : im.kind? p = some .interfaceKind)
    (h : o.value.Conforms im objects (.named p)) :
    objects o.id = some o.type ∧ im.Reaches o.type p := by
  simp only [Value.Conforms, hk, ObjectRef.value] at h
  rcases h with h | ⟨q, id, hv, hid, hr⟩
  · cases h
  · cases hv
    exact ⟨hid, hr⟩

theorem conforms_object {p : Path} {d : TypeDef} {o : ObjectRef} (hd : im.typeDef? p = some d)
    (ho : d.hasObjects = true) (ht : o.type = p) (hid : objects o.id = some p) :
    o.value.Conforms im objects (.named p) := by
  simp only [Value.Conforms, Image.kind?_eq hd, ObjectRef.value]
  cases hk : d.kind with
  | enumKind | interfaceKind => simp [TypeDef.hasObjects, hk] at ho
  | classKind | structKind => exact .inr ⟨o.id, by rw [ht], hid⟩

end Chunkwise.Machine
