import Chunkwise.Proofs.Session.Commit
import Chunkwise.Session.Evaluator

namespace Chunkwise

namespace Builtin

theorem typeDef?_image {p : Path} {d : TypeDef} (h : image.typeDef? p = some d) :
    d = console ∨ d = math := by
  have hmem := Image.typeDef?_mem h
  simp only [image, List.mem_cons, Entry.mk.injEq, Container.type.injEq, List.not_mem_nil,
    or_false, reduceCtorEq, and_false, false_or] at hmem
  rcases hmem with ⟨-, hd⟩ | ⟨-, hd⟩
  · exact .inl hd
  · exact .inr hd

/-- The types in built-in signatures. -/
def types : List Ty := [.int, .long, .double, .object, .void]

/-- A static method of the host with a signature that every image knows. -/
def IsHostMethod (m : Method) : Prop :=
  m.isStatic = true ∧ m.isAbstract = false ∧ (∀ t ∈ m.returns :: m.paramTypes, t ∈ types) ∧
    (m.params.map Prod.fst).Nodup

instance (m : Method) : Decidable (IsHostMethod m) := inferInstanceAs (Decidable (_ ∧ _ ∧ _ ∧ _))

theorem knows_of_mem_types {im : Image} {t : Ty} (h : t ∈ types) : im.Knows t := by
  simp only [types, List.mem_cons, List.not_mem_nil, or_false] at h
  rcases h with rfl | rfl | rfl | rfl | rfl <;> trivial

theorem IsHostMethod.sigOk {im : Image} {m : Method} (h : IsHostMethod m) : m.SigOk im :=
  ⟨fun t ht => knows_of_mem_types (h.2.2.1 t (List.mem_cons_of_mem _ ht)), h.2.2.2,
    knows_of_mem_types (h.2.2.1 _ List.mem_cons_self)⟩

theorem sigOk_of_host {im : Image} {statics : List StaticField} {methods : List Method}
    (hstatics : ∀ f ∈ statics, f.type ∈ types) (hmethods : ∀ m ∈ methods, IsHostMethod m)
    (hdistinct : methods.Pairwise fun m n => m.sameSignature n = false) :
    ({ TypeDef.bare .classKind true false with statics, methods } : TypeDef).SigOk im where
  interfaces q hq := by cases hq
  enums _ := rfl
  enumMembers h := absurd rfl h
  statics f hf := knows_of_mem_types (hstatics f hf)
  fields f hf := by cases hf
  methods m hm := (hmethods m hm).sigOk
  constructors m hm := by cases hm
  abstracts m hm ha := by
    rw [(hmethods m hm).2.1] at ha
    cases ha
  distinct := hdistinct

theorem sigOk {im : Image} {d : TypeDef} (h : d = console ∨ d = math) : d.SigOk im := by
  rcases h with rfl | rfl
  · exact sigOk_of_host (fun f hf => by cases hf) (by decide) (by decide)
  · exact sigOk_of_host (by decide) (by decide) (by decide)

theorem bodiesOk {im : Image} {p : Path} {d : TypeDef} (h : d = console ∨ d = math) :
    d.BodiesOk im p := by
  rcases h with rfl | rfl
  · refine ⟨fun m hm => ?_, fun m hm => (by cases hm), fun x hx => (by cases hx)⟩
    simp only [console, List.mem_cons, List.not_mem_nil, or_false] at hm
    rcases hm with rfl | rfl | rfl <;> exact rfl
  · refine ⟨fun m hm => ?_, fun m hm => (by cases hm), fun x hx => (by cases hx)⟩
    simp only [math, List.mem_cons, List.not_mem_nil, or_false] at hm
    rcases hm with rfl | rfl | rfl | rfl | rfl | rfl | rfl | rfl | rfl | rfl | rfl <;> exact rfl

theorem image_sound : image.Sound where
  sigs _ _ hd := sigOk (typeDef?_image hd)
  bodies _ _ hd := bodiesOk (typeDef?_image hd)
  conforming p d hd _ q hq := by
    rcases typeDef?_image hd with rfl | rfl <;> cases hq

theorem image_flat : image.Flat := by
  intro p d hd _
  rcases typeDef?_image hd with rfl | rfl <;> rfl

theorem image_closed : image.Closed := by
  have hempty : (⟨[], [], []⟩ : Image).Closed := fun e he => by cases he
  have hspace := hempty.add .empty "System" .space (.inl rfl)
  have hconsole := hspace.add .empty "Console" (.type console)
    (.inr ⟨⟨["System"], .space⟩, List.mem_cons_self, rfl⟩)
  exact hconsole.add .empty "Math" (.type math)
    (.inr ⟨⟨["System"], .space⟩, List.mem_cons_self, rfl⟩)

theorem staticSlot_image {i : Nat} {t : Ty} (h : image.StaticSlot i t) :
    store.Offers true i t := by
  obtain ⟨p, d, f, hd, hf, rfl, rfl⟩ := h
  rcases typeDef?_image hd with rfl | rfl
  · cases hf
  · simp only [math, List.mem_cons, List.not_mem_nil, or_false] at hf
    rcases hf with rfl | rfl <;> exact ⟨_, rfl, rfl, fun _ => rfl⟩

theorem store_slot {i : Nat} {slot : Slot} (h : store.slots[i]? = some slot) :
    slot.type = .double ∧ ∃ x, slot.value = .double x := by
  match i with
  | 0 | 1 =>
    cases h
    exact ⟨rfl, _, rfl⟩
  | _ + 2 => cases h

theorem store_ok (strict : Bool) {im : Image}
    (h : ∀ i t, im.StaticSlot i t → image.StaticSlot i t) : store.Ok strict im where
  slots i slot hi _ := by
    obtain ⟨ht, x, hx⟩ := store_slot hi
    rw [ht, hx]
    exact .inl ⟨x, rfl⟩
  heap id o ho := by cases ho
  statics i t hs := by
    have hoffers := staticSlot_image (h i t hs)
    cases strict with
    | true => exact hoffers
    | false => exact hoffers.lenient

end Builtin

namespace Evaluator

theorem defaultUsings_known {im : Image} {names : List String} {u : Using}
    (h : u ∈ defaultUsings im names) (im' : Image) : u.target.Known im' := by
  obtain ⟨name, -, hu⟩ := List.mem_filterMap.mp h
  split at hu
  · cases hu
    trivial
  · cases hu

theorem ofSettings_valid (settings : Settings) : (ofSettings settings).session.Valid where
  closed e he p hne hpre := by
    change e ∈ (Builtin.image.commit _ []).entries at he
    change ∃ e' ∈ (Builtin.image.commit _ []).entries, e'.path = p
    rw [Image.commit_entries] at he ⊢
    exact Builtin.image_closed e he p hne hpre
  sound := Builtin.image_sound.commit _ _
  usings u hu := by
    rcases Image.mem_foldl_addUsing hu with hu | hu
    · cases hu
    · exact defaultUsings_known hu _
  types i slot hi := by
    rw [(Builtin.store_slot hi).1]
    trivial
  statics i t hs := Builtin.staticSlot_image (Image.staticSlot_commit.mp hs)
  registered name v hv := by cases hv
  apart name v t hv := by cases hv
  distinct name name' v v' hv := by cases hv

theorem ofSettings_store (settings : Settings) (strict : Bool) :
    (ofSettings settings).session.store.Ok strict (ofSettings settings).session.image :=
  Builtin.store_ok strict fun _ _ hs => Image.staticSlot_commit.mp hs

theorem ofSettings_flat (settings : Settings) : (ofSettings settings).session.image.Flat :=
  Builtin.image_flat.commit _ _

end Evaluator

end Chunkwise
