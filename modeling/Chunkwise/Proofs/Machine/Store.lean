import Chunkwise.Machine.State
import Chunkwise.Proofs.Typing.Image

/-!
When the values in storage fit the types of their slots and fields. Two readings run side by side:
in the strict one every value is one of its type, in the lenient one it may also be null, which is
what a released slot leaves behind. Storage only ever moves to a `Later` one.
-/
namespace Chunkwise

def Slot.face (s : Slot) : Slot := { s with value := .null }

namespace Store

def objects (st : Store) (id : Nat) : Option Path := (st.heap[id]?).map Object.type

/-- Objects stay, and slots change at most their values. -/
structure Later (st st' : Store) : Prop where
  objects : ∀ id p, st.objects id = some p → st'.objects id = some p
  slots : st'.slots.map Slot.face = st.slots.map Slot.face

theorem Later.refl (st : Store) : st.Later st := ⟨fun _ _ h => h, rfl⟩

theorem Later.trans {a b c : Store} (h : a.Later b) (h' : b.Later c) : a.Later c :=
  ⟨fun id p hp => h'.objects id p (h.objects id p hp), h'.slots.trans h.slots⟩

theorem Later.slot {st st' : Store} (h : st.Later st') {i : Nat} {slot : Slot}
    (hi : st.slots[i]? = some slot) : ∃ slot', st'.slots[i]? = some slot' ∧ slot'.face = slot.face := by
  have := congrArg (·[i]?) h.slots
  simpa [hi, Option.map_eq_some_iff] using this

theorem Later.slot_back {st st' : Store} (h : st.Later st') {i : Nat} {slot' : Slot}
    (hi : st'.slots[i]? = some slot') : ∃ slot, st.slots[i]? = some slot ∧ slot.face = slot'.face := by
  have := congrArg (·[i]?) h.slots.symm
  simpa [hi, Option.map_eq_some_iff] using this

end Store

theorem Slot.type_of_face {a b : Slot} (h : a.face = b.face) : a.type = b.type := by
  simpa [face] using congrArg Slot.type h

theorem Slot.released_of_face {a b : Slot} (h : a.face = b.face) : a.released = b.released := by
  simpa [face] using congrArg Slot.released h

/-- A value of the type; in the lenient reading also null. -/
def Value.Belongs (strict : Bool) (im : Image) (objects : Nat → Option Path) (v : Value) (t : Ty) :
    Prop :=
  v.Conforms im objects t ∨ strict = false ∧ v = .null

/-- A value of a type is one of every interface that the type lists. -/
theorem Value.Conforms.implements {im : Image} {objects : Nat → Option Path} {v : Value}
    (hs : im.Sound) {p q : Path} (h : v.Conforms im objects (.named p))
    (ha : im.implements p q = true) : v.Conforms im objects (.named q) := by
  obtain ⟨d, hd, hq⟩ := Image.implements_iff.mp ha
  have hsig := hs.sigs p d hd
  have hreach : im.Reaches p q := .single ha
  simp only [Conforms, hsig.interfaces q hq]
  simp only [Conforms, Image.kind?_eq hd] at h
  cases hkind : d.kind with
  | enumKind => simp [hsig.enums hkind] at hq
  | interfaceKind =>
    rw [hkind] at h
    rcases h with h | ⟨r, id, hv, ho, hr⟩
    · exact .inl h
    · exact .inr ⟨r, id, hv, ho, hr.trans hreach⟩
  | classKind | structKind =>
    rw [hkind] at h
    rcases h with h | ⟨id, hv, ho⟩
    · exact .inl h
    · exact .inr ⟨p, id, hv, ho, hreach⟩

namespace Value.Belongs

variable {strict : Bool} {im : Image} {objects objects' : Nat → Option Path} {v : Value} {t : Ty}

theorem more (h : v.Belongs strict im objects t)
    (ho : ∀ id p, objects id = some p → objects' id = some p) : v.Belongs strict im objects' t := by
  rcases h with h | h
  · exact .inl (h.more ho)
  · exact .inr h

theorem later {st st' : Store} (h : v.Belongs strict im st.objects t) (hl : st.Later st') :
    v.Belongs strict im st'.objects t := h.more hl.objects

theorem strictly (h : v.Belongs true im objects t) : v.Conforms im objects t := by
  rcases h with h | ⟨h, -⟩
  · exact h
  · cases h

theorem passes (hs : im.Sound) {s : Ty} (h : v.Belongs strict im objects s) (hp : im.Passes s t) :
    v.Belongs strict im objects t := by
  rcases hp with rfl | ⟨ha, hd, hk⟩
  · exact h
  rcases h with h | h
  · refine .inl ?_
    unfold Image.isAssignable at ha
    rcases Bool.or_eq_true_iff.mp ha with heq | ha
    · rwa [← eq_of_beq heq]
    split at ha
    · cases ha
    · cases ha
    · rw [show v = .null from h]
      exact conforms_null ha
    · exact h
    · exact absurd rfl hd
    · exact absurd rfl hd
    · trivial
    · exact Conforms.implements hs h ha
    · cases ha
  · exact .inr h

end Value.Belongs

/-- The store has a slot of this type, and in the strict reading one in use. -/
def Store.Offers (strict : Bool) (st : Store) (i : Nat) (t : Ty) : Prop :=
  ∃ slot, st.slots[i]? = some slot ∧ slot.type = t ∧ (strict = true → slot.released = false)

theorem Store.Offers.later {strict : Bool} {st st' : Store} {i : Nat} {t : Ty}
    (h : st.Offers strict i t) (hl : st.Later st') : st'.Offers strict i t := by
  obtain ⟨slot, hi, rfl, hr⟩ := h
  obtain ⟨slot', hi', hf⟩ := hl.slot hi
  refine ⟨slot', hi', Slot.type_of_face hf, fun hs => ?_⟩
  rw [Slot.released_of_face hf, hr hs]

/-- An object of a type that can be instantiated, with fields of their types. -/
def Object.Ok (strict : Bool) (im : Image) (objects : Nat → Option Path) (o : Object) : Prop :=
  ∃ d, im.typeDef? o.type = some d ∧ d.Instantiable ∧ o.fields.size = d.fields.length ∧
    ∀ (i : Nat) (f : InstanceField) (v : Value), d.fields[i]? = some f → o.fields[i]? = some v →
      v.Belongs strict im objects f.type

structure Store.Ok (strict : Bool) (im : Image) (st : Store) : Prop where
  slots : ∀ (i : Nat) (slot : Slot), st.slots[i]? = some slot →
    (strict = true → slot.released = false) → slot.value.Belongs strict im st.objects slot.type
  heap : ∀ (id : Nat) (o : Object), st.heap[id]? = some o → o.Ok strict im st.objects
  statics : ∀ i t, im.StaticSlot i t → st.Offers strict i t

namespace Store

variable {strict : Bool} {im : Image} {st : Store}

theorem writeSlot_later (st : Store) (i : Nat) (v : Value) : st.Later (st.writeSlot i v) := by
  refine ⟨fun _ _ h => h, ?_⟩
  ext j
  · simp [writeSlot]
  · simp only [writeSlot, Array.getElem_map, Array.getElem_modify]
    split <;> simp_all [Slot.face]

theorem writeField_objects (st : Store) (id i : Nat) (v : Value) :
    (st.writeField id i v).objects = st.objects := by
  funext j
  simp only [objects, writeField, Array.getElem?_modify]
  split
  · next h =>
    subst h
    cases st.heap[id]? <;> rfl
  · rfl

theorem writeField_later (st : Store) (id i : Nat) (v : Value) : st.Later (st.writeField id i v) :=
  ⟨fun _ _ h => by rwa [writeField_objects], rfl⟩

theorem addObject_later (st : Store) (p : Path) (fields : Array Value) :
    st.Later (st.addObject p fields).2 := by
  refine ⟨fun id q h => ?_, rfl⟩
  obtain ⟨o, ho, rfl⟩ := Option.map_eq_some_iff.mp h
  obtain ⟨hlt, rfl⟩ := Array.getElem?_eq_some_iff.mp ho
  simp [objects, addObject, Array.getElem?_push, Nat.ne_of_lt hlt, hlt]

theorem addObject_objects (st : Store) (p : Path) (fields : Array Value) :
    (st.addObject p fields).2.objects (st.addObject p fields).1 = some p := by
  simp [objects, addObject]

namespace Ok

theorem readSlot (h : st.Ok strict im) {i : Nat} {t : Ty} (ho : st.Offers strict i t) :
    (st.readSlot i).Belongs strict im st.objects t := by
  obtain ⟨slot, hi, rfl, hr⟩ := ho
  simpa [Store.readSlot, hi] using h.slots i slot hi hr

theorem writeSlot (h : st.Ok strict im) {i : Nat} {t : Ty} {v : Value}
    (ho : st.Offers strict i t) (hv : v.Belongs strict im st.objects t) :
    (st.writeSlot i v).Ok strict im := by
  refine ⟨fun j slot hj hr => ?_, h.heap,
    fun j t hs => (h.statics j t hs).later (writeSlot_later st i v)⟩
  obtain ⟨old, hi, rfl, -⟩ := ho
  simp only [Store.writeSlot, Array.getElem?_modify] at hj
  split at hj
  · next hij =>
    subst hij
    rw [hi] at hj
    cases hj
    exact hv
  · exact h.slots j slot hj hr

theorem readField (h : st.Ok strict im) {id i : Nat} {p : Path} {d : TypeDef} {f : InstanceField}
    (ho : st.objects id = some p) (hd : im.typeDef? p = some d) (hf : d.fields[i]? = some f) :
    (st.readField id i).Belongs strict im st.objects f.type := by
  obtain ⟨o, hid, rfl⟩ := Option.map_eq_some_iff.mp ho
  obtain ⟨d', hd', -, hsize, hfields⟩ := h.heap id o hid
  obtain rfl : d = d' := by simpa [hd] using hd'
  have hlt : i < o.fields.size := hsize ▸ (List.getElem?_eq_some_iff.mp hf).1
  have hv := Array.getElem?_eq_getElem hlt
  simpa [Store.readField, hid, hv] using hfields i f _ hf hv

theorem writeField (h : st.Ok strict im) {id i : Nat} {p : Path} {d : TypeDef} {f : InstanceField}
    {v : Value} (ho : st.objects id = some p) (hd : im.typeDef? p = some d)
    (hf : d.fields[i]? = some f) (hv : v.Belongs strict im st.objects f.type) :
    (st.writeField id i v).Ok strict im := by
  refine ⟨fun j slot hj hr => ?_, fun j o hj => ?_,
    fun j t hs => (h.statics j t hs).later (writeField_later st id i v)⟩
  · rw [writeField_objects]
    exact h.slots j slot hj hr
  · rw [writeField_objects]
    simp only [Store.writeField, Array.getElem?_modify] at hj
    split at hj
    · next hij =>
      subst hij
      obtain ⟨old, hold, rfl⟩ := Option.map_eq_some_iff.mp hj
      obtain ⟨o, hid, rfl⟩ := Option.map_eq_some_iff.mp ho
      obtain rfl : o = old := by simpa [hid] using hold
      obtain ⟨d', hd', hinst, hsize, hfields⟩ := h.heap id o hid
      obtain rfl : d = d' := by simpa [hd] using hd'
      refine ⟨d, hd, hinst, by simpa using hsize, fun j g w hg hw => ?_⟩
      simp only [Array.getElem?_modify] at hw
      split at hw
      · next hij =>
        subst hij
        obtain rfl : f = g := by simpa [hf] using hg
        obtain ⟨-, -, rfl⟩ := Option.map_eq_some_iff.mp hw
        exact hv
      · exact hfields j g w hg hw
    · exact h.heap j o hj

theorem addObject (h : st.Ok strict im) {p : Path} {d : TypeDef} {fields : Array Value}
    (hd : im.typeDef? p = some d) (hi : d.Instantiable) (hsize : fields.size = d.fields.length)
    (hfields : ∀ (i : Nat) (f : InstanceField) (v : Value), d.fields[i]? = some f → fields[i]? = some v →
      v.Belongs strict im st.objects f.type) :
    (st.addObject p fields).2.Ok strict im := by
  have hl := addObject_later st p fields
  refine ⟨fun j slot hj hr => (h.slots j slot hj hr).later hl, fun j o hj => ?_,
    fun j t hs => (h.statics j t hs).later hl⟩
  simp only [Store.addObject, Array.getElem?_push] at hj
  split at hj
  · cases hj
    exact ⟨d, hd, hi, hsize, fun i f v hf hv => (hfields i f v hf hv).later hl⟩
  · obtain ⟨d', hd', hi', hs', hf'⟩ := h.heap j o hj
    exact ⟨d', hd', hi', hs', fun i f v hf hv => (hf' i f v hf hv).later hl⟩

theorem instantiable (h : st.Ok strict im) {id : Nat} {p : Path} (ho : st.objects id = some p) :
    ∃ d, im.typeDef? p = some d ∧ d.Instantiable := by
  obtain ⟨o, hid, rfl⟩ := Option.map_eq_some_iff.mp ho
  obtain ⟨d, hd, hi, -⟩ := h.heap id o hid
  exact ⟨d, hd, hi⟩

end Ok

/-- Slots in use were added, each with the default value of its type. -/
structure Adds (im : Image) (st st' : Store) : Prop where
  heap : st'.heap = st.heap
  size : st.slots.size ≤ st'.slots.size
  old : ∀ i, i < st.slots.size → st'.slots[i]? = st.slots[i]?
  new : ∀ (i : Nat) (slot : Slot), st.slots.size ≤ i → st'.slots[i]? = some slot →
    slot.released = false ∧ im.Knows slot.type ∧ slot.value = im.defaultValue slot.type

namespace Adds

variable {im im' : Image} {st st' st'' : Store}

theorem refl (im : Image) (st : Store) : st.Adds im st := by
  refine ⟨rfl, Nat.le_refl _, fun _ _ => rfl, fun i slot hi hs => ?_⟩
  have := (Array.getElem?_eq_some_iff.mp hs).1
  omega

theorem trans (h : st.Adds im st') (h' : st'.Adds im st'') : st.Adds im st'' := by
  refine ⟨h'.heap.trans h.heap, Nat.le_trans h.size h'.size, fun i hi => ?_, fun i slot hi hs => ?_⟩
  · rw [h'.old i (Nat.lt_of_lt_of_le hi h.size), h.old i hi]
  · by_cases hlt : i < st'.slots.size
    · exact h.new i slot hi (h'.old i hlt ▸ hs)
    · exact h'.new i slot (Nat.le_of_not_lt hlt) hs

theorem addSlot (im : Image) (st : Store) (name : String) {t : Ty} (ht : im.Knows t) :
    st.Adds im (st.addSlot name t (im.defaultValue t)).2 := by
  refine ⟨rfl, by simp [Store.addSlot], fun i hi => ?_, fun i slot hi hs => ?_⟩
  · simp [Store.addSlot, Array.getElem?_push, Nat.ne_of_lt hi]
  · simp only [Store.addSlot, Array.getElem?_push] at hs
    split at hs
    · cases hs
      exact ⟨rfl, ht, rfl⟩
    · have := (Array.getElem?_eq_some_iff.mp hs).1
      omega

theorem slot (h : st.Adds im st') {i : Nat} {slot : Slot} (hi : st.slots[i]? = some slot) :
    st'.slots[i]? = some slot := by
  rw [h.old i (Array.getElem?_eq_some_iff.mp hi).1, hi]

theorem offers (h : st.Adds im st') {strict : Bool} {i : Nat} {t : Ty}
    (ho : st.Offers strict i t) : st'.Offers strict i t := by
  obtain ⟨slot, hi, ht, hr⟩ := ho
  exact ⟨slot, h.slot hi, ht, hr⟩

theorem keep (h : st.Adds im st') (hk : im.Keeps im') : st.Adds im' st' := by
  refine ⟨h.heap, h.size, h.old, fun i slot hi hs => ?_⟩
  obtain ⟨hr, ht, hv⟩ := h.new i slot hi hs
  exact ⟨hr, hk.knows ht, by rw [hv, hk.defaultValue ht]⟩

end Adds

theorem offers_addSlot (strict : Bool) (st : Store) (name : String) (t : Ty) (v : Value) :
    (st.addSlot name t v).2.Offers strict st.slots.size t :=
  ⟨⟨name, t, v, false⟩, by simp [addSlot], rfl, fun _ => rfl⟩

theorem Offers.lenient {st : Store} {strict : Bool} {i : Nat} {t : Ty} (h : st.Offers strict i t) :
    st.Offers false i t := by
  obtain ⟨slot, hi, ht, -⟩ := h
  exact ⟨slot, hi, ht, by simp⟩

theorem Offers.lt {st : Store} {strict : Bool} {i : Nat} {t : Ty} (h : st.Offers strict i t) :
    i < st.slots.size := by
  obtain ⟨slot, hi, -⟩ := h
  exact (Array.getElem?_eq_some_iff.mp hi).1

end Store

end Chunkwise
