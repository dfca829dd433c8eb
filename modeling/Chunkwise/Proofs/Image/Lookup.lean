import Chunkwise.Image.Undo

/-!
What a path denotes after a container was added or a type was replaced. Later proofs read an image
only through these equations.
-/
namespace Chunkwise.Image

variable {im : Image}

theorem find?_path {p : Path} {e : Entry} (h : im.find? p = some e) : e.path = p := by
  simpa using List.find?_some h

theorem find?_mem {p : Path} {e : Entry} (h : im.find? p = some e) : e ∈ im.entries :=
  List.mem_of_find?_eq_some h

theorem find?_eq_none {p : Path} : im.find? p = none ↔ ∀ e ∈ im.entries, e.path ≠ p := by
  simp [find?, List.find?_eq_none]

theorem lookup_eq_none {p : Path} (hp : p ≠ []) : im.lookup p = none ↔ im.find? p = none := by
  unfold lookup
  rw [if_neg (by simpa using hp)]
  cases h : im.find? p with
  | none => simp
  | some e =>
    obtain ⟨q, c⟩ := e
    cases c <;> simp

theorem lookup_ne_none {p : Path} (hp : p ≠ []) :
    im.lookup p ≠ none ↔ ∃ e ∈ im.entries, e.path = p := by
  rw [ne_eq, lookup_eq_none hp, find?_eq_none]
  simp

theorem lookup_eq_type {p q : Path} :
    im.lookup p = some (.type q) ↔ p = q ∧ p ≠ [] ∧ (im.typeDef? p).isSome := by
  unfold lookup typeDef?
  by_cases hp : p = []
  · simp [hp]
  · rw [if_neg (by simpa using hp)]
    cases h : im.find? p with
    | none => simp
    | some e =>
      obtain ⟨r, c⟩ := e
      cases c <;> simp [hp]

theorem typeDef?_of_lookup {p q : Path} (h : im.lookup p = some (.type q)) :
    (im.typeDef? q).isSome := by
  obtain ⟨rfl, -, hd⟩ := lookup_eq_type.mp h
  exact hd

theorem typeDef?_of_nestedType? {outer p : Path} {name : String}
    (h : im.nestedType? outer name = some p) : (im.typeDef? p).isSome := by
  unfold nestedType? child at h
  split at h
  · next hl =>
    cases h
    exact typeDef?_of_lookup hl
  · cases h

theorem typeDef?_mem {p : Path} {d : TypeDef} (h : im.typeDef? p = some d) :
    ⟨p, .type d⟩ ∈ im.entries := by
  unfold typeDef? at h
  split at h
  · next hp =>
    cases h
    have := find?_path hp
    subst this
    exact find?_mem hp
  · cases h

/-- How `updateType` changes one entry. -/
def replaced (p : Path) (f : TypeDef → TypeDef) (e : Entry) : Entry :=
  match e.container with
  | .type d => if e.path == p then ⟨e.path, .type (f d)⟩ else e
  | .space => e

theorem updateType_entries (im : Image) (p : Path) (f : TypeDef → TypeDef) :
    (im.updateType p f).entries = im.entries.map (replaced p f) := rfl

theorem replaced_path (p : Path) (f : TypeDef → TypeDef) (e : Entry) :
    (replaced p f e).path = e.path := by
  unfold replaced
  split
  · split <;> rfl
  · rfl

theorem replaced_of_ne {p : Path} {f : TypeDef → TypeDef} {e : Entry} (h : e.path ≠ p) :
    replaced p f e = e := by
  unfold replaced
  split
  · rw [if_neg (by simpa using h)]
  · rfl

theorem find?_updateType (im : Image) (p : Path) (f : TypeDef → TypeDef) (q : Path) :
    (im.updateType p f).find? q = (im.find? q).map (replaced p f) := by
  unfold find?
  rw [updateType_entries, List.find?_map]
  congr 2
  funext e
  simp [replaced_path]

@[simp]
theorem typeDef?_updateType (im : Image) (p : Path) (f : TypeDef → TypeDef) (q : Path) :
    (im.updateType p f).typeDef? q =
      if q = p then (im.typeDef? q).map f else im.typeDef? q := by
  unfold typeDef?
  rw [find?_updateType]
  cases h : im.find? q with
  | none => simp
  | some e =>
    have hq := find?_path h
    obtain ⟨r, c⟩ := e
    simp only at hq
    subst hq
    cases c with
    | space => simp [replaced]
    | type d => by_cases hr : r = p <;> simp [replaced, hr]

theorem add_entries (im : Image) (undo : UndoLog) (parent : Path) (name : String) (c : Container) :
    (im.add undo parent name c).1.entries = im.entries ++ [⟨parent ++ [name], c⟩] := rfl

/-- An addition is found at its own path and hides nothing. -/
theorem find?_add {undo : UndoLog} {parent : Path} {name : String} {c : Container}
    (h : im.find? (parent ++ [name]) = none) (q : Path) :
    (im.add undo parent name c).1.find? q =
      if q = parent ++ [name] then some ⟨parent ++ [name], c⟩ else im.find? q := by
  unfold find?
  rw [add_entries, List.find?_append]
  by_cases hq : q = parent ++ [name]
  · subst hq
    rw [show im.entries.find? (fun e => e.path == parent ++ [name]) = none from h]
    simp
  · have hne : ¬ parent ++ [name] = q := fun h => hq h.symm
    rw [if_neg hq]
    cases im.entries.find? fun e => e.path == q <;> simp [hne]

theorem typeDef?_add (undo : UndoLog) {parent : Path} {name : String} {c : Container}
    (h : im.find? (parent ++ [name]) = none) (q : Path) :
    (im.add undo parent name c).1.typeDef? q =
      match c with
      | .type d => if q = parent ++ [name] then some d else im.typeDef? q
      | .space => im.typeDef? q := by
  unfold typeDef?
  rw [find?_add h]
  by_cases hq : q = parent ++ [name]
  · subst hq
    cases c <;> simp [h]
  · cases c <;> simp [hq]

end Chunkwise.Image
