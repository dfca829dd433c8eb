import Chunkwise.Proofs.Image.Lookup

namespace Chunkwise

def Container.isType : Container → Bool
  | .space => false
  | .type _ => true

def Entry.place (e : Entry) : Path × Bool := (e.path, e.container.isType)

namespace Image

variable {im im' : Image}

def shape (im : Image) : List (Path × Bool) := im.entries.map Entry.place

/-- The paths of all types in order of declaration. -/
def typePaths (im : Image) : List Path := (im.shape.filter Prod.snd).map Prod.fst

theorem updateType_shape (im : Image) (p : Path) (f : TypeDef → TypeDef) :
    (im.updateType p f).shape = im.shape := by
  have hplace : ∀ e : Entry, (replaced p f e).place = e.place := by
    intro e
    unfold Entry.place
    rw [replaced_path]
    unfold replaced
    obtain ⟨q, c⟩ := e
    cases c with
    | space => rfl
    | type d =>
      dsimp only
      split <;> rfl
  simp [shape, updateType_entries, hplace]

theorem find?_shape (im : Image) (p : Path) :
    (im.find? p).map Entry.place = im.shape.find? fun x => x.1 == p := by
  simp [find?, shape, List.find?_map, Function.comp_def, Entry.place]

theorem lookup_eq (im : Image) (p : Path) : im.lookup p =
    if p.isEmpty then some (.space [])
    else (im.shape.find? fun x => x.1 == p).map fun x => if x.2 then .type p else .space p := by
  rw [← find?_shape]
  unfold lookup
  cases im.find? p with
  | none => simp
  | some e =>
    obtain ⟨q, c⟩ := e
    cases c <;> simp [Entry.place, Container.isType]

theorem lookup_congr (h : im'.shape = im.shape) (p : Path) : im'.lookup p = im.lookup p := by
  rw [lookup_eq, lookup_eq, h]

theorem lookup_append {new : List (Path × Bool)} (h : im'.shape = im.shape ++ new) {p : Path}
    {e : Entity} (he : im.lookup p = some e) : im'.lookup p = some e := by
  rw [lookup_eq] at he ⊢
  by_cases hp : p.isEmpty = true
  · rwa [if_pos hp] at he ⊢
  · rw [if_neg hp] at he ⊢
    obtain ⟨x, hx, hxe⟩ := Option.map_eq_some_iff.mp he
    rw [h, List.find?_append, hx, Option.some_or, Option.map_some, hxe]

end Image

end Chunkwise
