import Chunkwise.Proofs.Binder.Names
import Chunkwise.Proofs.Image.Rollback
import Chunkwise.Proofs.Machine.Store
import Chunkwise.Session.Compile

/-!
What every session has on which chunks are compiled, whatever its units have done so far. Names
that are registered stand for slots in use, no two for the same one, and none for the slot of a
static field.
-/
namespace Chunkwise

structure Session.Valid (s : Session) : Prop where
  closed : s.image.Closed
  sound : s.image.Sound
  usings : ∀ u ∈ s.image.usings, u.target.Known s.image
  types : ∀ (i : Nat) (slot : Slot), s.store.slots[i]? = some slot → s.image.Knows slot.type
  statics : ∀ i t, s.image.StaticSlot i t → s.store.Offers true i t
  registered : ∀ name v, s.registry.lookup name = some v → ∃ t, s.store.Offers true v.slot t
  apart : ∀ name v t, s.registry.lookup name = some v → ¬ s.image.StaticSlot v.slot t
  distinct : ∀ name name' v v', s.registry.lookup name = some v →
    s.registry.lookup name' = some v' → v.slot = v'.slot → name = name'

end Chunkwise
