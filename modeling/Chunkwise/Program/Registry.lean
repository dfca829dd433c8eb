import Chunkwise.Program.Store

/-!
The persistent variables of a session by name, in order of first declaration. Declaring a name
again gives it a new slot and releases the old one.
-/
namespace Chunkwise

structure Variable where
  slot : Nat
  isReadonly : Bool
  deriving DecidableEq, Repr

structure Registry where
  entries : List (String × Variable)
  deriving DecidableEq, Repr

namespace Registry

def empty : Registry := ⟨[]⟩

def lookup (r : Registry) (name : String) : Option Variable := r.entries.lookup name

/-- The entries with one name bound anew; a new name goes to the end. -/
def bind (name : String) (v : Variable) : List (String × Variable) → List (String × Variable)
  | [] => [(name, v)]
  | (n, old) :: rest => if n = name then (n, v) :: rest else (n, old) :: bind name v rest

/-- Registers a slot under a name. The slot registered before is released first, even if it is the
same one. -/
def register (r : Registry) (store : Store) (name : String) (v : Variable) : Registry × Store :=
  let store := match r.lookup name with
    | some old => store.release old.slot
    | none => store
  (⟨bind name v r.entries⟩, store)

/-- The number of slots in use for a name: none or one. -/
def liveSlots (r : Registry) (store : Store) (name : String) : Nat :=
  match r.lookup name with
  | some v => if store.isReleased v.slot then 0 else 1
  | none => 0

end Registry

end Chunkwise
