import Chunkwise.Program.Value

/-!
Slots hold static fields and the variables of a session; the heap holds objects. A released slot
is out of use and holds null.
-/
namespace Chunkwise

structure Slot where
  name : String
  type : Ty
  value : Value
  released : Bool
  deriving DecidableEq

/-- Fields are numbered in order of declaration. -/
structure Object where
  type : Path
  fields : Array Value
  deriving DecidableEq

structure Store where
  slots : Array Slot
  heap : Array Object
  deriving DecidableEq

namespace Store

def empty : Store := ⟨#[], #[]⟩

def addSlot (s : Store) (name : String) (type : Ty) (value : Value) : Nat × Store :=
  (s.slots.size, { s with slots := s.slots.push ⟨name, type, value, false⟩ })

def readSlot (s : Store) (i : Nat) : Value :=
  match s.slots[i]? with
  | some slot => slot.value
  | none => .null

def writeSlot (s : Store) (i : Nat) (v : Value) : Store :=
  { s with slots := s.slots.modify i fun slot => { slot with value := v } }

def isReleased (s : Store) (i : Nat) : Bool :=
  match s.slots[i]? with
  | some slot => slot.released
  | none => false

def release (s : Store) (i : Nat) : Store :=
  { s with slots := s.slots.modify i fun slot => { slot with value := .null, released := true } }

/-- A new object at the end of the heap. -/
def addObject (s : Store) (type : Path) (fields : Array Value) : Nat × Store :=
  (s.heap.size, { s with heap := s.heap.push ⟨type, fields⟩ })

def readField (s : Store) (id index : Nat) : Value :=
  match s.heap[id]? with
  | some o => (o.fields[index]?).getD .null
  | none => .null

def writeField (s : Store) (id index : Nat) (v : Value) : Store :=
  { s with heap := s.heap.modify id fun o => { o with fields := o.fields.modify index fun _ => v } }

end Store

end Chunkwise
