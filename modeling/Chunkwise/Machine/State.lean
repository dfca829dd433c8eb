import Chunkwise.Image.Display
import Chunkwise.Program.Store

namespace Chunkwise

structure ObjectRef where
  type : Path
  id : Nat
  deriving DecidableEq, Repr

def ObjectRef.value (o : ObjectRef) : Value := .object o.type o.id

structure Frame where
  locals : Array Value
  thisObject : Option ObjectRef
  /-- The value that a capturing statement recorded. -/
  result : Option Value
  deriving DecidableEq

def Frame.ofSize (size : Nat) (thisObject : Option ObjectRef) : Frame :=
  ⟨Array.replicate size .null, thisObject, none⟩

/-- What a run depends on and does not change. -/
structure Env where
  image : Image
  maxDepth : Nat
  /-- The number of polls before the run reads as cancelled; none if it never does. -/
  cancelAfter : Option Nat

structure RunState where
  store : Store
  out : String
  frame : Frame
  depth : Nat
  polls : Nat
  deriving DecidableEq

/-- A fault of the program that runs. -/
inductive Fault where
  | nullReference
  | divideByZero
  | stackOverflow (limit : Nat)
  | thrown (value : Value)
  deriving DecidableEq

def Fault.text (im : Image) : Fault → String
  | nullReference => "object reference not set to an instance of an object"
  | divideByZero => "attempted to divide by zero"
  | stackOverflow limit => s!"call depth exceeded {limit}"
  | thrown v => s!"unhandled exception: {im.display v}"

/-- What code met that it was not bound for. -/
inductive Defect where
  | notIntegers
  | notNumbers
  | notNegatable (type : String)
  | notSteppable (type : String)
  | noLength (type : String)
  | notAnObject (type : String)
  | unknownMethod
  | unknownType
  /-- An object was called through an interface member that its type lacks. -/
  | notImplemented (type : Path) (member : String)
  | noBody (method : String)
  | busy
  deriving DecidableEq, Repr

def Defect.text : Defect → String
  | notIntegers => "integer operands expected"
  | notNumbers => "numeric operands expected"
  | notNegatable type => s!"cannot negate {type}"
  | notSteppable type => s!"cannot step {type}"
  | noLength type => s!"no Length on {type}"
  | notAnObject type => s!"{type} is not an object"
  | unknownMethod => "unknown method"
  | unknownType => "unknown type"
  | notImplemented type member => s!"{Path.text type} does not implement {member}"
  | noBody method => s!"{method} has no body"
  | busy => "executor busy"

/-- Why a run ends before its code does. -/
inductive Stop where
  | fault (fault : Fault)
  | interrupted
  | internal (defect : Defect)
  /-- The bound on the rounds of loops was reached. -/
  | unfinished
  deriving DecidableEq

/-- Runs keep the state reached when they stop. -/
def Run (α : Type) : Type := RunState → Except Stop α × RunState

namespace Run

variable {α β : Type}

@[always_inline, inline]
protected def pure (a : α) : Run α := fun s => (.ok a, s)

@[always_inline, inline]
protected def bind (p : Run α) (f : α → Run β) : Run β := fun s =>
  match p s with
  | (.ok a, s') => f a s'
  | (.error e, s') => (.error e, s')

@[always_inline]
instance : Monad Run where
  pure := Run.pure
  bind := Run.bind

@[always_inline, inline]
def stop (e : Stop) : Run α := fun s => (.error e, s)

def fault (f : Fault) : Run α := stop (.fault f)

def internal (d : Defect) : Run α := stop (.internal d)

@[always_inline, inline]
def ofExcept (r : Except Stop α) : Run α := fun s => (r, s)

@[always_inline, inline]
def gets (f : RunState → α) : Run α := fun s => (.ok (f s), s)

@[always_inline, inline]
def modify (f : RunState → RunState) : Run Unit := fun s => (.ok (), f s)

/-- Reads the cancel flag and stops if it is set. -/
def poll (env : Env) : Run Unit := fun s =>
  let s' := { s with polls := s.polls + 1 }
  match env.cancelAfter with
  | some k => if k ≤ s.polls then (.error .interrupted, s') else (.ok (), s')
  | none => (.ok (), s')

def print (text : String) : Run Unit := modify fun s => { s with out := s.out ++ text }

/-- Runs `p` in a frame of its own. -/
@[inline]
def inFrame (frame : Frame) (p : Run α) : Run α := fun s =>
  let caller := s.frame
  let (r, s') := p { s with frame }
  (r, { s' with frame := caller })

/-- Runs `p` one call deeper, unless that is too deep. -/
@[inline]
def deeper (env : Env) (p : Run α) : Run α := do
  poll env
  fun s =>
    if env.maxDepth ≤ s.depth then (.error (.fault (.stackOverflow env.maxDepth)), s)
    else
      let (r, s') := p { s with depth := s.depth + 1 }
      (r, { s' with depth := s'.depth - 1 })

end Run

end Chunkwise
