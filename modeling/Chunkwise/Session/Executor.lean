/-!
Runs are serialized by a lock, and each run has a fresh token of its own. An interrupt cancels the
token that is current at that moment. `System` describes any number of callers whose steps
interleave.
-/
namespace Chunkwise

abbrev RunToken := Nat

structure Executor where
  /-- The caller that holds the run lock. -/
  holder : Option Nat
  /-- The token of the run in flight. -/
  current : Option RunToken
  inFlight : Bool
  cancelled : List RunToken
  /-- The tokens given out so far are those below this number. -/
  issued : Nat
  deriving DecidableEq, Repr

namespace Executor

def idle : Executor := ⟨none, none, false, [], 0⟩

/-- Takes the run lock if it is free. -/
def acquire (e : Executor) (caller : Nat) : Option Executor :=
  if e.holder.isSome then none else some { e with holder := some caller }

/-- Makes a fresh token the current one. -/
def install (e : Executor) : RunToken × Executor :=
  (e.issued, { e with current := some e.issued, issued := e.issued + 1 })

def takeOff (e : Executor) : Executor := { e with inFlight := true }

def land (e : Executor) : Executor := { e with inFlight := false }

def clear (e : Executor) : Executor := { e with current := none }

def release (e : Executor) : Executor := { e with holder := none }

/-- Cancels the current token; the answer tells whether there was one. -/
def interrupt (e : Executor) : Bool × Executor :=
  match e.current with
  | some token => (true, { e with cancelled := token :: e.cancelled })
  | none => (false, e)

def isExecuting (e : Executor) : Bool := e.inFlight

def isCancelled (e : Executor) (token : RunToken) : Bool := e.cancelled.contains token

/-- The steps of one caller up to the run itself. -/
def start (e : Executor) (caller : Nat) : Option (RunToken × Executor) :=
  (e.acquire caller).map fun e =>
    let (token, e) := e.install
    (token, e.takeOff)

/-- The steps of one caller after the run. -/
def finish (e : Executor) : Executor := e.land.clear.release

end Executor

/-- How far a caller is with one execution. -/
inductive Phase where
  | outside
  | locked
  | installed (token : RunToken)
  | running (token : RunToken)
  | landed (token : RunToken)
  | cleared (token : RunToken)
  deriving DecidableEq, Repr

/-- An executor and all its callers. -/
structure System where
  executor : Executor
  phase : Nat → Phase

namespace System

def initial : System := ⟨.idle, fun _ => .outside⟩

def move (s : System) (caller : Nat) (e : Executor) (p : Phase) : System :=
  ⟨e, fun c => if c = caller then p else s.phase c⟩

/-- The next atomic step of a caller; none while it has to wait for the lock. -/
def step (s : System) (caller : Nat) : Option System :=
  match s.phase caller with
  | .outside => (s.executor.acquire caller).map fun e => s.move caller e .locked
  | .locked =>
    let (token, e) := s.executor.install
    some (s.move caller e (.installed token))
  | .installed token => some (s.move caller s.executor.takeOff (.running token))
  | .running token => some (s.move caller s.executor.land (.landed token))
  | .landed token => some (s.move caller s.executor.clear (.cleared token))
  | .cleared _ => some (s.move caller s.executor.release .outside)

def interrupt (s : System) : Bool × System :=
  let (hit, e) := s.executor.interrupt
  (hit, { s with executor := e })

end System

end Chunkwise
