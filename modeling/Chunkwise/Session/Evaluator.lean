import Chunkwise.Machine.Run
import Chunkwise.Session.Compile
import Chunkwise.Session.Executor
import Chunkwise.Session.Settings

/-!
Compiles chunks against one session and runs them. A chunk is read silently first, and once more
with messages if it is wrong rather than incomplete.
-/
namespace Chunkwise

structure Evaluator where
  settings : Settings
  session : Session
  executor : Executor

inductive EvalError where
  | unreadable (diagnostics : Diagnostics)
  | unresolved (diagnostics : Diagnostics)
  | stopped (stop : Stop)

/-- The text of an error; a fault speaks for itself. -/
def EvalError.message (im : Image) : EvalError → String
  | unreadable ds => s!"syntax error: {ds.render}"
  | unresolved ds => s!"compilation failed: {ds.render}"
  | stopped .interrupted => "execution interrupted"
  | stopped (.fault f) => f.text im
  | stopped (.internal defect) => s!"internal error: {defect.text}"
  | stopped .unfinished => "internal error: a loop did not finish"

inductive Compilation where
  | incomplete
  | unit (unit : CompiledUnit)

inductive Evaluation where
  | incomplete
  /-- The chunk ran; it may have no value. -/
  | completed (value : Option Value)

/-- A result, the evaluator afterwards, the output of the program and the text of diagnostics. -/
structure Reply (α : Type) where
  result : Except EvalError α
  evaluator : Evaluator
  out : String
  messages : String

/-- A variable as it is seen from outside. -/
structure VariableInfo where
  typeName : String
  name : String
  display : String
  deriving DecidableEq, Repr

/-- The bound on the rounds of one loop, which no run reaches in practice. -/
def roundLimit : Nat := 1152921504606846976

namespace Evaluator

/-- The directives for those of the names that are namespaces. -/
def defaultUsings (im : Image) (names : List String) : List Using :=
  names.filterMap fun name =>
    match im.lookup (.ofText name) with
    | some (.space path) => some ⟨none, .space path, name⟩
    | _ => none

def ofSettings (settings : Settings) : Evaluator :=
  let s := Session.new
  let image := s.image.commit (defaultUsings s.image settings.defaultUsings) []
  ⟨settings, { s with image }, .idle⟩

/-- Compiles a chunk and commits it without running it. -/
def compile (e : Evaluator) (text : String) : Reply Compilation :=
  let src : Source := ⟨e.settings.fileName, text⟩
  let chunkClass := classify text
  let first := e.session.compile src chunkClass .silent
  let last := match first.outcome with
    | .unreadable _ => first.session.compile src chunkClass .reporting
    | _ => first
  let result := match last.outcome with
    | .unit unit => .ok (.unit unit)
    | .incomplete => .ok .incomplete
    | .unreadable ds => .error (.unreadable ds)
    | .unresolved ds => .error (.unresolved ds)
  ⟨result, { e with session := last.session }, "", last.messages⟩

/-- Runs a unit whose token is cancelled from the start or never. -/
def runWith (e : Evaluator) (unit : CompiledUnit) (cancelled : Bool) : Reply (Option Value) :=
  let env : Env := ⟨e.session.image, e.settings.maxCallDepth, if cancelled then some 0 else none⟩
  let outcome := Machine.run env roundLimit e.session.store unit.code
  let result := match outcome.result with
    | .ok value => .ok value
    | .error stop => .error (.stopped stop)
  ⟨result, { e with session := { e.session with store := outcome.store } }, outcome.out, ""⟩

/-- Runs a unit; `meanwhile` acts on the executor once the run is in flight. -/
def runDuring {α : Type} (e : Evaluator) (unit : CompiledUnit)
    (meanwhile : Executor → α × Executor) : Option α × Reply (Option Value) :=
  match e.executor.start 0 with
  | some (token, executor) =>
    let (a, executor) := meanwhile executor
    let reply := e.runWith unit (executor.isCancelled token)
    (some a, { reply with evaluator := { reply.evaluator with executor := executor.finish } })
  | none => (none, ⟨.error (.stopped (.internal .busy)), e, "", ""⟩)

def run (e : Evaluator) (unit : CompiledUnit) : Reply (Option Value) :=
  (e.runDuring unit fun executor => ((), executor)).2

/-- Runs a unit and interrupts it while it runs; also the answer of the interrupt. -/
def runInterrupted (e : Evaluator) (unit : CompiledUnit) : Bool × Reply (Option Value) :=
  let (hit, reply) := e.runDuring unit Executor.interrupt
  (hit.getD false, reply)

/-- Compiles a chunk and hands the unit to `run`. -/
def evaluateWith (e : Evaluator) (text : String)
    (run : Evaluator → CompiledUnit → Reply (Option Value)) : Reply Evaluation :=
  let compiled := e.compile text
  match compiled.result with
  | .error err => ⟨.error err, compiled.evaluator, compiled.out, compiled.messages⟩
  | .ok .incomplete => ⟨.ok .incomplete, compiled.evaluator, compiled.out, compiled.messages⟩
  | .ok (.unit unit) =>
    let reply := run compiled.evaluator unit
    ⟨reply.result.map Evaluation.completed, reply.evaluator, compiled.out ++ reply.out,
      compiled.messages ++ reply.messages⟩

def evaluate (e : Evaluator) (text : String) : Reply Evaluation := e.evaluateWith text run

/-- Interrupts the run in flight, if there is one. -/
def interrupt (e : Evaluator) : Bool × Evaluator :=
  let (hit, executor) := e.executor.interrupt
  (hit, { e with executor })

def isExecuting (e : Evaluator) : Bool := e.executor.isExecuting

/-- The variables in order of first declaration. -/
def declaredVariables (e : Evaluator) : List VariableInfo :=
  e.session.registry.entries.map fun (name, v) =>
    match e.session.store.slots[v.slot]? with
    | some slot => ⟨slot.type.text, name, e.session.image.display slot.value⟩
    | none => ⟨Ty.null.text, name, e.session.image.display .null⟩

def activeUsings (e : Evaluator) : List String := e.session.image.activeUsings

def declaredTypes (e : Evaluator) : List String := e.session.image.declaredTypes

/-- The text of an error in this session. -/
def explain (e : Evaluator) (err : EvalError) : String := err.message e.session.image

end Evaluator

end Chunkwise
