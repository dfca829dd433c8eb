import Chunkwise.Session.Evaluator
import Chunkwise.Text.Blank

/-!
Lines are gathered until they make a complete chunk. While nothing is gathered, a line that starts
with `#` is a command to the shell.
-/
namespace Chunkwise

structure Repl where
  evaluator : Evaluator
  /-- The lines gathered so far, each with its newline. -/
  pending : String

/-- What a line or a chunk led to. -/
inductive Step where
  /-- More lines are needed. -/
  | more
  /-- The chunk ran; a value is shown if there is one. -/
  | value (display : Option String)
  | listing (lines : List String)
  | failed (error : EvalError)
  | quit

/-- An answer, the shell afterwards, the output of the program and the text of diagnostics. -/
structure Fed (α : Type) where
  answer : α
  repl : Repl
  out : String
  messages : String

/-- A chunk that had to be complete and is not. -/
structure Incomplete where
  chunk : String
  deriving DecidableEq, Repr

def Incomplete.message (i : Incomplete) : String := s!"incomplete input: {i.chunk}"

namespace Repl

def ofSettings (settings : Settings) : Repl := ⟨.ofSettings settings, ""⟩

def prompt (r : Repl) : String := if r.pending.isEmpty then "> " else "... "

def helpLines : List String :=
  ["#vars    list persistent variables",
    "#usings  list active using-directives",
    "#types   list declared types",
    "#quit    leave the shell"]

def variableLine (v : VariableInfo) : String := s!"{v.typeName} {v.name} = {v.display}"

/-- Carries out a command. None of them changes the session. -/
def command (r : Repl) : String → Step
  | "vars" => .listing (r.evaluator.declaredVariables.map variableLine)
  | "usings" => .listing r.evaluator.activeUsings
  | "types" => .listing r.evaluator.declaredTypes
  | "quit" | "exit" => .quit
  | "help" => .listing helpLines
  | other => .listing [s!"unknown command '#{other}', try #help"]

def command? (line : String) : Option String :=
  match (Text.trim line).toList with
  | '#' :: rest => some (Text.trim (String.ofList rest))
  | _ => none

/-- The value of a completed evaluation as it is shown. -/
def shown (e : Evaluator) (value : Option Value) : Step :=
  .value (value.map e.session.image.display)

/-- Evaluates the lines gathered. They are kept only if more are needed. -/
def submit (r : Repl) : Fed Step :=
  let reply := r.evaluator.evaluate r.pending
  let (step, pending) := match reply.result with
    | .ok .incomplete => (Step.more, r.pending)
    | .ok (.completed value) => (shown reply.evaluator value, "")
    | .error err => (.failed err, "")
  ⟨step, ⟨reply.evaluator, pending⟩, reply.out, reply.messages⟩

/-- Adds a line to those gathered and evaluates them. -/
def gather (r : Repl) (line : String) : Fed Step :=
  submit { r with pending := r.pending ++ line ++ "\n" }

def feedLine (r : Repl) (line : String) : Fed Step :=
  if r.pending.isEmpty then
    match command? line with
    | some name => ⟨r.command name, r, "", ""⟩
    | none => r.gather line
  else r.gather line

/-- Evaluates a chunk on its own and forgets the lines gathered. -/
def feedChunk (r : Repl) (chunk : String) : Fed (Except Incomplete Step) :=
  let reply := r.evaluator.evaluate chunk
  let step := match reply.result with
    | .ok .incomplete => .error ⟨chunk⟩
    | .ok (.completed value) => .ok (shown reply.evaluator value)
    | .error err => .ok (.failed err)
  ⟨step, ⟨reply.evaluator, ""⟩, reply.out, reply.messages⟩

/-- Hands out the lines gathered, unless they are blank, and forgets them. -/
def takePending (r : Repl) : Option String × Repl :=
  (if Text.allBlank r.pending then none else some r.pending, { r with pending := "" })

end Repl

end Chunkwise
