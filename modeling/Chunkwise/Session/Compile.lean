import Chunkwise.Binder.Unit
import Chunkwise.Classify
import Chunkwise.Parser.Chunk
import Chunkwise.Session.Fingerprint

/-!
A chunk is compiled against a session as a whole or not at all. Binding declares straight into the
image; if it fails, the recorded additions are taken back, and nothing else of the session has been
touched.
-/
namespace Chunkwise

/-- What lasts from chunk to chunk. -/
structure Session where
  image : Image
  registry : Registry
  store : Store
  /-- The number of units compiled so far. -/
  units : Nat

def Session.new : Session := ⟨Builtin.image, .empty, Builtin.store, 0⟩

inductive UnitKind where
  | statements
  | declarations
  deriving DecidableEq, Repr

/-- Code that can be run any number of times. -/
structure CompiledUnit where
  name : String
  kind : UnitKind
  code : Code
  fingerprint : String

inductive ParseMode where
  /-- A text that stops too early is incomplete, and nothing is written. -/
  | silent
  /-- Every diagnostic is written. -/
  | reporting
  deriving DecidableEq, Repr

inductive CompileOutcome where
  | unit (unit : CompiledUnit)
  | incomplete
  | unreadable (diagnostics : Diagnostics)
  | unresolved (diagnostics : Diagnostics)

/-- The outcome of compiling, the session afterwards and the text written for the user. -/
structure Compiled where
  outcome : CompileOutcome
  session : Session
  messages : String

/-- The kept errors, each on a line of its own. -/
def Diagnostics.report (ds : Diagnostics) : String :=
  String.join (ds.errors.stored.map fun d => d.render ++ "\n")

namespace Session

/-- What is wrong with a chunk whose first token cannot start one. -/
def invalidStart (src : Source) : Diagnostics :=
  let (first, l) := (Lexer.ofText src.text).next
  let lexed := Diagnostics.ofIssues src l.issues
  if lexed.hasErrors then lexed
  else Diagnostics.empty.pushError (Issue.diagnose src ⟨.cannotStart first.kind.text, first.span⟩)

def refused (s : Session) (ds : Diagnostics) (mode : ParseMode) : Compiled :=
  ⟨.unreadable ds, s, if mode = .silent then "" else ds.report⟩

/-- Registers the variables that a chunk creates, in order. -/
def registerAll (newVariables : List PendingVariable) (r : Registry) (store : Store) :
    Registry × Store :=
  newVariables.foldl (fun (r, store) v => r.register store v.name ⟨v.slot, v.isReadonly⟩) (r, store)

/-- Makes the work of a successful binding part of the session. -/
def commit (s : Session) (b : BindState) : Session :=
  let (registry, store) := registerAll b.newVariables s.registry b.store
  ⟨b.image.commit b.usings b.declared, registry, store, s.units + 1⟩

/-- Takes back what a failed binding declared. -/
def rollback (s : Session) (b : BindState) : Session :=
  { s with image := b.image.undoAll b.undo }

/-- Binds a chunk and commits it, or takes it back. -/
def bind (s : Session) (src : Source) (kind : UnitKind) (binder : Bind Code) : Compiled :=
  match binder (BindState.start s.image s.registry s.store) with
  | (some code, b) =>
    if b.issues.hasAny then
      let ds := Diagnostics.ofIssues src b.issues
      ⟨.unresolved ds, s.rollback b, ds.report⟩
    else
      let after := s.commit b
      ⟨.unit ⟨s!"<unit{after.units}>", kind, code, Fingerprint.ofText src.text⟩, after, ""⟩
  | (none, b) =>
    let ds := Diagnostics.ofIssues src b.issues
    ⟨.unresolved ds, s.rollback b, ds.report⟩

/-- Binds what was read, if it was read without a problem. -/
def bindParsed {α : Type} (s : Session) (src : Source) (mode : ParseMode) (kind : UnitKind)
    (parsed : Parsed α) (binder : α → Bind Code) : Compiled :=
  if parsed.diagnostics.hasErrors then
    if mode = .silent ∧ parsed.isPartial then ⟨.incomplete, s, ""⟩
    else s.refused parsed.diagnostics mode
  else match parsed.unit with
    | some unit => s.bind src kind (binder unit)
    | none => ⟨.unreadable parsed.diagnostics, s, ""⟩

/-- Compiles a chunk of a known class. -/
def compile (s : Session) (src : Source) (chunkClass : ChunkClass) (mode : ParseMode) : Compiled :=
  match chunkClass with
  | .endOfInput => ⟨.incomplete, s, ""⟩
  | .invalid => s.refused (invalidStart src) mode
  | .statements => s.bindParsed src mode .statements (parseStatements src) Bind.statementUnit
  | .declarations =>
    s.bindParsed src mode .declarations (parseDeclarations src) Bind.declarationUnit

end Session

end Chunkwise
