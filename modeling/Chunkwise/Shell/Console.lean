import Chunkwise.Shell.Options
import Chunkwise.Shell.Repl

/-!
What the shell writes to its two streams and the code it exits with. Given chunks are evaluated up
to the first failure; otherwise lines are read until the input ends or a command leaves the shell.
-/
namespace Chunkwise

/-- Text for standard output and for standard error. -/
structure Screen where
  out : String
  err : String
  deriving DecidableEq, Repr

namespace Screen

def empty : Screen := ⟨"", ""⟩

def append (s t : Screen) : Screen := ⟨s.out ++ t.out, s.err ++ t.err⟩

instance : Append Screen := ⟨append⟩

end Screen

/-- All that a finished shell leaves behind. -/
structure Exit where
  code : UInt32
  screen : Screen
  deriving DecidableEq, Repr

namespace Console

def helpText : String :=
  "Interactive Cinder evaluator\n\n" ++
  "Usage: cinder [OPTIONS]\n\n" ++
  "Options:\n" ++
  "  -c, --config <FILE>  JSON settings file\n" ++
  "  -e, --eval <CHUNK>   Evaluate a chunk and exit; may be repeated\n" ++
  "  -q, --quiet          Do not print prompts\n" ++
  "  -h, --help           Print help\n"

/-- The exit of a shell that was called in a wrong way. -/
def usageExit (e : UsageError) : Exit :=
  ⟨2, "", s!"error: {e.message}\n\nUsage: cinder [OPTIONS]\n\n" ++
    "For more information, try '--help'.\n"⟩

def failure (message : String) : Exit := ⟨1, "", s!"Error: {message}\n"⟩

/-- The exit of a shell whose settings file is unusable, with the causes from the outside in. -/
def settingsFailure (path : String) (causes : List String) : Exit :=
  let lines := match causes with
    | [cause] => [s!"    {cause}\n"]
    | _ => causes.zipIdx.map fun (cause, i) => s!"    {i}: {cause}\n"
  failure (s!"loading settings from {path}\n\nCaused by:\n" ++
    ((String.join lines).dropEnd 1).toString)

/-- The report of an error. Diagnostics were written when they were found. -/
def report (e : Evaluator) (err : EvalError) : String :=
  match err with
  | .stopped _ => e.explain err ++ "\n"
  | _ => ""

def present (e : Evaluator) : Step → Screen
  | .value (some display) => ⟨display ++ "\n", ""⟩
  | .listing lines => ⟨String.join (lines.map (· ++ "\n")), ""⟩
  | .failed err => ⟨"", report e err⟩
  | .more | .value none | .quit => .empty

def promptText (quiet : Bool) (r : Repl) : String := if quiet then "" else r.prompt

/-- Takes a line; the shell goes on unless the line leaves it. -/
def takeLine (r : Repl) (line : String) : Screen × Option Repl :=
  let fed := r.feedLine line
  (⟨fed.out, fed.messages⟩ ++ present fed.repl.evaluator fed.answer,
    match fed.answer with
    | .quit => none
    | _ => some fed.repl)

/-- What is written when the input ends. -/
def discard (r : Repl) : Screen :=
  match r.takePending.1 with
  | some rest => ⟨"", s!"discarding incomplete input:\n{Text.trimRight rest}\n"⟩
  | none => .empty

/-- Reads lines with a prompt before each, and one before the end is noticed. -/
def interactive (quiet : Bool) (r : Repl) : List String → Screen
  | [] => ⟨promptText quiet r, ""⟩ ++ discard r
  | line :: lines =>
    let (screen, next) := takeLine r line
    ⟨promptText quiet r, ""⟩ ++ screen ++
      match next with
      | some r => interactive quiet r lines
      | none => .empty

/-- Evaluates chunks up to the first that fails or is incomplete. -/
def batch (r : Repl) : List String → Exit
  | [] => ⟨0, .empty⟩
  | chunk :: chunks =>
    let fed := r.feedChunk chunk
    let screen : Screen := ⟨fed.out, fed.messages⟩
    match fed.answer with
    | .error i =>
      let exit := failure i.message
      { exit with screen := screen ++ exit.screen }
    | .ok (.failed err) =>
      let exit := failure "evaluation failed"
      { exit with screen := screen ++ present fed.repl.evaluator (.failed err) ++ exit.screen }
    | .ok step =>
      let exit := batch fed.repl chunks
      { exit with screen := screen ++ present fed.repl.evaluator step ++ exit.screen }

/-- A line without its newline and the carriage return before it. -/
def lineText (line : List Char) : String := String.ofList (Source.dropReturn line)

/-- The lines of an input. A last line needs no newline; without one it keeps a carriage return. -/
def inputLines (text : String) : List String :=
  let lines := Source.splitLines text.toList
  lines.dropLast.map lineText ++
    match lines.getLast? with
    | some (c :: cs) => [String.ofList (c :: cs)]
    | _ => []

/-- Runs the shell on a whole input. -/
def run (options : Options) (settings : Settings) (input : String) : Exit :=
  let r := Repl.ofSettings settings
  if options.chunks.isEmpty then ⟨0, interactive options.quiet r (inputLines input)⟩
  else batch r options.chunks

end Console

end Chunkwise
