import Chunkwise.Source.Text
import Chunkwise.Diagnostic.Problem

namespace Chunkwise

inductive Severity where
  | error
  | warning
  deriving DecidableEq, Repr

def Severity.text : Severity → String
  | .error => "error"
  | .warning => "warning"

inductive Category where
  | reading
  | resolution
  | typing
  | structural
  deriving DecidableEq, Repr

def Category.text : Category → String
  | .reading => "syntax"
  | .resolution => "resolution"
  | .typing => "type"
  | .structural => "structure"

/-- The category is read off the hundred of the number; any other number counts as reading. -/
def Category.ofCode (code : Nat) : Category :=
  match code / 100 with
  | 2 => .resolution
  | 3 => .typing
  | 4 => .structural
  | _ => .reading

/-- The number that marks a text which merely stops too early. -/
def endOfInputCode : Nat := 101

structure Diagnostic where
  file : String
  code : Nat
  severity : Severity
  category : Category
  message : String
  span : Span
  sourceLine : String
  suggestion : Option String
  deriving DecidableEq, Repr

namespace Diagnostic

/-- An error, with its category taken from its number. -/
def error (file : String) (code : Nat) (message : String) (span : Span) (sourceLine : String) :
    Diagnostic :=
  ⟨file, code, .error, Category.ofCode code, message, span, sourceLine, none⟩

def isUnexpectedEnd (d : Diagnostic) : Bool := d.code == endOfInputCode

/-- The one-line form of a message sink. -/
def render (d : Diagnostic) : String :=
  s!"{d.file}({d.span.startLine},{d.span.startCol}): {d.severity.text} E{d.code}: {d.message}"

/-- The short form without a file name. -/
def brief (d : Diagnostic) : String :=
  s!"{d.span.start}: E{d.code} [{d.category.text}] {d.message}"

end Diagnostic

/-- A problem and where it was found. -/
structure Issue where
  problem : Problem
  span : Span
  deriving DecidableEq, Repr

/-- Cites the file and the line the issue points into. -/
def Issue.diagnose (src : Source) (i : Issue) : Diagnostic :=
  Diagnostic.error src.name i.problem.code i.problem.message i.span (src.snippet i.span)

end Chunkwise
