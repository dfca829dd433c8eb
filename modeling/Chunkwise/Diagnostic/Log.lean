import Chunkwise.Diagnostic.Basic

/-!
A log keeps the first twenty entries pushed into it and counts all of them. `Diagnostics` is
the log of errors of one compile attempt together with its warnings.
-/
namespace Chunkwise

/-- The number of errors kept per attempt. -/
def maxErrors : Nat := 20

structure Log (α : Type) where
  stored : List α
  total : Nat
  deriving DecidableEq, Repr

namespace Log

variable {α β : Type}

def empty : Log α := ⟨[], 0⟩

/-- Every entry is counted; it is kept while there is room. -/
def push (l : Log α) (a : α) : Log α :=
  ⟨if l.stored.length < maxErrors then l.stored ++ [a] else l.stored, l.total + 1⟩

def pushAll (l : Log α) (as : List α) : Log α := as.foldl push l

/-- Entries that were counted but not kept. -/
def dropped (l : Log α) : Nat := l.total - l.stored.length

/-- Pushes what `m` kept and counts what it dropped. -/
def append (l m : Log α) : Log α :=
  let pushed := l.pushAll m.stored
  { pushed with total := pushed.total + m.dropped }

def hasAny (l : Log α) : Bool := l.total > 0

def isFull (l : Log α) : Bool := l.total ≥ maxErrors

def map (f : α → β) (l : Log α) : Log β := ⟨l.stored.map f, l.total⟩

end Log

/-- What one compile attempt has to say. -/
structure Diagnostics where
  errors : Log Diagnostic
  warnings : List Diagnostic
  deriving DecidableEq, Repr

namespace Diagnostics

def empty : Diagnostics := ⟨Log.empty, []⟩

def ofIssues (src : Source) (issues : Log Issue) : Diagnostics :=
  ⟨issues.map (Issue.diagnose src), []⟩

def pushError (ds : Diagnostics) (d : Diagnostic) : Diagnostics :=
  { ds with errors := ds.errors.push d }

def pushWarning (ds : Diagnostics) (d : Diagnostic) : Diagnostics :=
  { ds with warnings := ds.warnings ++ [d] }

/-- Appends every diagnostic of `other` in order. -/
def extend (ds other : Diagnostics) : Diagnostics :=
  ⟨ds.errors.append other.errors, ds.warnings ++ other.warnings⟩

def totalErrors (ds : Diagnostics) : Nat := ds.errors.total

def totalWarnings (ds : Diagnostics) : Nat := ds.warnings.length

def hasErrors (ds : Diagnostics) : Bool := ds.errors.hasAny

def first? (ds : Diagnostics) : Option Diagnostic := ds.errors.stored.head?

/-- Only the first error decides whether the text is merely incomplete: later ones are mostly
fallout of the recovery from it. -/
def isPartialInput (ds : Diagnostics) : Bool :=
  match ds.first? with
  | some d => d.isUnexpectedEnd
  | none => false

def contains (ds : Diagnostics) (code : Nat) : Bool :=
  ds.errors.stored.any fun d => d.code == code

def render (ds : Diagnostics) : String :=
  "\n".intercalate (ds.errors.stored.map Diagnostic.render)

/-- Earlier start positions come first. -/
def startsBefore (a b : Diagnostic) : Bool :=
  Span.posLE a.span.startLine a.span.startCol b.span.startLine b.span.startCol

/-- The two logs as one, by start position; at one position the entries of `first` lead. -/
def mergeInSourceOrder (first second : Diagnostics) : Diagnostics :=
  let all := (first.errors.stored ++ second.errors.stored).mergeSort startsBefore
  let pushed := Log.empty.pushAll all
  let missing := first.errors.total + second.errors.total - all.length
  ⟨{ pushed with total := pushed.total + missing }, first.warnings ++ second.warnings⟩

end Diagnostics

end Chunkwise
