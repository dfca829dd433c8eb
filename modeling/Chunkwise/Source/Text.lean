import Chunkwise.Source.Span

namespace Chunkwise

structure Source where
  name : String
  text : String
  deriving DecidableEq, Repr, Inhabited

namespace Source

/-- Splits at every newline; a text without one is a single line. -/
def splitLines : List Char → List (List Char)
  | [] => [[]]
  | c :: rest =>
    if c = '\n' then [] :: splitLines rest
    else match splitLines rest with
      | [] => [[c]]
      | line :: lines => (c :: line) :: lines

/-- Drops one carriage return at the end of a line. -/
def dropReturn (line : List Char) : List Char :=
  if line.getLast? = some '\r' then line.dropLast else line

/-- The line with the given 1-based number, without its terminator. -/
def line? (s : Source) : Nat → Option String
  | 0 => none
  | n + 1 => ((splitLines s.text.toList)[n]?).map fun l => String.ofList (dropReturn l)

/-- The line a span starts on; empty when the span lies past the end of the text. -/
def snippet (s : Source) (span : Span) : String := (s.line? span.startLine.toNat).getD ""

end Source

end Chunkwise
