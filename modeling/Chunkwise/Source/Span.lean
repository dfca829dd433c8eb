/-!
A span is a region of one chunk of text, with 1-based lines and columns. Columns count
characters, and the end column is inclusive.
-/
namespace Chunkwise

/-- Lines and columns are numbers of 32 bits, so what is counted beyond them is kept modulo their
range. -/
scoped instance instCoeNatUInt32 : Coe Nat UInt32 := ⟨UInt32.ofNat⟩

structure Span where
  startLine : UInt32
  startCol : UInt32
  endLine : UInt32
  endCol : UInt32
  deriving DecidableEq, Repr, Inhabited

namespace Span

/-- A region of one character position, used for the end of input. -/
def point (line col : UInt32) : Span := ⟨line, col, line, col⟩

/-- Positions are ordered by line, then by column. -/
def posLE (line col line' col' : UInt32) : Bool :=
  line < line' || (line == line' && col ≤ col')

/-- The least span that covers both. -/
def merge (a b : Span) : Span :=
  let start := if posLE a.startLine a.startCol b.startLine b.startCol
    then (a.startLine, a.startCol) else (b.startLine, b.startCol)
  let stop := if posLE a.endLine a.endCol b.endLine b.endCol
    then (b.endLine, b.endCol) else (a.endLine, a.endCol)
  ⟨start.1, start.2, stop.1, stop.2⟩

/-- The start position, the way messages cite a span. -/
def start (s : Span) : String := s!"{s.startLine}:{s.startCol}"

def range (s : Span) : String :=
  s!"{s.startLine}:{s.startCol}-{s.endLine}:{s.endCol}"

end Span

end Chunkwise
