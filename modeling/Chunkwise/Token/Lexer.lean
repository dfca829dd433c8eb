import Chunkwise.Token.Lexeme
import Chunkwise.Diagnostic.Log

namespace Chunkwise

/-- A position in the text, both numbers from one. The counters have 32 bits and start again at zero
when they overflow. -/
structure Position where
  line : UInt32
  col : UInt32
  deriving DecidableEq, Repr

namespace Position

/-- The position after passing `c`. -/
def next (p : Position) (c : Char) : Position :=
  if c = '\n' then ⟨p.line + 1, 1⟩ else ⟨p.line, p.col + 1⟩

/-- The position `n` characters further on the same line. -/
def forward (p : Position) (n : Nat) : Position := ⟨p.line, p.col + n⟩

def point (p : Position) : Span := Span.point p.line p.col

/-- From `p` up to, not including, `q`; the column before `q` is at least one. -/
def spanTo (p q : Position) : Span := ⟨p.line, p.col, q.line, if q.col ≤ 1 then 1 else q.col - 1⟩

end Position

def isBlank (c : Char) : Bool := c == ' ' || c == '\t' || c == '\r' || c == '\n'

/-- What the text between two tokens is inside of. -/
inductive Gap where
  | blank
  | line
  | block (start : Position)
  deriving DecidableEq, Repr

/-- How the text between two tokens ends. -/
inductive GapEnd where
  | before (rest : List Char) (pos : Position)
  | openComment (start pos : Position)
  deriving DecidableEq, Repr

/-- Passes blanks, comments to the end of a line, and closed block comments. -/
def skipGap : Gap → Position → List Char → GapEnd
  | .blank, p, [] => .before [] p
  | .blank, p, '/' :: '/' :: rest => skipGap .line (p.forward 2) rest
  | .blank, p, '/' :: '*' :: rest => skipGap (.block p) (p.forward 2) rest
  | .blank, p, c :: rest =>
    if isBlank c then skipGap .blank (p.next c) rest else .before (c :: rest) p
  | .line, p, [] => .before [] p
  | .line, p, c :: rest => skipGap (if c = '\n' then .blank else .line) (p.next c) rest
  | .block start, p, [] => .openComment start p
  | .block _, p, '*' :: '/' :: rest => skipGap .blank (p.forward 2) rest
  | .block start, p, c :: rest => skipGap (.block start) (p.next c) rest

structure Lexer where
  rest : List Char
  pos : Position
  issues : Log Issue
  deriving DecidableEq, Repr

namespace Lexer

def ofText (text : String) : Lexer := ⟨text.toList, ⟨1, 1⟩, Log.empty⟩

/-- Where a flaw of a lexeme at `p` stands. -/
def locate (p : Position) (f : Flaw) : Issue :=
  let start := p.forward f.offset
  ⟨f.problem, start.spanTo (start.forward f.width)⟩

/-- The next token. At the end of the text, after an open comment or once the error limit is
reached it is the end of input, and stays so. -/
def next (l : Lexer) : Token × Lexer :=
  match skipGap .blank l.pos l.rest with
  | .openComment start pos =>
    (⟨.endOfInput, pos.point⟩, ⟨[], pos, l.issues.push ⟨.openComment, start.spanTo pos⟩⟩)
  | .before rest pos =>
    if l.issues.isFull then (⟨.endOfInput, pos.point⟩, ⟨rest, pos, l.issues⟩)
    else match rest with
      | [] => (⟨.endOfInput, pos.point⟩, ⟨[], pos, l.issues⟩)
      | c :: tail =>
        let lexeme := Lexeme.scan c tail
        let stop := pos.forward lexeme.width
        (⟨lexeme.kind, pos.spanTo stop⟩,
          ⟨rest.drop lexeme.width, stop, l.issues.pushAll (lexeme.flaws.map (locate pos))⟩)

/-- At most `limit` tokens, and the end of input last. -/
def tokens : Nat → Lexer → List Token × Lexer
  | 0, l => ([⟨.endOfInput, l.pos.point⟩], l)
  | limit + 1, l =>
    let (token, l') := l.next
    if token.kind = .endOfInput then ([token], l')
    else
      let (rest, last) := tokens limit l'
      (token :: rest, last)

end Lexer

/-- The tokens of a whole text and what is wrong with them. -/
structure Lexed where
  tokens : List Token
  issues : Log Issue

/-- A token takes at least one character, which bounds their number. -/
def lex (text : String) : Lexed :=
  let (tokens, l) := Lexer.tokens (text.length + 1) (Lexer.ofText text)
  ⟨tokens, l.issues⟩

end Chunkwise
