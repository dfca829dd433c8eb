import Chunkwise.Attempt
import Chunkwise.Token.Lexer
import Chunkwise.Syntax.Expr

/-!
The state of a parse: the current token, the tokens after it, the span of the token before it
and the issues found so far. The last token is the end of input and is never passed.
-/
namespace Chunkwise

structure Cursor where
  current : Token
  later : List Token
  prior : Option Span
  issues : Log Issue

namespace Cursor

/-- Starts on the first token; a list that lacks the end of input gets one. -/
def ofTokens (tokens : List Token) : Cursor :=
  let closed := match tokens.getLast? with
    | some t => if t.kind = .endOfInput then tokens else tokens ++ [⟨.endOfInput, t.span⟩]
    | none => [⟨.endOfInput, Span.point 1 1⟩]
  match closed with
  | t :: rest => ⟨t, rest, none, Log.empty⟩
  | [] => ⟨⟨.endOfInput, Span.point 1 1⟩, [], none, Log.empty⟩

/-- Moves to the next token; on the last one it stays. -/
def advance (c : Cursor) : Cursor :=
  match c.later with
  | [] => c
  | t :: rest => { c with current := t, later := rest, prior := some c.current.span }

/-- The span of the token passed last, or of the current one at the start. -/
def previousSpan (c : Cursor) : Span := c.prior.getD c.current.span

def atEnd (c : Cursor) : Bool := c.current.kind == .endOfInput

/-- The kind of the token `n` places ahead. -/
def ahead (c : Cursor) : Nat → TokenKind
  | 0 => c.current.kind
  | n + 1 => match c.later[n]? with
    | some t => t.kind
    | none => .endOfInput

def report (c : Cursor) (p : Problem) (span : Span) : Cursor :=
  { c with issues := c.issues.push ⟨p, span⟩ }

/-- The tokens that are left, the current one included. -/
def remaining (c : Cursor) : Nat := c.later.length + 1

end Cursor

/-- Parsers keep their issues when they give up. -/
abbrev Parser := Attempt Cursor

namespace Parser

def kind : Parser TokenKind := Attempt.gets fun c => c.current.kind

def currentSpan : Parser Span := Attempt.gets fun c => c.current.span

def previousSpan : Parser Span := Attempt.gets Cursor.previousSpan

def atEnd : Parser Bool := Attempt.gets Cursor.atEnd

def tooManyErrors : Parser Bool := Attempt.gets fun c => c.issues.isFull

def advance : Parser Unit := Attempt.modify Cursor.advance

/-- From `start` to the end of the token passed last. -/
def spanFrom (start : Span) : Parser Span := do return start.merge (← previousSpan)

def reportHere (p : Problem) : Parser Unit := Attempt.modify fun c => c.report p c.current.span

/-- Says what was expected here. At the end of input the text is incomplete rather than wrong,
and an unknown character has been reported by the lexer. -/
def reportUnexpected (expected : String) : Parser Unit := do
  match ← kind with
  | .endOfInput => reportHere (.unexpectedEnd expected)
  | .unknown _ => pure ()
  | other => reportHere (.unexpectedToken other.text expected)

/-- Gives up after saying what was expected. -/
def expected {α : Type} (what : String) : Parser α := do
  reportUnexpected what
  Attempt.fail

def check (k : TokenKind) : Parser Bool := Attempt.gets fun c => c.current.kind == k

def checkSymbol (s : Symbol) : Parser Bool := check (.symbol s)

def checkKeyword (k : Keyword) : Parser Bool := check (.keyword k)

/-- Passes the token if it is of kind `k`. -/
def eat (k : TokenKind) : Parser Bool := do
  if ← check k then
    advance
    return true
  else return false

def eatSymbol (s : Symbol) : Parser Bool := eat (.symbol s)

def expect (k : TokenKind) : Parser Unit := do
  if ← check k then advance
  else expected s!"'{k.text}'"

def expectSymbol (s : Symbol) : Parser Unit := expect (.symbol s)

def expectKeyword (k : Keyword) : Parser Unit := expect (.keyword k)

def identifier : Parser Ident := do
  match ← kind with
  | .ident name =>
    let span ← currentSpan
    advance
    return ⟨name, span⟩
  | _ => expected "identifier"

/-- Repeats a step that passes a token each time it goes on, so the tokens that are left bound
the repetition. -/
def repeatFrom {α β : Type} (step : β → Parser (β ⊕ α)) (b : β) : Parser α := fun c =>
  Attempt.loop step c.remaining b c

/-- The words at which a parse may resume. -/
def startsAnew : TokenKind → Bool
  | .keyword .ifKw | .keyword .whileKw | .keyword .doKw | .keyword .forKw
  | .keyword .returnKw | .keyword .throwKw | .keyword .breakKw | .keyword .continueKw
  | .keyword .classKw | .keyword .structKw | .keyword .interfaceKw | .keyword .enumKw
  | .keyword .namespaceKw => true
  | _ => false

/-- Passes tokens up to the end of the statement, to an unmatched closing brace or to a word at
which to resume. `depth` counts open braces and `moved` tells whether a token was passed. -/
def synchronizeFrom : Nat → Nat → Bool → Cursor → Cursor
  | 0, _, _, c => c
  | limit + 1, depth, moved, c =>
    match c.current.kind with
    | .endOfInput => c
    | .symbol .openBrace => synchronizeFrom limit (depth + 1) true c.advance
    | .symbol .closeBrace =>
      if depth = 0 then c
      else
        let c' := c.advance
        if depth = 1 ∧ c'.current.kind = .symbol .semicolon then c'.advance
        else synchronizeFrom limit (depth - 1) true c'
    | .symbol .semicolon =>
      if depth = 0 then c.advance else synchronizeFrom limit depth true c.advance
    | k =>
      if startsAnew k ∧ depth = 0 ∧ moved then c
      else synchronizeFrom limit depth true c.advance

def synchronize : Parser Unit := Attempt.modify fun c => synchronizeFrom c.remaining 0 false c

end Parser

end Chunkwise
