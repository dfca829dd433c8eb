import Chunkwise.Token.Basic
import Chunkwise.Diagnostic.Problem
import Chunkwise.Decimal.Read

/-!
The longest token at the head of a list of characters, without regard to where it stands. A
lexeme never reaches past a newline, so its place in the text is a line, a first column and a
width.
-/
namespace Chunkwise

/-- A problem inside a lexeme, `offset` characters after its first one. -/
structure Flaw where
  problem : Problem
  offset : Nat
  width : Nat
  deriving DecidableEq, Repr

structure Lexeme where
  kind : TokenKind
  width : Nat
  flaws : List Flaw
  deriving DecidableEq

namespace Lexeme

def isLetter (c : Char) : Bool := c.isAlpha || c == '_'

def isWordChar (c : Char) : Bool := c.isAlphanum || c == '_'

/-- The operator or punctuation mark at the head, longest first. -/
def symbol? : List Char → Option (Symbol × Nat)
  | '+' :: '+' :: _ => some (.plusPlus, 2)
  | '+' :: '=' :: _ => some (.plusAssign, 2)
  | '+' :: _ => some (.plus, 1)
  | '-' :: '-' :: _ => some (.minusMinus, 2)
  | '-' :: '=' :: _ => some (.minusAssign, 2)
  | '-' :: _ => some (.minus, 1)
  | '*' :: '=' :: _ => some (.starAssign, 2)
  | '*' :: _ => some (.star, 1)
  | '/' :: '=' :: _ => some (.slashAssign, 2)
  | '/' :: _ => some (.slash, 1)
  | '%' :: '=' :: _ => some (.percentAssign, 2)
  | '%' :: _ => some (.percent, 1)
  | '=' :: '=' :: _ => some (.equal, 2)
  | '=' :: _ => some (.assign, 1)
  | '!' :: '=' :: _ => some (.notEqual, 2)
  | '!' :: _ => some (.bang, 1)
  | '<' :: '=' :: _ => some (.lessEqual, 2)
  | '<' :: _ => some (.less, 1)
  | '>' :: '=' :: _ => some (.greaterEqual, 2)
  | '>' :: _ => some (.greater, 1)
  | '?' :: '?' :: _ => some (.coalesce, 2)
  | '?' :: _ => some (.question, 1)
  | '&' :: '&' :: _ => some (.both, 2)
  | '|' :: '|' :: _ => some (.either, 2)
  | '.' :: _ => some (.dot, 1)
  | ',' :: _ => some (.comma, 1)
  | ';' :: _ => some (.semicolon, 1)
  | ':' :: _ => some (.colon, 1)
  | '(' :: _ => some (.openParen, 1)
  | ')' :: _ => some (.closeParen, 1)
  | '{' :: _ => some (.openBrace, 1)
  | '}' :: _ => some (.closeBrace, 1)
  | '[' :: _ => some (.openBracket, 1)
  | ']' :: _ => some (.closeBracket, 1)
  | _ => none

/-- The inside of a string literal up to and including its closing quote. -/
structure StringBody where
  content : List Char
  width : Nat
  flaws : List Flaw
  deriving DecidableEq

def StringBody.cons (c : Char) (b : StringBody) : StringBody := { b with content := c :: b.content }

def StringBody.flawed (f : Flaw) (b : StringBody) : StringBody := { b with flaws := f :: b.flaws }

/-- The character that a backslash and `c` stand for. -/
def unescape? : Char → Option Char
  | '"' => some '"'
  | '\'' => some '\''
  | '\\' => some '\\'
  | 'n' => some '\n'
  | 't' => some '\t'
  | 'r' => some '\r'
  | '0' => some '\x00'
  | _ => none

/-- The first byte of the UTF-8 form of `c`, which is how a message cites an unknown escape. -/
def leadByte (c : Char) : Char :=
  let n := c.toNat
  if n < 0x80 then c
  else if n < 0x800 then Char.ofNat (0xC0 + n / 0x40)
  else if n < 0x10000 then Char.ofNat (0xE0 + n / 0x1000)
  else Char.ofNat (0xF0 + n / 0x40000)

/-- Scans from `offset`, counted from the opening quote. A string ends at its closing quote;
otherwise the end of the line or of the text ends it, with a flaw over all of it. -/
def stringBody (offset : Nat) : List Char → StringBody
  | [] => ⟨[], offset, [⟨.openString, 0, offset⟩]⟩
  | '\n' :: _ => ⟨[], offset, [⟨.newlineInString, 0, offset⟩]⟩
  | '"' :: _ => ⟨[], offset + 1, []⟩
  | ['\\'] => ⟨[], offset + 1, [⟨.openString, 0, offset + 1⟩]⟩
  | '\\' :: '\n' :: _ => ⟨[], offset + 1, [⟨.newlineInString, 0, offset + 1⟩]⟩
  | '\\' :: c :: rest =>
    match unescape? c with
    | some d => (stringBody (offset + 2) rest).cons d
    | none =>
      ((stringBody (offset + 2) rest).cons c).flawed ⟨.unknownEscape (leadByte c), offset, 2⟩
  | c :: rest => (stringBody (offset + 1) rest).cons c

/-- The string literal whose opening quote has just been passed. -/
def stringLiteral (rest : List Char) : Lexeme :=
  let body := stringBody 1 rest
  ⟨.str (String.ofList body.content), body.width, body.flaws⟩

/-- The greatest integer of the language. -/
def maxInt : Nat := 9223372036854775807

def flawedNumber (p : Problem) (width : Nat) : Lexeme := ⟨.int 0, width, [⟨p, 0, width⟩]⟩

def integer (n width : Nat) (tooLarge : Problem) : Lexeme :=
  if n ≤ maxInt then ⟨.int (Int64.ofNat n), width, []⟩ else flawedNumber tooLarge width

/-- What follows `0x`. -/
def hexLiteral (rest : List Char) : Lexeme :=
  let digits := rest.takeWhile Decimal.isHexDigit
  let suffix := match rest.drop digits.length with
    | 'L' :: _ | 'l' :: _ => 1
    | _ => 0
  let width := 2 + digits.length + suffix
  if digits.isEmpty then flawedNumber .badHexLiteral width
  else integer (Decimal.readHex digits) width .badHexLiteral

/-- A point with at least one digit after it. -/
def fraction? : List Char → Option (List Char)
  | '.' :: rest =>
    let digits := rest.takeWhile Char.isDigit
    if digits.isEmpty then none else some digits
  | _ => none

/-- An exponent mark, perhaps a sign, and at least one digit; also the width. -/
def exponent? (cs : List Char) : Option (Bool × List Char × Nat) :=
  match cs with
  | c :: rest =>
    if c = 'e' ∨ c = 'E' then
      let (negative, digits, signs) := match rest with
        | '+' :: r => (false, r.takeWhile Char.isDigit, 1)
        | '-' :: r => (true, r.takeWhile Char.isDigit, 1)
        | r => (false, r.takeWhile Char.isDigit, 0)
      if digits.isEmpty then none else some (negative, digits, 1 + signs + digits.length)
    else none
  | [] => none

/-- The letter that may end a number. -/
inductive Suffix where
  | none
  | double
  | long
  deriving DecidableEq, Repr

def suffix : List Char → Suffix
  | c :: _ =>
    if c ∈ ['d', 'D', 'f', 'F', 'm', 'M'] then .double
    else if c ∈ ['L', 'l'] then .long
    else .none
  | [] => .none

def Suffix.width : Suffix → Nat
  | .none => 0
  | _ => 1

/-- A decimal literal. Word characters that follow it directly spoil it: `12abc` is one bad
number and not a number and a name. -/
def decimalLiteral (cs : List Char) : Lexeme :=
  let whole := cs.takeWhile Char.isDigit
  let fraction := fraction? (cs.drop whole.length)
  let pointWidth := match fraction with
    | some digits => 1 + digits.length
    | none => 0
  let exponent := exponent? (cs.drop (whole.length + pointWidth))
  let exponentWidth := match exponent with
    | some (_, _, width) => width
    | none => 0
  let numberWidth := whole.length + pointWidth + exponentWidth
  let mark := suffix (cs.drop numberWidth)
  let trailing := (cs.drop (numberWidth + mark.width)).takeWhile isWordChar
  let width := numberWidth + mark.width + trailing.length
  let isFraction := fraction.isSome || exponent.isSome
  if !trailing.isEmpty || (mark == .long && isFraction) then
    flawedNumber (.badNumber (String.ofList (cs.take width))) width
  else if isFraction || mark == .double then
    let (negative, digits) := match exponent with
      | some (negative, digits, _) => (negative, digits)
      | none => (false, [])
    ⟨.double (Decimal.Written.toDouble ⟨whole, fraction.getD [], negative, digits⟩), width, []⟩
  else integer (Decimal.readNat whole) width (.integerTooLarge (String.ofList whole))

def word (cs : List Char) : Lexeme :=
  let letters := cs.takeWhile isWordChar
  let name := String.ofList letters
  let kind := match Keyword.ofText? name with
    | some k => TokenKind.keyword k
    | none => .ident name
  ⟨kind, letters.length, []⟩

/-- The lexeme that starts with `c`. -/
def scan (c : Char) (rest : List Char) : Lexeme :=
  if c = '"' then stringLiteral rest
  else if c = '0' ∧ (rest.head? = some 'x' ∨ rest.head? = some 'X') then hexLiteral rest.tail
  else if c.isDigit || (c == '.' && (rest.head?.map Char.isDigit).getD false) then
    decimalLiteral (c :: rest)
  else if isLetter c then word (c :: rest)
  else match symbol? (c :: rest) with
    | some (s, width) => ⟨.symbol s, width, []⟩
    | none => ⟨.unknown c, 1, [⟨.unknownCharacter c, 0, 1⟩]⟩

end Lexeme

end Chunkwise
