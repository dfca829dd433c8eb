import Chunkwise.Json.Basic
import Chunkwise.Decimal.Read

namespace Chunkwise.Json

def isBlankChar (c : Char) : Bool := c == ' ' || c == '\t' || c == '\n' || c == '\r'

def skipBlanks (cs : List Char) : List Char := cs.dropWhile isBlankChar

/-- The number of four hexadecimal digits. -/
def hex4? (a b c d : Char) : Option Nat :=
  if [a, b, c, d].all Decimal.isHexDigit then some (Decimal.readHex [a, b, c, d]) else none

def isLeadSurrogate (n : Nat) : Bool := 0xD800 ≤ n && n < 0xDC00

def isTrailSurrogate (n : Nat) : Bool := 0xDC00 ≤ n && n < 0xE000

def simpleEscape? : Char → Option Char
  | '"' => some '"'
  | '\\' => some '\\'
  | '/' => some '/'
  | 'b' => some '\x08'
  | 'f' => some '\x0c'
  | 'n' => some '\n'
  | 'r' => some '\r'
  | 't' => some '\t'
  | _ => none

/-- The rest of a string after its opening quote, with the characters read so far in reverse. -/
def stringRest (acc : List Char) : List Char → Option (String × List Char)
  | [] => none
  | '"' :: rest => some (String.ofList acc.reverse, rest)
  | '\\' :: 'u' :: a :: b :: c :: d :: rest =>
    match hex4? a b c d with
    | none => none
    | some n =>
      if isTrailSurrogate n then none
      else if isLeadSurrogate n then
        match rest with
        | '\\' :: 'u' :: e :: f :: g :: h :: rest' =>
          match hex4? e f g h with
          | some m =>
            if isTrailSurrogate m then
              stringRest (Char.ofNat (0x10000 + (n - 0xD800) * 0x400 + (m - 0xDC00)) :: acc) rest'
            else none
          | none => none
        | _ => none
      else stringRest (Char.ofNat n :: acc) rest
  | '\\' :: c :: rest =>
    match simpleEscape? c with
    | some d => stringRest (d :: acc) rest
    | none => none
  | c :: rest => if c.toNat < 0x20 then none else stringRest (c :: acc) rest

def digits1? (cs : List Char) : Option (List Char × List Char) :=
  let digits := cs.takeWhile Char.isDigit
  if digits.isEmpty then none else some (digits, cs.drop digits.length)

/-- The whole part has no leading zero. -/
def wholePart? : List Char → Option (List Char × List Char)
  | '0' :: rest => some (['0'], rest)
  | cs => digits1? cs

def fractionPart? : List Char → Option (List Char × List Char)
  | '.' :: rest => (digits1? rest).map fun (digits, tail) => ('.' :: digits, tail)
  | cs => some ([], cs)

def exponentPart? : List Char → Option (List Char × List Char)
  | c :: rest =>
    if c = 'e' ∨ c = 'E' then
      match rest with
      | '+' :: r => (digits1? r).map fun (digits, tail) => (c :: '+' :: digits, tail)
      | '-' :: r => (digits1? r).map fun (digits, tail) => (c :: '-' :: digits, tail)
      | r => (digits1? r).map fun (digits, tail) => (c :: digits, tail)
    else some ([], c :: rest)
  | [] => some ([], [])

def number? (cs : List Char) : Option (String × List Char) := do
  let (sign, cs) := match cs with
    | '-' :: rest => (['-'], rest)
    | rest => ([], rest)
  let (whole, cs) ← wholePart? cs
  let (fraction, cs) ← fractionPart? cs
  let (exponent, cs) ← exponentPart? cs
  return (String.ofList (sign ++ whole ++ fraction ++ exponent), cs)

mutual

/-- A value, nested at most `limit` deep. -/
def value? : Nat → List Char → Option (Json × List Char)
  | 0, _ => none
  | limit + 1, cs =>
    match skipBlanks cs with
    | 'n' :: 'u' :: 'l' :: 'l' :: rest => some (.null, rest)
    | 't' :: 'r' :: 'u' :: 'e' :: rest => some (.bool true, rest)
    | 'f' :: 'a' :: 'l' :: 's' :: 'e' :: rest => some (.bool false, rest)
    | '"' :: rest => (stringRest [] rest).map fun (s, tail) => (.str s, tail)
    | '[' :: rest =>
      match skipBlanks rest with
      | ']' :: tail => some (.arr [], tail)
      | tail => (items? limit [] tail).map fun (items, tail) => (.arr items, tail)
    | '{' :: rest =>
      match skipBlanks rest with
      | '}' :: tail => some (.obj [], tail)
      | tail => (members? limit [] tail).map fun (members, tail) => (.obj members, tail)
    | tail => (number? tail).map fun (text, tail) => (.num text, tail)

/-- Values up to a closing bracket. -/
def items? : Nat → List Json → List Char → Option (List Json × List Char)
  | 0, _, _ => none
  | limit + 1, acc, cs => do
    let (j, rest) ← value? limit cs
    match skipBlanks rest with
    | ',' :: tail => items? limit (j :: acc) tail
    | ']' :: tail => some ((j :: acc).reverse, tail)
    | _ => none

/-- Keys and values up to a closing brace. -/
def members? : Nat → List (String × Json) → List Char →
    Option (List (String × Json) × List Char)
  | 0, _, _ => none
  | limit + 1, acc, cs =>
    match skipBlanks cs with
    | '"' :: rest => do
      let (key, rest) ← stringRest [] rest
      match skipBlanks rest with
      | ':' :: rest =>
        let (j, rest) ← value? limit rest
        match skipBlanks rest with
        | ',' :: tail => members? limit ((key, j) :: acc) tail
        | '}' :: tail => some (((key, j) :: acc).reverse, tail)
        | _ => none
      | _ => none
    | _ => none

end

def parse? (text : String) : Option Json := do
  let (j, rest) ← value? (2 * text.length + 2) text.toList
  if (skipBlanks rest).isEmpty then some j else none

end Chunkwise.Json
