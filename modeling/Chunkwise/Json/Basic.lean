/-!
Numbers keep their text and objects keep the order and the repetitions of their keys, since both
decide whether a document is accepted.
-/
namespace Chunkwise

inductive Json where
  | null
  | bool (b : Bool)
  | num (text : String)
  | str (s : String)
  | arr (items : List Json)
  | obj (members : List (String × Json))
  deriving Inhabited

namespace Json

def ofNat (n : Nat) : Json := .num (toString n)

/-- The value of the last member with this key. -/
def get? (j : Json) (key : String) : Option Json :=
  match j with
  | .obj members => members.reverse.lookup key
  | _ => none

def str? : Json → Option String
  | .str s => some s
  | _ => none

def bool? : Json → Option Bool
  | .bool b => some b
  | _ => none

def arr? : Json → Option (List Json)
  | .arr items => some items
  | _ => none

/-- The natural number written without sign, fraction or exponent. -/
def nat? : Json → Option Nat
  | .num text => if text.toList.all Char.isDigit then text.toNat? else none
  | _ => none

/-- The integer written without fraction or exponent. -/
def int? : Json → Option Int
  | .num text => match text.toList with
    | '-' :: digits =>
      if digits.all Char.isDigit then ((String.ofList digits).toNat?).map fun n => -(n : Int)
      else none
    | digits => if digits.all Char.isDigit then text.toNat?.map Int.ofNat else none
  | _ => none

def hexDigits (n : Nat) : List Char :=
  [n / 4096 % 16, n / 256 % 16, n / 16 % 16, n % 16].map Nat.digitChar

def escapeChar (c : Char) : List Char :=
  if c = '"' then ['\\', '"']
  else if c = '\\' then ['\\', '\\']
  else if c.toNat < 0x20 then '\\' :: 'u' :: hexDigits c.toNat
  else [c]

def quote (s : String) : String := "\"" ++ String.ofList (s.toList.flatMap escapeChar) ++ "\""

mutual

def render : Json → String
  | null => "null"
  | bool b => if b then "true" else "false"
  | num text => text
  | str s => quote s
  | arr items => "[" ++ ",".intercalate (renderItems items) ++ "]"
  | obj members => "\x7b" ++ ",".intercalate (renderMembers members) ++ "\x7d"

def renderItems : List Json → List String
  | [] => []
  | j :: rest => j.render :: renderItems rest

def renderMembers : List (String × Json) → List String
  | [] => []
  | (key, j) :: rest => (quote key ++ ":" ++ j.render) :: renderMembers rest

end

end Json

end Chunkwise
