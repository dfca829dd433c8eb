import Chunkwise.Source.Span
import Chunkwise.Decimal.Shortest

namespace Chunkwise

inductive Keyword where
  | abstractKw | classKw | constKw | delegateKw | enumKw | interfaceKw | internalKw
  | namespaceKw | overrideKw | privateKw | protectedKw | publicKw | readonlyKw | sealedKw
  | staticKw | structKw | unsafeKw | usingKw | virtualKw
  | breakKw | continueKw | doKw | elseKw | forKw | ifKw | returnKw | throwKw | whileKw
  | newKw | thisKw | trueKw | falseKw | nullKw
  | boolKw | doubleKw | floatKw | intKw | longKw | objectKw | stringKw | varKw | voidKw
  deriving DecidableEq, Repr

namespace Keyword

def text : Keyword → String
  | abstractKw => "abstract" | classKw => "class" | constKw => "const"
  | delegateKw => "delegate" | enumKw => "enum" | interfaceKw => "interface"
  | internalKw => "internal" | namespaceKw => "namespace" | overrideKw => "override"
  | privateKw => "private" | protectedKw => "protected" | publicKw => "public"
  | readonlyKw => "readonly" | sealedKw => "sealed" | staticKw => "static"
  | structKw => "struct" | unsafeKw => "unsafe" | usingKw => "using" | virtualKw => "virtual"
  | breakKw => "break" | continueKw => "continue" | doKw => "do" | elseKw => "else"
  | forKw => "for" | ifKw => "if" | returnKw => "return" | throwKw => "throw"
  | whileKw => "while"
  | newKw => "new" | thisKw => "this" | trueKw => "true" | falseKw => "false"
  | nullKw => "null"
  | boolKw => "bool" | doubleKw => "double" | floatKw => "float" | intKw => "int"
  | longKw => "long" | objectKw => "object" | stringKw => "string" | varKw => "var"
  | voidKw => "void"

def all : List Keyword :=
  [abstractKw, classKw, constKw, delegateKw, enumKw, interfaceKw, internalKw, namespaceKw,
    overrideKw, privateKw, protectedKw, publicKw, readonlyKw, sealedKw, staticKw, structKw,
    unsafeKw, usingKw, virtualKw, breakKw, continueKw, doKw, elseKw, forKw, ifKw, returnKw,
    throwKw, whileKw, newKw, thisKw, trueKw, falseKw, nullKw, boolKw, doubleKw, floatKw, intKw,
    longKw, objectKw, stringKw, varKw, voidKw]

/-- The reserved word spelled so, if there is one. -/
def ofText? (s : String) : Option Keyword := all.find? fun k => k.text == s

theorem ofText?_text (k : Keyword) : ofText? k.text = some k := by
  cases k <;> decide

theorem text_injective {a b : Keyword} (h : a.text = b.text) : a = b := by
  have hfound := ofText?_text a
  rw [h, ofText?_text] at hfound
  exact (Option.some.inj hfound).symm

/-- The words that name a built-in type. -/
def namesType : Keyword → Bool
  | boolKw | doubleKw | floatKw | intKw | longKw | objectKw | stringKw | varKw | voidKw => true
  | _ => false

/-- The words that modify a declaration. -/
def modifies : Keyword → Bool
  | publicKw | privateKw | protectedKw | internalKw | staticKw | abstractKw | sealedKw
  | readonlyKw | constKw | virtualKw | overrideKw => true
  | _ => false

end Keyword

inductive Symbol where
  | plus | minus | star | slash | percent | plusPlus | minusMinus
  | assign | plusAssign | minusAssign | starAssign | slashAssign | percentAssign
  | equal | bang | notEqual | less | lessEqual | greater | greaterEqual
  | both | either | question | coalesce
  | dot | comma | semicolon | colon
  | openParen | closeParen | openBrace | closeBrace | openBracket | closeBracket
  deriving DecidableEq, Repr

namespace Symbol

def text : Symbol → String
  | plus => "+" | minus => "-" | star => "*" | slash => "/" | percent => "%"
  | plusPlus => "++" | minusMinus => "--"
  | assign => "=" | plusAssign => "+=" | minusAssign => "-=" | starAssign => "*="
  | slashAssign => "/=" | percentAssign => "%="
  | equal => "==" | bang => "!" | notEqual => "!=" | less => "<" | lessEqual => "<="
  | greater => ">" | greaterEqual => ">="
  | both => "&&" | either => "||" | question => "?" | coalesce => "??"
  | dot => "." | comma => "," | semicolon => ";" | colon => ":"
  | openParen => "(" | closeParen => ")" | openBrace => "\x7b" | closeBrace => "\x7d"
  | openBracket => "[" | closeBracket => "]"

end Symbol

inductive TokenKind where
  | int (value : Int64)
  | double (value : Float)
  | str (value : String)
  | ident (name : String)
  | keyword (word : Keyword)
  | symbol (sign : Symbol)
  | unknown (c : Char)
  | endOfInput
  deriving DecidableEq

namespace TokenKind

/-- How a message cites a token; a string shows its decoded text. -/
def text : TokenKind → String
  | int n => toString n.toInt
  | double x => Decimal.ofDouble Decimal.literalNames x
  | str s => "\"" ++ s ++ "\""
  | ident name => name
  | keyword k => k.text
  | symbol s => s.text
  | unknown c => String.singleton c
  | endOfInput => "end of input"

def isKeyword : TokenKind → Bool
  | keyword _ => true
  | _ => false

def namesType : TokenKind → Bool
  | keyword k => k.namesType
  | _ => false

def modifies : TokenKind → Bool
  | keyword k => k.modifies
  | _ => false

def isIdent : TokenKind → Bool
  | ident _ => true
  | _ => false

end TokenKind

structure Token where
  kind : TokenKind
  span : Span
  deriving DecidableEq

end Chunkwise
