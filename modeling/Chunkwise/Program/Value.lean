/-!
Static types and runtime values. A declared type is named by its path from the global namespace,
and two types are the same when their paths are. Integers of both widths share one 64-bit
representation.
-/
namespace Chunkwise

/-- Segments from the global namespace down. -/
abbrev Path := List String

def Path.text (p : Path) : String := ".".intercalate p

/-- The segments of a dotted name; the empty text is one empty segment. -/
def Path.ofText (dotted : String) : Path := (dotted.toList.splitOn '.').map String.ofList

inductive Ty where
  | void
  | bool
  | int
  | long
  | double
  | string
  | object
  /-- The type of the null literal. -/
  | null
  | named (path : Path)
  deriving DecidableEq, Repr

namespace Ty

def text : Ty → String
  | void => "void"
  | bool => "bool"
  | int => "int"
  | long => "long"
  | double => "double"
  | string => "string"
  | object => "object"
  | null => "null"
  | named path => Path.text path

def isIntegral : Ty → Bool
  | int | long => true
  | _ => false

def isNumeric : Ty → Bool
  | int | long | double => true
  | _ => false

end Ty

inductive Value where
  | null
  | bool (b : Bool)
  | int (n : Int64)
  | double (x : Float)
  | str (s : String)
  | object (type : Path) (id : Nat)
  | enum (type : Path) (n : Int64)
  deriving DecidableEq

namespace Value

def isNull : Value → Bool
  | null => true
  | _ => false

def holds : Value → Bool
  | bool b => b
  | _ => false

def int? : Value → Option Int64
  | int n | enum _ n => some n
  | _ => none

def widened (n : Int64) : Float := Float.ofInt n.toInt

def double? : Value → Option Float
  | double x => some x
  | int n => some (widened n)
  | _ => none

def typeName : Value → String
  | null => "null"
  | bool _ => "bool"
  | int _ => "long"
  | double _ => "double"
  | str _ => "string"
  | object type _ | enum type _ => Path.text type

/-- Equality of the language: numbers by value, objects by identity. -/
def same : Value → Value → Bool
  | null, null => true
  | bool a, bool b => a == b
  | int a, int b => a == b
  | double a, double b => a == b
  | int a, double b => widened a == b
  | double a, int b => a == widened b
  | str a, str b => a == b
  | object _ a, object _ b => a == b
  | enum s a, enum t b => s == t && a == b
  | _, _ => false

end Value

end Chunkwise
