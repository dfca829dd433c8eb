import Chunkwise.Image.Basic
import Chunkwise.Text.Quoted
import Chunkwise.Decimal.Shortest

/-!
A value has two texts: the one that string concatenation uses, and the one that is shown for a
result. An enum value shows the name of its first member with that number.
-/
namespace Chunkwise

namespace Image

def enumText (im : Image) (type : Path) (n : Int64) : String :=
  match (im.typeDef? type).bind (·.enumName? n) with
  | some name => name
  | none => toString n.toInt

/-- The text that concatenation and `ToString` give. -/
def text (im : Image) : Value → String
  | .null => ""
  | .bool b => if b then "True" else "False"
  | .int n => toString n.toInt
  | .double x => Decimal.ofDouble Decimal.valueNames x
  | .str s => s
  | .object type _ => Path.text type
  | .enum type n => im.enumText type n

def display (im : Image) : Value → String
  | .null => "null"
  | .bool b => if b then "true" else "false"
  | .str s => Text.quoted s
  | v => im.text v

end Image

end Chunkwise
