import Chunkwise.Image.Basic
import Chunkwise.Program.Store

/-!
Every image starts with the namespace `System` and its static classes `Console` and `Math`. The
helper `print` is visible in top-level statements only.
-/
namespace Chunkwise.Builtin

def native (owner name : String) (params : List (String × Ty)) (returns : Ty) (body : Native) :
    Method :=
  ⟨name, owner, params, returns, true, .native body⟩

def helpers : List Method :=
  [native "<host>" "print" [("value", .object)] .void .writeLine]

def console : TypeDef :=
  let add := native "System.Console"
  { TypeDef.bare .classKind true false with
    methods := [
      add "WriteLine" [] .void .writeBlankLine,
      add "WriteLine" [("value", .object)] .void .writeLine,
      add "Write" [("value", .object)] .void .write] }

/-- The slot of the constant `PI`. -/
def piSlot : Nat := 0

/-- The slot of the constant `E`. -/
def eSlot : Nat := 1

def math : TypeDef :=
  let add := native "System.Math"
  { TypeDef.bare .classKind true false with
    statics := [⟨"PI", piSlot, .double, true⟩, ⟨"E", eSlot, .double, true⟩]
    methods := [
      add "Abs" [("value", .int)] .int .absInt,
      add "Abs" [("value", .long)] .long .absInt,
      add "Abs" [("value", .double)] .double .absDouble,
      add "Max" [("a", .int), ("b", .int)] .int .maxInt,
      add "Max" [("a", .long), ("b", .long)] .long .maxInt,
      add "Max" [("a", .double), ("b", .double)] .double .maxDouble,
      add "Min" [("a", .int), ("b", .int)] .int .minInt,
      add "Min" [("a", .long), ("b", .long)] .long .minInt,
      add "Min" [("a", .double), ("b", .double)] .double .minDouble,
      add "Sqrt" [("d", .double)] .double .sqrt,
      add "Pow" [("x", .double), ("y", .double)] .double .pow] }

def image : Image where
  entries := [⟨["System"], .space⟩, ⟨["System", "Console"], .type console⟩,
    ⟨["System", "Math"], .type math⟩]
  usings := []
  declared := []

/-- The storage behind the built-in constants. -/
def store : Store where
  slots := #[⟨"PI", .double, .double 3.141592653589793, false⟩,
    ⟨"E", .double, .double 2.718281828459045, false⟩]
  heap := #[]

end Chunkwise.Builtin
