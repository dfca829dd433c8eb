import Chunkwise.Image.Basic

/-!
Which operand types an operator takes, what an implicit conversion costs, and which of several
methods a call means: the applicable one with the cheapest conversions, and the first declared of
those that are equally cheap.
-/
namespace Chunkwise

/-- The common type of two numbers. -/
def Ty.wider (a b : Ty) : Ty :=
  if a = .double ∨ b = .double then .double
  else if a = .long ∨ b = .long then .long
  else .int

def Ty.numKind (t : Ty) : NumKind := if t = .double then .double else .int

/-- An integer literal is short when it fits in 32 bits. -/
def Ty.ofLiteral (n : Int64) : Ty :=
  if -2147483648 ≤ n.toInt ∧ n.toInt ≤ 2147483647 then .int else .long

namespace Image

/-- Whether two types that are not both numeric can be compared for equality. -/
def isComparable (im : Image) (a b : Ty) : Bool :=
  a == b || (a == .null && im.isNullable b) || (b == .null && im.isNullable a) ||
  a == .object || b == .object ||
  match a, b with
  | .named _, .named _ => im.isAssignable a b || im.isAssignable b a
  | _, _ => false

/-- The cost of passing `arg` for `param`, if it converts. -/
def conversionCost? (im : Image) (arg param : Ty) : Option Nat :=
  if arg = param then some 0
  else if im.isAssignable arg param then
    match arg, param with
    | .int, .long => some 1
    | .int, .double | .long, .double => some 2
    | _, _ => some 3
  else none

/-- The total cost of passing `args` for `params` one by one. A sum of 32 bits would be the same: it
overflows only from 1431655766 parameters on, and reading that many compares each with all before. -/
def totalCost? (im : Image) : List Ty → List Ty → Option Nat
  | arg :: args, param :: params =>
    match im.conversionCost? arg param, im.totalCost? args params with
    | some c, some rest => some (c + rest)
    | _, _ => none
  | _, _ => some 0

/-- The cheaper of the best candidate so far and the next one; the earlier wins a tie. -/
def cheaper {α : Type} (best : Option (Nat × α)) (next : Nat × α) : Option (Nat × α) :=
  match best with
  | none => some next
  | some b => if next.1 < b.1 then some next else some b

/-- Chooses among candidates that take as many parameters as there are arguments. -/
def cheapest? {α : Type} (im : Image) (args : List Ty) (candidates : List (α × Method)) :
    Option (α × Method) :=
  let costed := candidates.filterMap fun c =>
    (im.totalCost? args c.2.paramTypes).map fun cost => (cost, c)
  (costed.foldl cheaper none).map Prod.snd

/-- Why no method was chosen. -/
inductive NoOverload where
  | arity
  | types
  deriving DecidableEq, Repr

/-- The method that a call with arguments of these types means. -/
def selectOverload {α : Type} (im : Image) (candidates : List (α × Method)) (args : List Ty) :
    Except NoOverload (α × Method) :=
  let fitting := candidates.filter fun c => c.2.params.length == args.length
  if fitting.isEmpty then .error .arity
  else match im.cheapest? args fitting with
    | some c => .ok c
    | none => .error .types

end Image

end Chunkwise
