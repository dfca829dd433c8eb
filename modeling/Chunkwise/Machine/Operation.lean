import Chunkwise.Machine.State
import Chunkwise.Double.Parts

namespace Chunkwise.Machine

def intArith (op : ArithOp) (a b : Int64) : Except Stop Int64 :=
  match op with
  | .add => .ok (a + b)
  | .sub => .ok (a - b)
  | .mul => .ok (a * b)
  | .div => if b = 0 then .error (.fault .divideByZero) else .ok (a / b)
  | .rem => if b = 0 then .error (.fault .divideByZero) else .ok (a % b)

def doubleArith (op : ArithOp) (a b : Float) : Float :=
  match op with
  | .add => a + b
  | .sub => a - b
  | .mul => a * b
  | .div => a / b
  | .rem => Double.remainder a b

def compareInt (op : CompareOp) (a b : Int64) : Bool :=
  match op with
  | .lt => a < b
  | .le => a ≤ b
  | .gt => b < a
  | .ge => b ≤ a

/-- Comparisons with a NaN are false. -/
def compareDouble (op : CompareOp) (a b : Float) : Bool :=
  match op with
  | .lt => a < b
  | .le => a ≤ b
  | .gt => b < a
  | .ge => b ≤ a

/-- Applies an operation to two values. -/
def apply (im : Image) (op : ValueOp) (l r : Value) : Except Stop Value :=
  match op with
  | .arith op .int =>
    match l.int?, r.int? with
    | some a, some b => (intArith op a b).map Value.int
    | _, _ => .error (.internal .notIntegers)
  | .arith op .double =>
    match l.double?, r.double? with
    | some a, some b => .ok (.double (doubleArith op a b))
    | _, _ => .error (.internal .notNumbers)
  | .compare op .int =>
    match l.int?, r.int? with
    | some a, some b => .ok (.bool (compareInt op a b))
    | _, _ => .error (.internal .notNumbers)
  | .compare op .double =>
    match l.double?, r.double? with
    | some a, some b => .ok (.bool (compareDouble op a b))
    | _, _ => .error (.internal .notNumbers)
  | .concat => .ok (.str (im.text l ++ im.text r))
  | .equal => .ok (.bool (l.same r))
  | .notEqual => .ok (.bool (!l.same r))

def negate (kind : NumKind) (v : Value) : Except Stop Value :=
  match kind, v with
  | .int, .int n => .ok (.int (-n))
  | .double, .double x => .ok (.double (-x))
  | _, v => .error (.internal (.notNegatable v.typeName))

def stepValue (kind : NumKind) (op : StepOp) (v : Value) : Except Stop Value :=
  match kind, v with
  | .int, .int n => .ok (.int (if op = .increment then n + 1 else n - 1))
  | .double, .double x => .ok (.double (if op = .increment then x + 1.0 else x - 1.0))
  | _, v => .error (.internal (.notSteppable v.typeName))

def toText (im : Image) : Value → Except Stop Value
  | .null => .error (.fault .nullReference)
  | v => .ok (.str (im.text v))

def textLength : Value → Except Stop Value
  | .null => .error (.fault .nullReference)
  | .str s => .ok (.int (Int64.ofNat (Text.units16 s)))
  | v => .error (.internal (.noLength v.typeName))

/-- An integer becomes a double; all else stays as it is. -/
def widen : Value → Value
  | .int n => .double (Value.widened n)
  | v => v

/-- An object to call or to look into. -/
def receiver : Value → Except Stop ObjectRef
  | .object type id => .ok ⟨type, id⟩
  | .null => .error (.fault .nullReference)
  | v => .error (.internal (.notAnObject v.typeName))

def argText (im : Image) : List Value → String
  | v :: _ => im.text v
  | [] => ""

def intArg (args : List Value) (i : Nat) : Int64 := ((args[i]?).bind Value.int?).getD 0

def doubleArg (args : List Value) (i : Nat) : Float := ((args[i]?).bind Value.double?).getD 0.0

def native (im : Image) (n : Native) (args : List Value) : Run Value := do
  match n with
  | .writeLine =>
    Run.print (argText im args ++ "\n")
    return .null
  | .writeBlankLine =>
    Run.print "\n"
    return .null
  | .write =>
    Run.print (argText im args)
    return .null
  | .absInt =>
    let a := intArg args 0
    return .int (if a < 0 then -a else a)
  | .absDouble => return .double (doubleArg args 0).abs
  | .maxInt =>
    let (a, b) := (intArg args 0, intArg args 1)
    return .int (if a < b then b else a)
  | .maxDouble => return .double (Double.larger (doubleArg args 0) (doubleArg args 1))
  | .minInt =>
    let (a, b) := (intArg args 0, intArg args 1)
    return .int (if b < a then b else a)
  | .minDouble => return .double (Double.smaller (doubleArg args 0) (doubleArg args 1))
  | .sqrt => return .double (doubleArg args 0).sqrt
  | .pow => return .double (Float.pow (doubleArg args 0) (doubleArg args 1))

end Chunkwise.Machine
