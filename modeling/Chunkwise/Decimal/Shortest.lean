import Chunkwise.Double.Parts

/-!
The decimal text of a double has the fewest digits that read back as that double; of two such
decimals the nearer one is taken, and the upper one of two equally near. Numbers are always
written positionally, without an exponent and without a fraction of zero.
-/
namespace Chunkwise.Decimal

/-- The number `digits * 10 ^ exponent`. -/
structure Scaled where
  digits : Nat
  exponent : Int
  deriving DecidableEq, Repr

/-- A positive rational number. -/
structure Ratio where
  num : Nat
  den : Nat
  deriving DecidableEq, Repr

/-- The power of ten with the given exponent. -/
def power10 (k : Nat) : Nat := Nat.pow 10 k

def Ratio.ofBinary (n : Nat) (exponent : Int) : Ratio :=
  match exponent with
  | .ofNat k => ⟨n * Double.power2 k, 1⟩
  | .negSucc k => ⟨n, Double.power2 (k + 1)⟩

def Scaled.toRatio (d : Scaled) : Ratio :=
  match d.exponent with
  | .ofNat k => ⟨d.digits * power10 k, 1⟩
  | .negSucc k => ⟨d.digits, power10 (k + 1)⟩

def Ratio.lt (a b : Ratio) : Bool := a.num * b.den < b.num * a.den

def Ratio.le (a b : Ratio) : Bool := a.num * b.den ≤ b.num * a.den

/-- The numbers that round to one double. -/
structure Interval where
  low : Ratio
  high : Ratio
  closed : Bool
  deriving DecidableEq, Repr

def Interval.contains (i : Interval) (x : Ratio) : Bool :=
  if i.closed then i.low.le x && x.le i.high else i.low.lt x && x.lt i.high

/-- Half a unit to either side; a quarter below a power of two, where the units get finer. The
ends belong to it when the significand is even, since ties round to even. -/
def Interval.around (significand : Nat) (exponent : Int) : Interval :=
  let below := if significand = Double.power2 52 ∧ exponent > -1074 then 1 else 2
  ⟨.ofBinary (4 * significand - below) (exponent - 2),
    .ofBinary (4 * significand + 2) (exponent - 2), significand % 2 = 0⟩

/-- The number of decimal digits of a natural number. -/
def digitCount (n : Nat) : Nat := (Nat.toDigits 10 n).length

/-- The `k` with `10 ^ (k - 1) ≤ x < 10 ^ k`. -/
def magnitude (x : Ratio) : Int :=
  if x.den ≤ x.num then digitCount (x.num / x.den)
  else -(((digitCount ((x.den - 1) / x.num) - 1 : Nat)) : Int)

/-- The greatest multiple of `10 ^ exponent` that is not above `x`, in such units. -/
def floorTo (x : Ratio) (exponent : Int) : Nat :=
  match exponent with
  | .ofNat k => x.num / (x.den * power10 k)
  | .negSucc k => x.num * power10 (k + 1) / x.den

/-- Whether `x` lies nearer to `a` than to the next multiple, both in units of `10 ^ exponent`. -/
def nearerBelow (x : Ratio) (a : Nat) (exponent : Int) : Bool :=
  let twice : Ratio := ⟨2 * x.num, x.den⟩
  twice.lt (Scaled.toRatio ⟨2 * a + 1, exponent⟩)

/-- Tries the two neighbours of `x` on the grid of `10 ^ exponent`. -/
def onGrid (x : Ratio) (i : Interval) (exponent : Int) : Option Scaled :=
  let a := floorTo x exponent
  let lower : Scaled := ⟨a, exponent⟩
  let upper : Scaled := ⟨a + 1, exponent⟩
  match i.contains lower.toRatio, i.contains upper.toRatio with
  | true, true => some (if nearerBelow x a exponent then lower else upper)
  | true, false => some lower
  | false, true => some upper
  | false, false => none

/-- Refines the grid one digit at a time until a neighbour reads back. -/
def refine (x : Ratio) (i : Interval) (top : Int) (count : Nat) : Nat → Scaled
  | 0 => ⟨floorTo x (top - count), top - count⟩
  | more + 1 =>
    match onGrid x i (top - count) with
    | some d => d
    | none => refine x i top (count + 1) more

/-- Seventeen digits always suffice for a double. -/
def shortest (significand : Nat) (exponent : Int) : Scaled :=
  let x := Ratio.ofBinary significand exponent
  refine x (Interval.around significand exponent) (magnitude x) 1 17

/-- Drops zeros at the end of the digits. -/
def dropZeros : Nat → Scaled → Scaled
  | 0, d => d
  | fuel + 1, d =>
    if d.digits ≠ 0 ∧ d.digits % 10 = 0 then dropZeros fuel ⟨d.digits / 10, d.exponent + 1⟩ else d

def Scaled.text (d : Scaled) : String :=
  let digits := Nat.toDigits 10 d.digits
  match d.exponent with
  | .ofNat k => String.ofList (digits ++ List.replicate k '0')
  | .negSucc k =>
    let places := k + 1
    let padded := List.replicate (places + 1 - digits.length) '0' ++ digits
    let whole := padded.length - places
    String.ofList (padded.take whole ++ '.' :: padded.drop whole)

def ofParts (p : Double.Parts) : String :=
  let sign := if p.negative then "-" else ""
  if p.significand = 0 then sign ++ "0"
  else sign ++ (dropZeros 400 (shortest p.significand p.exponent)).text

/-- How a double that is no finite number is written. -/
structure Names where
  infinite : String
  nan : String

/-- Literals name infinity briefly. -/
def literalNames : Names := ⟨"inf", "NaN"⟩

def valueNames : Names := ⟨"Infinity", "NaN"⟩

def ofDouble (names : Names) (x : Float) : String :=
  match Double.classify x with
  | .finite p => ofParts p
  | .infinite negative => (if negative then "-" else "") ++ names.infinite
  | .nan => names.nan

end Chunkwise.Decimal
