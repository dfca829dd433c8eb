/-!
A finite double is a sign and a natural number of units in the last place. The remainder of
two doubles is computed on these parts, so it is exact.
-/
namespace Chunkwise.Double

/-- A finite double is `significand * 2 ^ exponent` with a sign. -/
structure Parts where
  negative : Bool
  significand : Nat
  exponent : Int
  deriving DecidableEq, Repr

/-- A double is finite, infinite or no number at all. -/
inductive Class where
  | finite (parts : Parts)
  | infinite (negative : Bool)
  | nan
  deriving DecidableEq, Repr

/-- The power of two with the given exponent. -/
def power2 (k : Nat) : Nat := Nat.pow 2 k

def classify (x : Float) : Class :=
  let bits := x.toBits.toNat
  let negative := bits / power2 63 == 1
  let biased : Nat := bits / power2 52 % 2048
  let fraction : Nat := bits % power2 52
  if biased = 2047 then
    if fraction = 0 then .infinite negative else .nan
  else if biased = 0 then .finite ⟨negative, fraction, -1074⟩
  else .finite ⟨negative, fraction + power2 52, (biased : Int) - 1075⟩

/-- Multiplies by a power of two and drops the binary digits below the unit. -/
def shift (n : Nat) : Int → Nat
  | .ofNat k => n * power2 k
  | .negSucc k => n / power2 (k + 1)

/-- The double with the given parts, for parts that a double can hold exactly. -/
def Parts.toDouble (p : Parts) : Float :=
  let sign := if p.negative then power2 63 else 0
  if p.significand = 0 then Float.ofBits (UInt64.ofNat sign)
  else
    let top := p.significand.log2
    let scale := p.exponent + top
    if scale < -1022 then
      Float.ofBits (UInt64.ofNat (sign + shift p.significand (p.exponent + 1074)))
    else
      let aligned := shift p.significand (52 - (top : Int))
      Float.ofBits (UInt64.ofNat (sign + (scale + 1023).toNat * power2 52 + (aligned - power2 52)))

def nan : Float := 0.0 / 0.0

def infinity : Float := 1.0 / 0.0

/-- The exact remainder of truncated division; it has the sign of the dividend. -/
def remainder (x y : Float) : Float :=
  match classify x, classify y with
  | .finite a, .finite b =>
    if b.significand = 0 then nan
    else
      let low := min a.exponent b.exponent
      let num := a.significand * power2 (a.exponent - low).toNat
      let den := b.significand * power2 (b.exponent - low).toNat
      Parts.toDouble ⟨a.negative, num % den, low⟩
  | .finite _, .infinite _ => x
  | _, _ => nan

/-- The larger one; a number wins over a NaN, and the first of two equal ones is taken. -/
def larger (x y : Float) : Float :=
  if x.isNaN || x < y then y else x

/-- The smaller one; a number wins over a NaN, and the first of two equal ones is taken. -/
def smaller (x y : Float) : Float :=
  if x.isNaN || y < x then y else x

end Chunkwise.Double
