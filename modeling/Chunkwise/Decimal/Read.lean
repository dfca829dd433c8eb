import Chunkwise.Double.Parts

namespace Chunkwise.Decimal

def digitValue (c : Char) : Nat := c.toNat - '0'.toNat

def hexValue (c : Char) : Nat :=
  if c.isDigit then digitValue c
  else if 'a' ≤ c ∧ c ≤ 'f' then c.toNat - 'a'.toNat + 10
  else c.toNat - 'A'.toNat + 10

def isHexDigit (c : Char) : Bool :=
  c.isDigit || ('a' ≤ c && c ≤ 'f') || ('A' ≤ c && c ≤ 'F')

def readNat (digits : List Char) : Nat := digits.foldl (fun n c => 10 * n + digitValue c) 0

def readHex (digits : List Char) : Nat := digits.foldl (fun n c => 16 * n + hexValue c) 0

/-- A decimal text taken apart: digits before and after the point, and an exponent. -/
structure Written where
  whole : List Char
  fraction : List Char
  negativeExponent : Bool
  exponent : List Char
  deriving DecidableEq, Repr

/-- The nearest double. Beyond four hundred places from the unit it is infinite or zero. -/
def Written.toDouble (w : Written) : Float :=
  let digits := readNat (w.whole ++ w.fraction)
  let exponent : Int := readNat w.exponent
  let scale := (if w.negativeExponent then -exponent else exponent) - w.fraction.length
  let place := scale + (Nat.toDigits 10 digits).length
  if digits = 0 then 0.0
  else if place > 400 then Double.infinity
  else if place < -400 then 0.0
  else Float.ofScientific digits (scale < 0) scale.natAbs

end Chunkwise.Decimal
