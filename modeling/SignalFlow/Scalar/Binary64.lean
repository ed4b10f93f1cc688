import SignalFlow.Scalar.Basic
import SignalFlow.Decimal.Shortest
import SignalFlow.Decimal.Numeral

/-!
# Binary floating-point scalars

Numbers of the 64-bit binary format as scalars: the shortest decimal that reads back is
written, always without an exponent, and numerals are read with correct rounding.
-/

namespace SignalFlow
namespace Binary64

/-- The sign bit. -/
def isNegative (x : Float) : Bool :=
  x.toBits >>> 63 == 1

/-- Magnitude of a finite number that is not zero. -/
def dyadic (x : Float) : Decimal.Dyadic :=
  let fraction := (x.toBits &&& 0xFFFFFFFFFFFFF).toNat
  let exponent := ((x.toBits >>> 52) &&& 0x7FF).toNat
  if exponent = 0 then ⟨fraction, -1074, false⟩
  else ⟨fraction + 1 <<< 52, (exponent : Int) - 1075, fraction == 0 && 1 < exponent⟩

/-- Text of a value without its sign. -/
def magnitude (x : Float) : String :=
  if x.isInf then "inf"
  else if x == 0 then "0"
  else
    let (digits, exponent) := (dyadic x).shortest
    Decimal.positional digits exponent

/-- Text of a value; an undefined value has no sign. -/
def write (x : Float) : String :=
  if x.isNaN then "NaN"
  else if isNegative x then "-" ++ magnitude x
  else magnitude x

/-- The quotient rounded to the nearest natural number; a tie goes to the even one. -/
def roundDiv (dividend divisor : Nat) : Nat :=
  let q := dividend / divisor
  let twice := 2 * (dividend % divisor)
  if divisor < twice || (twice = divisor && q % 2 = 1) then q + 1 else q

/-- The fraction `num / den` in units of `2 ^ exponent`, as a fraction again. -/
def inUnits (num den : Nat) (exponent : Int) : Nat × Nat :=
  (num <<< (-exponent).toNat, den <<< exponent.toNat)

/-- Exponent of the last binary place that numbers near `num / den` have: at most 53
places, and none below `2 ^ -1074`. -/
def lastPlace (num den : Nat) : Int :=
  let guess := max ((Nat.log2 num : Int) - Nat.log2 den - 53) (-1074)
  let (n, d) := inUnits num den guess
  if n / d < 1 <<< 53 then guess else guess + 1

/-- The number nearest to the positive fraction `num / den`; a tie goes to the even
mantissa. -/
def ofFraction (num den : Nat) : Float :=
  let exponent := lastPlace num den
  let (n, d) := inUnits num den exponent
  let bits := (exponent + 1074).toNat <<< 52 + roundDiv n d
  if bits < 0x7FF <<< 52 then Float.ofBits bits.toUInt64 else 1 / 0

/-- The number nearest to `digits * 10 ^ exponent`.  Decimals far outside the format are
settled by their size, so that no huge power is computed. -/
def ofDecimal (digits : Nat) (exponent : Int) : Float :=
  let size := exponent + (Nat.toDigits 10 digits).length
  if digits = 0 || size < -400 then 0
  else if 400 < size then 1 / 0
  else ofFraction (digits * Nat.pow 10 exponent.toNat) (Nat.pow 10 (-exponent).toNat)

/-- The number a numeral denotes. -/
def ofNumeral : Decimal.Numeral → Float
  | .finite negative digits exponent =>
      if negative then -(ofDecimal digits exponent) else ofDecimal digits exponent
  | .infinite negative => if negative then -(1 / 0) else 1 / 0
  | .undefined => 0 / 0

instance : Scalar Float where
  zero := 0
  one := 1
  decLt := fun a b => Float.decLt a b
  decLe := fun a b => Float.decLe a b
  pow := Float.pow
  infinity := 1 / 0
  ofInt := Float.ofInt
  read? := fun text => (Decimal.Numeral.read? text).map ofNumeral
  write := write

end Binary64
end SignalFlow
