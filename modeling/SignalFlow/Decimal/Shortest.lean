/-!
# Shortest decimals

A positive number `m * 2 ^ q` is written with the fewest decimal digits that are still read
as that number.  The reals read as it form an interval around it; the answer is the nearest
point of the coarsest decimal grid that meets this interval.

Everything is exact arithmetic on natural numbers, in quarters of the unit `2 ^ q`.
-/

namespace SignalFlow
namespace Decimal

/-- The positive number `mantissa * 2 ^ exponent`.  Below a power of two the representable
numbers lie twice as dense, so the interval of `narrow` numbers reaches only half as far
down. -/
structure Dyadic where
  mantissa : Nat
  exponent : Int
  narrow : Bool

namespace Dyadic

/-- The number in quarters of its unit. -/
def quarters (d : Dyadic) : Nat :=
  4 * d.mantissa

/-- Lower end of the interval, in quarters. -/
def lowQuarters (d : Dyadic) : Nat :=
  4 * d.mantissa - (if d.narrow then 1 else 2)

/-- Upper end of the interval, in quarters. -/
def highQuarters (d : Dyadic) : Nat :=
  4 * d.mantissa + 2

/-- One quarter, as a multiple of the common measure at the grid `10 ^ k`. -/
def quarterMeasure (d : Dyadic) (k : Int) : Nat :=
  Nat.pow 10 (-k).toNat <<< (d.exponent - 2).toNat

/-- One step of the grid `10 ^ k`, as a multiple of the common measure. -/
def gridMeasure (d : Dyadic) (k : Int) : Nat :=
  Nat.pow 10 k.toNat <<< (2 - d.exponent).toNat

/-- Whether `c * 10 ^ k` is read as the number; the ends belong to numbers with an even
mantissa. -/
def reads (d : Dyadic) (k : Int) (c : Nat) : Bool :=
  let point := c * d.gridMeasure k
  let low := d.lowQuarters * d.quarterMeasure k
  let high := d.highQuarters * d.quarterMeasure k
  if d.mantissa % 2 = 0 then low ≤ point && point ≤ high else low < point && point < high

/-- The last grid point at or below the number. -/
def floorAt (d : Dyadic) (k : Int) : Nat :=
  d.quarters * d.quarterMeasure k / d.gridMeasure k

/-- The upper neighbour on the grid is at least as near as the lower one. -/
def upperNearer (d : Dyadic) (k : Int) : Bool :=
  let value := d.quarters * d.quarterMeasure k
  let c := d.floorAt k
  (c + 1) * d.gridMeasure k - value ≤ value - c * d.gridMeasure k

/-- The nearest multiple of `10 ^ k` that is read as the number; a tie goes up. -/
def onGrid? (d : Dyadic) (k : Int) : Option Nat :=
  let c := d.floorAt k
  match d.reads k c, d.reads k (c + 1) with
  | true, true => some (if d.upperNearer k then c + 1 else c)
  | true, false => some c
  | false, true => some (c + 1)
  | false, false => none

/-- The finest grid ever needed: the number itself is one of its points. -/
def finest (d : Dyadic) : Int :=
  min (d.exponent - 2) 0

/-- A grid so coarse that its first point lies above the interval. -/
def coarsest (d : Dyadic) : Int :=
  (d.exponent + Nat.log2 d.highQuarters) * 30103 / 100000 + 2

/-- Search from the grid `finest + n` downwards. -/
def descend (d : Dyadic) : Nat → Nat × Int
  | 0 => (d.floorAt d.finest, d.finest)
  | n + 1 =>
      match d.onGrid? (d.finest + (n + 1)) with
      | some c => (c, d.finest + (n + 1))
      | none => d.descend n

/-- Digits `c` and exponent `k` of the shortest decimal `c * 10 ^ k`. -/
def shortest (d : Dyadic) : Nat × Int :=
  d.descend (d.coarsest - d.finest).toNat

end Dyadic

/-- The number `digits * 10 ^ exponent` without an exponent mark. -/
def positional (digits : Nat) (exponent : Int) : String :=
  let ds := Nat.toDigits 10 digits
  let places := (-exponent).toNat
  if 0 ≤ exponent then
    String.ofList (ds ++ List.replicate exponent.toNat '0')
  else if places < ds.length then
    String.ofList (ds.take (ds.length - places) ++ '.' :: ds.drop (ds.length - places))
  else
    String.ofList ('0' :: '.' :: (List.replicate (places - ds.length) '0' ++ ds))

end Decimal
end SignalFlow
