import SignalFlow.Decimal.Numeral

/-!
# Natural numbers in text

An optional plus sign and at least one digit; numbers at or above a limit are refused.
-/

namespace SignalFlow
namespace Text

/-- Digits only, at least one, with a value below `limit`. -/
def readDigits? (limit : Nat) (cs : List Char) : Option Nat :=
  if cs.isEmpty || !cs.all Char.isDigit then none
  else if Decimal.digitsValue cs < limit then some (Decimal.digitsValue cs)
  else none

/-- Read a natural number below `limit`. -/
def readNat? (limit : Nat) (text : String) : Option Nat :=
  match text.toList with
  | '+' :: cs => readDigits? limit cs
  | cs => readDigits? limit cs

/-- Identifiers and pin numbers have 32 bits. -/
def idLimit : Nat :=
  1 <<< 32

/-- Counts and indices have 64 bits. -/
def countLimit : Nat :=
  1 <<< 64

end Text
end SignalFlow
