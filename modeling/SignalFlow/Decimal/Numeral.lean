/-!
# Numerals

The grammar of numerals: an optional sign, then either a word for an infinite or undefined
value in any case of letters, or digits with at most one point and an optional exponent.
-/

namespace SignalFlow
namespace Decimal

/-- What a numeral denotes. -/
inductive Numeral where
  /-- The number `digits * 10 ^ exponent`, negated if `negative`. -/
  | finite (negative : Bool) (digits : Nat) (exponent : Int)
  | infinite (negative : Bool)
  | undefined
  deriving Repr, DecidableEq

/-- Value of a list of decimal digits. -/
def digitsValue (cs : List Char) : Nat :=
  cs.foldl (fun n c => 10 * n + (c.toNat - '0'.toNat)) 0

/-- Split a leading sign off. -/
def splitSign : List Char → Bool × List Char
  | '-' :: cs => (true, cs)
  | '+' :: cs => (false, cs)
  | cs => (false, cs)

/-- The exponent after its mark: a sign and at least one digit. -/
def readExponent? (cs : List Char) : Option Int :=
  let (negative, ds) := splitSign cs
  if ds.isEmpty || !ds.all Char.isDigit then none
  else some (if negative then -(digitsValue ds : Int) else digitsValue ds)

/-- An optional exponent at the end of a numeral. -/
def readExponentPart? : List Char → Option Int
  | [] => some 0
  | c :: cs => if c = 'e' || c = 'E' then readExponent? cs else none

/-- Digits with at most one point, then an optional exponent. -/
def readUnsigned? (negative : Bool) (cs : List Char) : Option Numeral :=
  let whole := cs.takeWhile Char.isDigit
  let (fraction, rest) :=
    match cs.dropWhile Char.isDigit with
    | '.' :: r => (r.takeWhile Char.isDigit, r.dropWhile Char.isDigit)
    | r => ([], r)
  if whole.isEmpty && fraction.isEmpty then none
  else
    (readExponentPart? rest).map fun e =>
      .finite negative (digitsValue (whole ++ fraction)) (e - fraction.length)

/-- Read a whole text as a numeral. -/
def Numeral.read? (text : String) : Option Numeral :=
  let (negative, cs) := splitSign text.toList
  let word := String.ofList (cs.map Char.toLower)
  if word = "inf" || word = "infinity" then some (.infinite negative)
  else if word = "nan" then some .undefined
  else readUnsigned? negative cs

end Decimal
end SignalFlow
