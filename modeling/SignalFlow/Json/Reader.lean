import SignalFlow.Json.Value

/-!
# Reading JSON

A reader takes a value off the front of the text and returns what is left.  Nesting is
followed down to the depth `fuel`; a text cannot nest deeper than it is long.
-/

namespace SignalFlow
namespace Json

/-- Blanks between tokens. -/
def isSpace (c : Char) : Bool :=
  c = ' ' || c = '\n' || c = '\t' || c = '\r'

/-- Drop leading blanks. -/
def skip (cs : List Char) : List Char :=
  cs.dropWhile isSpace

/-- The inside of a string up to its closing quote, escapes kept, and what follows. -/
def scanString? : List Char → Option (List Char × List Char)
  | [] => none
  | '"' :: rest => some ([], rest)
  | '\\' :: 'u' :: a :: b :: c :: d :: rest =>
      if (hex4? a b c d).isNone then none
      else (scanString? rest).map fun s => ('\\' :: 'u' :: a :: b :: c :: d :: s.1, s.2)
  | '\\' :: c :: rest =>
      if (escaped? c).isNone then none
      else (scanString? rest).map fun s => ('\\' :: c :: s.1, s.2)
  | c :: rest =>
      if c.toNat < 0x20 || c = '\\' then none
      else (scanString? rest).map fun s => (c :: s.1, s.2)

/-- At least one digit, and what follows. -/
def scanDigits? (cs : List Char) : Option (List Char × List Char) :=
  match cs.takeWhile Char.isDigit with
  | [] => none
  | ds => some (ds, cs.dropWhile Char.isDigit)

/-- The whole part of a number: a zero, or digits that start with another one. -/
def scanWhole? : List Char → Option (List Char × List Char)
  | '0' :: rest => some (['0'], rest)
  | cs => scanDigits? cs

/-- An optional fraction. -/
def scanFraction? : List Char → Option (List Char × List Char)
  | '.' :: rest => (scanDigits? rest).map fun s => ('.' :: s.1, s.2)
  | cs => some ([], cs)

/-- An optional exponent. -/
def scanExponent? : List Char → Option (List Char × List Char)
  | c :: rest =>
      if c = 'e' || c = 'E' then
        match rest with
        | '+' :: rest => (scanDigits? rest).map fun s => (c :: '+' :: s.1, s.2)
        | '-' :: rest => (scanDigits? rest).map fun s => (c :: '-' :: s.1, s.2)
        | rest => (scanDigits? rest).map fun s => (c :: s.1, s.2)
      else some ([], c :: rest)
  | [] => some ([], [])

/-- A number without its sign. -/
def scanMagnitude? (cs : List Char) : Option (List Char × List Char) :=
  (scanWhole? cs).bind fun whole =>
    (scanFraction? whole.2).bind fun fraction =>
      (scanExponent? fraction.2).map fun exponent =>
        (whole.1 ++ fraction.1 ++ exponent.1, exponent.2)

/-- A number. -/
def scanNumber? : List Char → Option (List Char × List Char)
  | '-' :: rest => (scanMagnitude? rest).map fun s => ('-' :: s.1, s.2)
  | cs => scanMagnitude? cs

mutual

/-- One value. -/
def scanValue? : Nat → List Char → Option (Value × List Char)
  | 0, _ => none
  | fuel + 1, cs =>
      match skip cs with
      | 'n' :: 'u' :: 'l' :: 'l' :: rest => some (.null, rest)
      | 't' :: 'r' :: 'u' :: 'e' :: rest => some (.bool true, rest)
      | 'f' :: 'a' :: 'l' :: 's' :: 'e' :: rest => some (.bool false, rest)
      | '"' :: rest => (scanString? rest).map fun s => (.string s.1, s.2)
      | '[' :: rest =>
          match skip rest with
          | ']' :: rest => some (.array [], rest)
          | rest => (scanElements? fuel rest).map fun s => (.array s.1, s.2)
      | '\x7b' :: rest =>
          match skip rest with
          | '\x7d' :: rest => some (.object [], rest)
          | rest => (scanMembers? fuel rest).map fun s => (.object s.1, s.2)
      | rest => (scanNumber? rest).map fun s => (.number s.1, s.2)

/-- The elements of an array up to its closing bracket, at least one. -/
def scanElements? : Nat → List Char → Option (List Value × List Char)
  | 0, _ => none
  | fuel + 1, cs =>
      match scanValue? fuel cs with
      | none => none
      | some (v, rest) =>
          match skip rest with
          | ',' :: rest => (scanElements? fuel rest).map fun s => (v :: s.1, s.2)
          | ']' :: rest => some ([v], rest)
          | _ => none

/-- The members of an object up to its closing brace, at least one. -/
def scanMembers? : Nat → List Char → Option (List (List Char × Value) × List Char)
  | 0, _ => none
  | fuel + 1, cs =>
      match skip cs with
      | '"' :: rest =>
          match scanString? rest with
          | none => none
          | some (key, rest) =>
              match skip rest with
              | ':' :: rest =>
                  match scanValue? fuel rest with
                  | none => none
                  | some (v, rest) =>
                      match skip rest with
                      | ',' :: rest =>
                          (scanMembers? fuel rest).map fun s => ((key, v) :: s.1, s.2)
                      | '\x7d' :: rest => some ([(key, v)], rest)
                      | _ => none
              | _ => none
      | _ => none

end

/-- Read a whole text as one value with nothing but blanks around it. -/
def Value.read? (text : String) : Option Value :=
  let cs := text.toList
  match scanValue? (2 * cs.length + 2) cs with
  | some (v, rest) => if (skip rest).isEmpty then some v else none
  | none => none

end Json
end SignalFlow
