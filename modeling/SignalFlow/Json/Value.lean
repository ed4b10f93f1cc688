import SignalFlow.Text.Natural

/-!
# JSON documents

A document is first read as written: strings keep their escapes and numbers their digits.
What a string or a number means is settled only where a value is used, so a part that
nobody looks at needs correct shape and nothing more.
-/

namespace SignalFlow
namespace Json

/-- A value as written. -/
inductive Value where
  | null
  | bool (value : Bool)
  | number (text : List Char)
  | string (text : List Char)
  | array (elements : List Value)
  | object (members : List (List Char × Value))

/-- Value of a hexadecimal digit. -/
def hexDigit? (c : Char) : Option Nat :=
  if '0' ≤ c && c ≤ '9' then some (c.toNat - '0'.toNat)
  else if 'a' ≤ c && c ≤ 'f' then some (c.toNat - 'a'.toNat + 10)
  else if 'A' ≤ c && c ≤ 'F' then some (c.toNat - 'A'.toNat + 10)
  else none

/-- Value of four hexadecimal digits. -/
def hex4? (a b c d : Char) : Option Nat :=
  match hexDigit? a, hexDigit? b, hexDigit? c, hexDigit? d with
  | some w, some x, some y, some z => some (((w * 16 + x) * 16 + y) * 16 + z)
  | _, _, _, _ => none

/-- The character after a backslash, other than `u`. -/
def escaped? (c : Char) : Option Char :=
  match c with
  | '"' => some '"'
  | '\\' => some '\\'
  | '/' => some '/'
  | 'b' => some '\x08'
  | 'f' => some '\x0c'
  | 'n' => some '\n'
  | 'r' => some '\r'
  | 't' => some '\t'
  | _ => none

/-- First half of a character written as a pair of escapes. -/
def isHighHalf (n : Nat) : Bool :=
  0xD800 ≤ n && n ≤ 0xDBFF

/-- Second half of a character written as a pair of escapes. -/
def isLowHalf (n : Nat) : Bool :=
  0xDC00 ≤ n && n ≤ 0xDFFF

/-- The characters a string stands for; halves of characters must come in pairs. -/
def decode? : List Char → Option (List Char)
  | [] => some []
  | '\\' :: 'u' :: a :: b :: c :: d :: rest =>
      match hex4? a b c d with
      | none => none
      | some high =>
          if isHighHalf high then
            match rest with
            | '\\' :: 'u' :: a :: b :: c :: d :: rest =>
                match hex4? a b c d with
                | none => none
                | some low =>
                    if isLowHalf low then
                      (decode? rest).map
                        (Char.ofNat (0x10000 + (high - 0xD800) * 0x400 +
                          (low - 0xDC00)) :: ·)
                    else none
            | _ => none
          else if isLowHalf high then none
          else (decode? rest).map (Char.ofNat high :: ·)
  | '\\' :: c :: rest =>
      match escaped? c with
      | none => none
      | some e => (decode? rest).map (e :: ·)
  | c :: rest => (decode? rest).map (c :: ·)

namespace Value

/-- The text of a string. -/
def text? : Value → Option String
  | .string raw => (decode? raw).map String.ofList
  | _ => none

/-- A natural number below `limit`, written with digits only. -/
def nat? (limit : Nat) : Value → Option Nat
  | .number raw => Text.readDigits? limit raw
  | _ => none

/-- An integer of 64 bits; a negative one is not zero. -/
def int64? : Value → Option Int
  | .number ('-' :: raw) =>
      match Text.readDigits? (1 <<< 63 + 1) raw with
      | some (n + 1) => some (-(n + 1 : Int))
      | _ => none
  | .number raw => (Text.readDigits? (1 <<< 63) raw).map Int.ofNat
  | _ => none

/-- The elements of an array. -/
def elements? : Value → Option (List Value)
  | .array vs => some vs
  | _ => none

/-- The members of an object with their keys decoded. -/
def members? : Value → Option (List (String × Value))
  | .object ms => ms.mapM fun m => (decode? m.1).map fun key => (String.ofList key, m.2)
  | _ => none

/-- The only member with the given key; `none` if there are several. -/
def unique? (key : String) (ms : List (String × Value)) : Option (Option Value) :=
  match ms.filter (fun m => m.1 == key) with
  | [] => some none
  | [m] => some (some m.2)
  | _ => none

/-- The fields of a record, absent ones as `none`.  A record is written as an object, whose
other members are passed over, or as an array of its fields in order. -/
def record? (keys : List String) : Value → Option (List (Option Value))
  | .array vs =>
      if keys.length < vs.length then none
      else some (vs.map some ++ List.replicate (keys.length - vs.length) none)
  | v => v.members?.bind fun ms => keys.mapM fun key => unique? key ms

/-- An optional field of a record, or its usual value. -/
def fieldOr? {α : Type} (usual : α) (read? : Value → Option α) : Option Value → Option α
  | none => some usual
  | some v => read? v

end Value
end Json
end SignalFlow
