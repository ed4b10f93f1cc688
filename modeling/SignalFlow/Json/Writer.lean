/-!
# Writing JSON

Documents that are written hold texts, integers, lists and records.  They are laid out with
an indentation of two spaces, or on one line without any blank.
-/

namespace SignalFlow
namespace Json

/-- A document to be written. -/
inductive Document where
  | null
  | int (value : Int)
  | text (value : String)
  | list (elements : List Document)
  | record (fields : List (String × Document))

/-- A hexadecimal digit. -/
def hexChar (n : Nat) : Char :=
  if n < 10 then Char.ofNat ('0'.toNat + n) else Char.ofNat ('a'.toNat + (n - 10))

/-- A character inside a string. -/
def escapeChar (c : Char) : List Char :=
  if c = '"' then ['\\', '"']
  else if c = '\\' then ['\\', '\\']
  else if c = '\x08' then ['\\', 'b']
  else if c = '\x0c' then ['\\', 'f']
  else if c = '\n' then ['\\', 'n']
  else if c = '\r' then ['\\', 'r']
  else if c = '\t' then ['\\', 't']
  else if c.toNat < 0x20 then
    ['\\', 'u', '0', '0', hexChar (c.toNat / 16), hexChar (c.toNat % 16)]
  else [c]

/-- A text in quotes. -/
def quote (text : String) : String :=
  "\"" ++ String.ofList (text.toList.flatMap escapeChar) ++ "\""

/-- A line break followed by the indentation of a level. -/
def newline (level : Nat) : String :=
  "\n" ++ String.ofList (List.replicate (2 * level) ' ')

namespace Document

mutual

/-- The document with every element on a line of its own. -/
def prettyAt (level : Nat) : Document → String
  | .null => "null"
  | .int i => toString i
  | .text t => quote t
  | .list [] => "[]"
  | .list (d :: ds) =>
      "[" ++ newline (level + 1) ++ prettyAt (level + 1) d ++ prettyElements (level + 1) ds
        ++ newline level ++ "]"
  | .record [] => "\x7b\x7d"
  | .record ((k, d) :: fs) =>
      "\x7b" ++ newline (level + 1) ++ quote k ++ ": " ++ prettyAt (level + 1) d
        ++ prettyFields (level + 1) fs ++ newline level ++ "\x7d"

/-- The elements after the first. -/
def prettyElements (level : Nat) : List Document → String
  | [] => ""
  | d :: ds => "," ++ newline level ++ prettyAt level d ++ prettyElements level ds

/-- The fields after the first. -/
def prettyFields (level : Nat) : List (String × Document) → String
  | [] => ""
  | (k, d) :: fs =>
      "," ++ newline level ++ quote k ++ ": " ++ prettyAt level d ++ prettyFields level fs

end

/-- The document over several lines. -/
def pretty (d : Document) : String :=
  prettyAt 0 d

mutual

/-- The document on one line. -/
def compact : Document → String
  | .null => "null"
  | .int i => toString i
  | .text t => quote t
  | .list ds => "[" ++ String.intercalate "," (compactElements ds) ++ "]"
  | .record fs => "\x7b" ++ String.intercalate "," (compactFields fs) ++ "\x7d"

/-- The elements on one line. -/
def compactElements : List Document → List String
  | [] => []
  | d :: ds => compact d :: compactElements ds

/-- The fields on one line. -/
def compactFields : List (String × Document) → List String
  | [] => []
  | (k, d) :: fs => (quote k ++ ":" ++ compact d) :: compactFields fs

end

end Document
end Json
end SignalFlow
