import SignalFlow.Diagram.Kind
import SignalFlow.Text.Blank
import SignalFlow.Text.Natural

/-!
# Blocks

A block has an identifier, a name, a type tag, numbers of input and output pins, and
parameters that are texts.  The variables that stand for its outputs are named after it.
-/

namespace SignalFlow

/-- Identifies a block of a diagram. -/
abbrev BlockId := Nat

/-- Parameter texts by name, in the order of the names. -/
abbrev Parameters := List (String × String)

/-- Set a parameter. -/
def Parameters.insert (key value : String) : Parameters → Parameters
  | [] => [(key, value)]
  | (k, v) :: rest =>
      if key < k then (key, value) :: (k, v) :: rest
      else if key == k then (key, value) :: rest
      else (k, v) :: Parameters.insert key value rest

/-- The parameters of a list of settings, of which later ones win. -/
def Parameters.ofList (settings : List (String × String)) : Parameters :=
  settings.foldl (fun ps kv => Parameters.insert kv.1 kv.2 ps) []

/-- A block of a diagram. -/
structure Block where
  id : BlockId
  name : String
  type : String
  inputs : Nat
  outputs : Nat
  params : Parameters
  deriving Repr, DecidableEq, Inhabited

namespace Block

/-- ASCII letters and digits. -/
def isWordChar (c : Char) : Bool :=
  c.isAlphanum

/-- The text of a parameter, without blanks at its ends. -/
def param? (b : Block) (key : String) : Option String :=
  (b.params.lookup key).map Text.trim

/-- Whether a parameter is switched on. -/
def isOn (b : Block) (key : String) : Bool :=
  match b.param? key with
  | some text => text == "on" || text == "true" || text == "1"
  | none => false

/-- Name for all variables of the block: letters, digits and underscores, not starting with
a digit. -/
def varBase (b : Block) : String :=
  let base := b.name.toList.map fun c => if isWordChar c then c else '_'
  match base with
  | [] => "b"
  | c :: _ => String.ofList (if c.isDigit then 'b' :: base else base)

/-- The variable of an output pin; a single output has no number.  Pins are counted from
one here, in 32 bits. -/
def outputVar (b : Block) (pin : Nat) : String :=
  if b.outputs ≤ 1 then b.varBase ++ "_out"
  else b.varBase ++ "_out" ++ toString ((pin + 1) % Text.idLimit)

/-- A name in the form in which names are compared: lower case, with underscores for
blanks. -/
def normalizeName (name : String) : String :=
  String.ofList
    ((Text.trimList name.toList).map fun c => if Text.isBlank c then '_' else c.toLower)

/-- The name of the block in the form in which names are compared. -/
def normalizedName (b : Block) : String :=
  normalizeName b.name

end Block
end SignalFlow
