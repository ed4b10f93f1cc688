import SignalFlow.Diagram.Block
import SignalFlow.Formula.Basic
import SignalFlow.Text.Natural

/-!
# Parameters of blocks

How the parameter texts of a block are understood: as numbers, as terms, as lists of
operators, and as the guard of a switch.
-/

namespace SignalFlow
namespace Block

section Numbers

variable {R : Type} [Scalar R]

/-- A parameter that is a numeral. -/
def scalar? (b : Block) (key : String) : Option R :=
  (b.param? key).bind Scalar.read?

/-- A parameter that is a numeral, or `fallback` if it is absent or empty. -/
def scalarOr? (b : Block) (key : String) (fallback : R) : Option R :=
  match b.param? key with
  | none => some fallback
  | some text => if text == "" then some fallback else Scalar.read? text

/-- A parameter as a term: a literal, or a variable named by its text.  Empty texts are no
terms. -/
def paramTerm? (b : Block) (key : String) : Option (Term R) :=
  match b.param? key with
  | none => none
  | some text =>
      if text == "" || text == "[]" then none
      else match Scalar.read? text with
        | some v => some (.num v)
        | none => some (.var text)

/-- The parameters an initial state is looked for in. -/
def initialKeys : List String :=
  ["InitialCondition", "X0", "InitialValue"]

/-- The parameter that gives the initial state. -/
def initialKey? (b : Block) : Option String :=
  initialKeys.find? fun key => (b.param? key).isSome

/-- The initial state; zero if no parameter gives one, `none` if the parameter is no
numeral. -/
def initialValue? (b : Block) : Option R :=
  match b.initialKey? with
  | some key => b.scalar? key
  | none => some 0

end Numbers

/-- Whether the block stands for each input inverted, by the operators written in `spec`.
Bars are passed over.  A count, and a list that is too short, too long or has other signs,
inverts nothing. -/
def invertedBy (b : Block) (plain inverse : Char) (spec : String) : List Bool :=
  let count := max b.inputs 1
  let ops := spec.toList.filter fun c => c != '|'
  if spec == "" || (Text.readNat? Text.countLimit spec).isSome || ops.length != count
      || ops.any (fun c => c != plain && c != inverse) then
    List.replicate count false
  else ops.map fun c => c == inverse

/-- The operators of a block, or those its type has without any. -/
def operators (b : Block) (tag usual : String) : String :=
  (b.param? "Inputs").getD (if b.type == tag then usual else "")

/-- For every input of a sum, whether it is subtracted. -/
def subtracted (b : Block) : List Bool :=
  b.invertedBy '+' '-' (b.operators "Subtract" "+-")

/-- For every input of a product, whether it is a divisor. -/
def divisors (b : Block) : List Bool :=
  b.invertedBy '*' '/' (b.operators "Divide" "*/")

/-- Whether a minimum or maximum block takes the maximum. -/
def takesMaximum (b : Block) : Bool :=
  match b.param? "Function" with
  | some text => String.ofList (text.toList.map Char.toLower) == "max"
  | none => false

/-- Whether `part` occurs in a list. -/
def occursIn (part : List Char) : List Char → Bool
  | [] => part.isEmpty
  | c :: cs => part.isPrefixOf (c :: cs) || occursIn part cs

/-- The condition on the control input under which a switch selects its first input. -/
def switchGuard {R : Type} [Scalar R] (b : Block) (control : Term R) : Formula R :=
  let criteria := ((b.param? "Criteria").getD "u2 >= Threshold").toList
  let threshold := (b.paramTerm? "Threshold").getD (.num 0)
  if occursIn ['~', '='] criteria then .compare control .ne (.num 0)
  else if occursIn ['>', '='] criteria then .compare control .ge threshold
  else if criteria.contains '>' then .compare control .gt threshold
  else .compare control .ge threshold

end Block
end SignalFlow
