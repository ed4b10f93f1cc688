import SignalFlow.Assumption.Basic
import SignalFlow.Markup.Element
import SignalFlow.Text.Natural

/-!
# Reading assumptions

Assumptions are written in markup: blocks, output pins inside them, and statements inside
those.
-/

namespace SignalFlow
namespace Assumptions

open Markup (Element)

/-- Why a well-formed document does not describe assumptions. -/
inductive Fault where
  | wrongRoot (name : String)
  | noSelector
  | badId (text : String)
  | badIndex
  | unexpectedInPin (name : String)
  | unexpectedInFact (name : String)
  | noConsequence
  | noValue
  | unknownRelation (text : String)
  deriving Repr, DecidableEq

/-- Why a document was refused. -/
inductive Error where
  /-- The text is not a markup document. -/
  | malformed
  | invalid (fault : Fault)
  deriving Repr, DecidableEq

/-- Wording of a fault. -/
def Fault.message : Fault → String
  | .wrongRoot name => "root element is <" ++ name ++ ">, expected <invariants>"
  | .noSelector => "<block> needs an id or a name"
  | .badId text => "block id '" ++ text ++ "' is not a number"
  | .badIndex => "<port> needs a 1-based index"
  | .unexpectedInPin name => "unexpected <" ++ name ++ "> inside <port>"
  | .unexpectedInFact name => "unexpected <" ++ name ++ "> inside a fact"
  | .noConsequence => "<control> without a consequent"
  | .noValue => "<equality> without a value"
  | .unknownRelation text => "unknown relation '" ++ text ++ "'"

/-- Wording of a refusal. -/
def Error.message : Error → String
  | .malformed => "side-input syntax error"
  | .invalid fault => "invalid side input: " ++ fault.message

variable {R : Type} [Scalar R]

/-- The term a value stands for: a literal, or a variable named by the text. -/
def valueTerm (text : String) : Term R :=
  let text := Text.trim text
  match Scalar.read? text with
  | some v => .num v
  | none => .var text

/-- The bound a text stands for; empty and infinite ones are no bounds. -/
def boundTerm? (text : String) : Option (Term R) :=
  let text := Text.trim text
  if text == "" then none
  else match Scalar.read? text with
    | some v => if Scalar.isFinite v then some (.num v) else none
    | none => some (.var text)

/-- Whether an attribute is switched on. -/
def isOn (e : Element) (key : String) : Bool :=
  match e.attribute? key with
  | some text => text == "true" || text == "1" || text == "on"
  | none => false

/-- One side of an interval. -/
def bound? (e : Element) (key strictKey : String) : Option (Bound R) :=
  ((e.attribute? key).bind boundTerm?).map fun t => ⟨t, isOn e strictKey⟩

/-- An interval or a comparison. -/
def atom (e : Element) : Except Fault (Atom R) :=
  if e.name == "interval" then
    .ok ⟨e.attribute? "term", .interval (bound? e "lower" "lowerStrict")
      (bound? e "upper" "upperStrict")⟩
  else if e.name == "equality" then
    match e.attribute? "value" with
    | none => .error .noValue
    | some text =>
        let op := (e.attribute? "op").getD "="
        match Comparison.ofSymbol? op with
        | none => .error (.unknownRelation op)
        | some c => .ok ⟨e.attribute? "term", .compare c (valueTerm text)⟩
  else .error (.unexpectedInFact e.name)

/-- The atoms inside an element. -/
def atoms (e : Element) : Except Fault (List (Atom R)) :=
  e.children.mapM atom

/-- The atoms inside the first child with a name. -/
def part (e : Element) (name : String) : Except Fault (List (Atom R)) :=
  match (e.childrenNamed name).head? with
  | some child => atoms child
  | none => .ok []

/-- The statements of an element inside a pin. -/
def statements (e : Element) : Except Fault (List (Statement R)) :=
  if e.name == "disjunction" then (atoms e).map fun as => [.signal as]
  else if e.name == "conjunction" then (atoms e).map fun as => as.map fun a => .signal [a]
  else if e.name == "control" then do
    let conditions ← part e "antecedent"
    let consequences ← part e "consequent"
    if consequences.isEmpty then .error .noConsequence
    else .ok [.control conditions consequences]
  else if e.name == "interval" || e.name == "equality" then (atom e).map fun a =>
    [.signal [a]]
  else .error (.unexpectedInPin e.name)

/-- Number of a pin, at least one. -/
def index? (e : Element) : Option Nat :=
  ((e.attribute? "index").bind fun text =>
    Text.readNat? Text.idLimit (Text.trim text)).filter
    fun i => 1 ≤ i

/-- A pin with its statements. -/
def pin (e : Element) : Except Fault (PinAssumption R) :=
  match index? e with
  | none => .error .badIndex
  | some i => (e.children.mapM statements).map fun ss => ⟨i, ss.flatten⟩

/-- The block an element selects. -/
def selector (e : Element) : Except Fault Selector :=
  match e.attribute? "id", e.attribute? "name" with
  | some text, _ =>
      match Text.readNat? Text.idLimit (Text.trim text) with
      | some id => .ok (.id id)
      | none => .error (.badId text)
  | none, some name => .ok (.name (Block.normalizeName name))
  | none, none => .error .noSelector

/-- A block with its pins. -/
def block (e : Element) : Except Fault (BlockAssumption R) := do
  let s ← selector e
  let pins ← (e.childrenNamed "port").mapM pin
  return ⟨s, pins⟩

/-- The assumptions of a document. -/
def ofElement (e : Element) : Except Fault (Assumptions R) :=
  if e.name == "invariants" then (e.childrenNamed "block").mapM block
  else .error (.wrongRoot e.name)

/-- Read assumptions. -/
def read (text : String) : Except Error (Assumptions R) :=
  match Element.read? text with
  | none => .error .malformed
  | some e => (ofElement e).mapError .invalid

end Assumptions
end SignalFlow
