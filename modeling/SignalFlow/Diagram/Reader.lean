import SignalFlow.Diagram.Basic
import SignalFlow.Json.Reader

/-!
# Reading diagrams

A diagram is a JSON record of a name, blocks and signals.  Blocks need an identifier, a
name and a type; signals need an identifier and two pins.
-/

namespace SignalFlow

open Json (Value)

/-- Parameters: an object of texts, of which the last with a name counts. -/
def Parameters.ofValue? (v : Value) : Option Parameters :=
  (v.members?.bind fun ms => ms.mapM fun m => m.2.text?.map fun text =>
    (m.1, text)).map Parameters.ofList

namespace Block

/-- A block. -/
def ofValue? (v : Value) : Option Block :=
  match v.record? ["id", "name", "type", "inputs", "outputs", "params"] with
  | some [some id, some name, some type, inputs, outputs, params] => do
      let id ← id.nat? Text.idLimit
      let name ← name.text?
      let type ← type.text?
      let inputs ← Value.fieldOr? 0 (Value.nat? Text.idLimit) inputs
      let outputs ← Value.fieldOr? 0 (Value.nat? Text.idLimit) outputs
      let params ← Value.fieldOr? [] Parameters.ofValue? params
      return ⟨id, name, type, inputs, outputs, params⟩
  | _ => none

end Block

namespace Pin

/-- A pin. -/
def ofValue? (v : Value) : Option Pin :=
  match v.record? ["block", "port"] with
  | some [some block, some index] => do
      let block ← block.nat? Text.idLimit
      let index ← index.nat? Text.idLimit
      return ⟨block, index⟩
  | _ => none

end Pin

namespace Signal

/-- A signal. -/
def ofValue? (v : Value) : Option Signal :=
  match v.record? ["id", "src", "dst"] with
  | some [some id, some source, some target] => do
      let id ← id.nat? Text.idLimit
      let source ← Pin.ofValue? source
      let target ← Pin.ofValue? target
      return ⟨id, source, target⟩
  | _ => none

end Signal

namespace Diagram

/-- A diagram. -/
def ofValue? (v : Value) : Option Diagram :=
  match v.record? ["name", "blocks", "signals"] with
  | some [some name, blocks, signals] => do
      let name ← name.text?
      let blocks ← Value.fieldOr? []
        (fun v => v.elements?.bind (·.mapM Block.ofValue?)) blocks
      let signals ← Value.fieldOr? []
        (fun v => v.elements?.bind (·.mapM Signal.ofValue?)) signals
      return ⟨name, blocks, signals⟩
  | _ => none

/-- Read a diagram. -/
def read? (text : String) : Option Diagram :=
  (Value.read? text).bind ofValue?

end Diagram
end SignalFlow
