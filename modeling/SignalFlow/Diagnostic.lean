/-!
# Diagnostics

What an analysis has to report besides its result.  Diagnostics never stop an analysis.
-/

namespace SignalFlow

/-- Severity of a diagnostic. -/
inductive Severity where
  | error
  | warning
  deriving Repr, DecidableEq

/-- Kinds of findings. -/
inductive Finding where
  /-- The flow graph has another number of nodes than the diagram has blocks. -/
  | nodeCount
  /-- The flow graph has another number of edges than the diagram has signals. -/
  | edgeCount
  /-- Definitions depend on each other in a circle. -/
  | definitionCycle
  /-- A name has two definitions. -/
  | definitionConflict
  /-- A loop contains blocks that cannot be simulated. -/
  | loopNotSimulable
  /-- The simulation of a loop failed. -/
  | loopFailed
  /-- The simulation of a loop ran out of rounds. -/
  | loopOutOfRounds
  /-- A block of unknown type cannot be encoded. -/
  | notEncodable
  /-- No rule is known for a block of unknown type. -/
  | noTransferRule
  deriving Repr, DecidableEq

namespace Finding

/-- The stable code of a finding. -/
def code : Finding → String
  | .nodeCount => "E0101"
  | .edgeCount => "E0102"
  | .definitionCycle => "E0201"
  | .definitionConflict => "E0202"
  | .loopNotSimulable => "W0301"
  | .loopFailed => "W0302"
  | .loopOutOfRounds => "W0303"
  | .notEncodable => "W0401"
  | .noTransferRule => "W0402"

/-- All findings. -/
def all : List Finding :=
  [.nodeCount, .edgeCount, .definitionCycle, .definitionConflict, .loopNotSimulable,
    .loopFailed, .loopOutOfRounds, .notEncodable, .noTransferRule]

/-- The finding with a code. -/
def ofCode? (text : String) : Option Finding :=
  all.find? fun x => x.code == text

end Finding

/-- A message with its severity, and with a finding, a block and a hint where there are
any. -/
structure Diagnostic where
  severity : Severity
  message : String
  finding : Option Finding := none
  block : Option Nat := none
  hint : Option String := none
  deriving Repr, DecidableEq

namespace Diagnostic

/-- An error. -/
def error (finding : Finding) (message : String) : Diagnostic :=
  { severity := .error, message := message, finding := some finding }

/-- A warning. -/
def warning (finding : Finding) (message : String) : Diagnostic :=
  { severity := .warning, message := message, finding := some finding }

/-- The diagnostic with a hint. -/
def withHint (d : Diagnostic) (hint : String) : Diagnostic :=
  { d with hint := some hint }

/-- The diagnostic about a block. -/
def atBlock (d : Diagnostic) (block : Nat) : Diagnostic :=
  { d with block := some block }

/-- Text of a diagnostic. -/
def render (d : Diagnostic) : String :=
  let severity := match d.severity with
    | .error => "error"
    | .warning => "warning"
  let code := match d.finding with
    | some x => "[" ++ x.code ++ "]"
    | none => ""
  let place := match d.block with
    | some id => " (block b" ++ toString id ++ ")"
    | none => ""
  let hint := match d.hint with
    | some text => "\n  hint: " ++ text
    | none => ""
  severity ++ code ++ ": " ++ d.message ++ place ++ hint

/-- Whether one of the diagnostics is an error. -/
def anyError (ds : List Diagnostic) : Bool :=
  ds.any fun d => d.severity == .error

end Diagnostic
end SignalFlow
