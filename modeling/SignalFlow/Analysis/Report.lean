import SignalFlow.Analysis.Basic

/-!
# Reports

The text report lists what names are defined by, and then what remains to be shown.  The
JSON report adds the facts on every edge, the loops, all diagnostics, and digests of the
inputs.
-/

namespace SignalFlow

/-- Version of the program. -/
def version : String :=
  "0.3.0"

/-- Digests that tell which inputs an analysis was made from. -/
structure Provenance where
  source : String
  limits : String
  deriving Repr, DecidableEq

/-- The provenance of a source text and limits. -/
def Provenance.of (source : String) (l : Limits) : Provenance :=
  ⟨Digest.ofText source, l.fingerprint⟩

namespace LoopOutcome

variable {R : Type} [Scalar R]

/-- Text of an outcome. -/
def render : LoopOutcome R → String
  | .fixpoint rounds p => "fixpoint after " ++ toString rounds ++ " rounds: " ++ p.render
  | .sign rounds (some p) =>
      "sign fallback after " ++ toString rounds ++ " rounds: " ++ p.render
  | .sign rounds none => "no fact after " ++ toString rounds ++ " rounds"
  | .failed cause => "failed: " ++ cause.message
  | .unsimulated => "unsimulated"

end LoopOutcome

namespace Analysis

variable {R : Type} [Scalar R]

/-- What remains to be shown, as it stands in the model, or else in the graph. -/
def remaining (a : Analysis R) : List (Formula R) :=
  match a.model, a.graph with
  | some m, _ => m.properties
  | none, some g => g.obligations
  | none, none => []

/-- The terms that names are defined by, each once. -/
def definingTerms (a : Analysis R) : List String :=
  distinct ((a.definitions.flatMap Definition.bodies).map Term.render)

/-- Lines with their ends. -/
def joinLines (lines : List String) : String :=
  String.join (lines.map fun line => line ++ "\n")

/-- The text report. -/
def textReport (a : Analysis R) : String :=
  joinLines (a.definingTerms ++ "to-be-shown:" :: a.remaining.map Formula.render)

/-- Texts as a document. -/
def textList (texts : List String) : Json.Document :=
  .list (texts.map .text)

/-- An edge with its facts as a document. -/
def edgeDocument (e : Edge R) : Json.Document :=
  .record
    [("signal", .int e.signal), ("var", .text e.var),
      ("facts", textList ((e.facts.filter fun p => !p.isNoInformation).map Fact.render))]

/-- A loop as a document. -/
def loopDocument (l : LoopRecord R) : Json.Document :=
  .record
    [("members", .list (l.members.map fun (id : BlockId) => Json.Document.int id)),
      ("representative", match l.representative with
        | some id => .int id
        | none => .null),
      ("outcome", .text l.outcome.render)]

/-- The report as a document. -/
def document (a : Analysis R) (name : String) (origin : Option Provenance) :
    Json.Document :=
  let edges := (a.graph.map FlowGraph.edges).getD []
  let equalities := (a.graph.map FlowGraph.equalities).getD []
  let digests := match origin with
    | some p =>
        [("source_sha256", Json.Document.text p.source), ("config_sha256", .text p.limits)]
    | none => []
  .record
    ([("model", .text name), ("translator_version", .text version)] ++ digests
      ++ [("edges", .list (edges.map edgeDocument)),
        ("obligations", textList (a.remaining.map Formula.render)),
        ("data_equalities", textList (equalities.map Relation.render)),
        ("macros", textList (a.definitions.map Definition.render)),
        ("loops", .list (a.loops.map loopDocument)),
        ("diagnostics", textList (a.diagnostics.map Diagnostic.render))])

/-- The JSON report. -/
def jsonReport (a : Analysis R) (name : String) (origin : Option Provenance) : String :=
  (a.document name origin).pretty

end Analysis
end SignalFlow
