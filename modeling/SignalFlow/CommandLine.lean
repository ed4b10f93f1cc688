import SignalFlow.Analysis.Drawing
import SignalFlow.Analysis.Report
import SignalFlow.Assumption.Reader
import SignalFlow.Diagram.Reader

/-!
# Command line

Arguments are read into a request.  A run takes the contents of the files it is given and
produces an output, a log and a number of errors; reading and writing files is left to the
caller.
-/

namespace SignalFlow
namespace CommandLine

/-- What is put out. -/
inductive Emission where
  /-- What names are defined by, and what remains to be shown. -/
  | report
  /-- Everything, with digests of the inputs. -/
  | json
  /-- A drawing of the flow graph. -/
  | dot
  /-- The hybrid model. -/
  | model
  deriving Repr, DecidableEq

/-- The emission with a name. -/
def Emission.ofName? (text : String) : Option Emission :=
  if text == "report" then some .report
  else if text == "json" then some .json
  else if text == "dot" then some .dot
  else if text == "model" then some .model
  else none

/-- Options that take a value. -/
inductive Slot where
  | assumptions
  | limits
  | output
  | emission
  deriving Repr, DecidableEq

/-- Arguments read so far. -/
structure Draft where
  model : Option String := none
  assumptions : Option String := none
  limits : Option String := none
  output : Option String := none
  emission : Option Emission := none
  verbose : Bool := false
  deriving Repr, DecidableEq

/-- Arguments of a run. -/
structure Invocation where
  model : String
  assumptions : Option String
  limits : Option String
  output : Option String
  emission : Emission
  verbose : Bool
  deriving Repr, DecidableEq

/-- What the arguments ask for. -/
inductive Request where
  | run (invocation : Invocation)
  | help (detailed : Bool)
  | version
  deriving Repr, DecidableEq

/-- Set a value that is not set yet and not empty. -/
def setOnce? (old : Option String) (text : String) : Option (Option String) :=
  if old.isSome || text == "" then none else some (some text)

namespace Draft

/-- Set an option. -/
def set? (d : Draft) (slot : Slot) (text : String) : Option Draft :=
  match slot with
  | .assumptions => (setOnce? d.assumptions text).map fun v => { d with assumptions := v }
  | .limits => (setOnce? d.limits text).map fun v => { d with limits := v }
  | .output => (setOnce? d.output text).map fun v => { d with output := v }
  | .emission =>
      if d.emission.isSome then none
      else (Emission.ofName? text).map fun e => { d with emission := some e }

/-- Set the diagram file. -/
def setModel? (d : Draft) (text : String) : Option Draft :=
  (setOnce? d.model text).map fun v => { d with model := v }

/-- The request, once all arguments are read. -/
def finish? (d : Draft) : Option Request :=
  d.model.map fun model =>
    .run ⟨model, d.assumptions, d.limits, d.output, d.emission.getD .report, d.verbose⟩

end Draft

/-- The option with a long name. -/
def longSlot? (name : String) : Option Slot :=
  if name == "side-input" then some .assumptions
  else if name == "config" then some .limits
  else if name == "output" then some .output
  else if name == "emit" then some .emission
  else none

/-- The option with a short name. -/
def shortSlot? (c : Char) : Option Slot :=
  if c = 's' then some .assumptions
  else if c = 'c' then some .limits
  else if c = 'o' then some .output
  else none

/-- How an argument is understood. -/
inductive Argument where
  | positional (text : String)
  /-- All arguments that follow are positional. -/
  | separator
  /-- An option whose value is the next argument. -/
  | option (slot : Slot)
  /-- An option with its value. -/
  | attached (slot : Slot) (text : String)
  | verbose
  | help (detailed : Bool)
  | version
  | unknown
  deriving Repr, DecidableEq

/-- Understand what follows two dashes. -/
def longArgument (cs : List Char) : Argument :=
  let name := String.ofList (cs.takeWhile fun c => c != '=')
  match cs.dropWhile fun c => c != '=' with
  | _ :: value =>
      match longSlot? name with
      | some slot => .attached slot (String.ofList value)
      | none => .unknown
  | [] =>
      match longSlot? name with
      | some slot => .option slot
      | none =>
          if name == "verbose" then .verbose
          else if name == "help" then .help true
          else if name == "version" then .version
          else .unknown

/-- Understand what follows one dash. -/
def shortArgument (c : Char) (rest : List Char) : Argument :=
  match shortSlot? c with
  | some slot =>
      match rest with
      | [] => .option slot
      | '=' :: value => .attached slot (String.ofList value)
      | value => .attached slot (String.ofList value)
  | none => if c = 'h' then .help false else if c = 'V' then .version else .unknown

/-- Understand an argument. -/
def Argument.ofText (text : String) : Argument :=
  match text.toList with
  | ['-', '-'] => .separator
  | '-' :: '-' :: cs => longArgument cs
  | '-' :: c :: cs => shortArgument c cs
  | _ => .positional text

/-- Read arguments of which all are positional. -/
def readPositional? (d : Draft) : List String → Option Request
  | [] => d.finish?
  | a :: rest => (d.setModel? a).bind fun d => readPositional? d rest

/-- Read arguments; `none` if they cannot be understood. -/
def readArguments? (d : Draft) : List String → Option Request
  | [] => d.finish?
  | a :: rest =>
      match Argument.ofText a with
      | .separator => readPositional? d rest
      | .positional text => (d.setModel? text).bind fun d => readArguments? d rest
      | .attached slot text => (d.set? slot text).bind fun d => readArguments? d rest
      | .option slot =>
          match rest with
          | [] => none
          | value :: rest =>
              match Argument.ofText value with
              | .positional text => (d.set? slot text).bind fun d => readArguments? d rest
              | _ => none
      | .verbose =>
          if d.verbose then none else readArguments? { d with verbose := true } rest
      | .help detailed => some (.help detailed)
      | .version => some .version
      | .unknown => none

/-- The request that arguments stand for. -/
def Request.read? (args : List String) : Option Request :=
  readArguments? {} args

/-- Result of a run. -/
structure Product where
  log : String
  output : String
  errors : Nat
  deriving Repr, DecidableEq

/-- What a program leaves behind: its exit code, its two outputs, and a file with its
content. -/
structure Outcome where
  exit : Nat
  stdout : String := ""
  stderr : String := ""
  written : Option (String × String) := none
  deriving Repr, DecidableEq

namespace Emission

/-- The stage that an emission needs. -/
def stage : Emission → Stage
  | .dot => .propagate
  | _ => .resolve

/-- The text of an emission. -/
def render {R : Type} [Scalar R] (e : Emission) (d : Diagram) (a : Analysis R)
    (origin : Provenance) : String :=
  match e with
  | .report => a.textReport
  | .json => a.jsonReport d.name (some origin)
  | .dot =>
      match a.graph with
      | some g => Drawing.ofGraph d g a.loops
      | none => ""
  | .model =>
      match a.model with
      | some m => m.render
      | none => ""

end Emission

namespace Invocation

/-- The line about an input that cannot be used. -/
def inputError (reason : String) : String :=
  "hpt: error: " ++ reason ++ "\n"

/-- The limits of a run. -/
def limitsOf (i : Invocation) (file? : String → Option String) : Except String Limits :=
  match i.limits with
  | none => .ok {}
  | some path =>
      match file? path with
      | none => .error (inputError (path ++ ": cannot be read"))
      | some text => (Limits.read text).mapError fun e => inputError e.message

/-- The assumptions of a run; a file that cannot be used is passed over. -/
def assumptionsOf {R : Type} [Scalar R] (i : Invocation) (file? : String → Option String) :
    Option (Assumptions R) :=
  (i.assumptions.bind file?).bind fun text => (Assumptions.read text).toOption

/-- What a verbose run tells about its inputs. -/
def announcement (i : Invocation) : String :=
  if i.verbose then
    Analysis.joinLines (("hpt: model = " ++ i.model)
      :: i.assumptions.toList.map fun path => "hpt: side input = " ++ path)
  else ""

/-- What is logged in a run: its inputs, and what the stages report. -/
def log {R : Type} (i : Invocation) (a : Analysis R) : String :=
  i.announcement ++ Analysis.joinLines (a.diagnostics.map Diagnostic.render)

/-- Run an analysis on the files that are given.  Inputs that cannot be used end it, and so
does a propagation that fails, with the exit code of a program that breaks off. -/
def run (R : Type) [Scalar R] (i : Invocation) (file? : String → Option String) :
    Except Outcome Product :=
  let refusal (line : String) : Outcome := { exit := 2, stderr := line }
  match file? i.model with
  | none => .error (refusal (inputError (i.model ++ ": cannot be read")))
  | some source =>
      match Diagram.read? source with
      | none => .error (refusal (inputError (i.model ++ ": invalid model JSON")))
      | some d => do
          let l ← (i.limitsOf file?).mapError refusal
          let setting : AnalysisSetting R := .ofLimits l (i.assumptionsOf file?)
          let a ← (Analysis.tryRun setting d i.emission.stage).mapError fun a =>
            { exit := 101, stderr := i.log a }
          return {
            log := i.log a
            output := i.emission.render d a (.of source l)
            errors := (a.diagnostics.filter fun x => x.severity == .error).length }

end Invocation

namespace Product

/-- The outcome of a run, where `accepted` says whether the output file could be
written. -/
def outcome (p : Product) (target : Option String) (accepted : Bool) : Outcome :=
  let count := "hpt: " ++ toString p.errors ++ " error(s)\n"
  let done : Outcome :=
    if p.errors == 0 then { exit := 0, stderr := p.log }
      else { exit := 1, stderr := p.log ++ count }
  match target with
  | none => { done with stdout := p.output }
  | some path =>
      if accepted then { done with written := some (path, p.output) }
      else { exit := 1, stderr := p.log ++ "hpt: error: cannot write " ++ path ++ "\n" }

end Product

/-- How the program is called. -/
def usage : String :=
  "Usage: hpt [OPTIONS] <MODEL>\n"

/-- The answer to arguments that cannot be understood. -/
def usageError : String :=
  "error: invalid arguments\n\n" ++ usage ++ "\nFor more information, try '--help'.\n"

/-- An argument in the help text: how it is written, and what it means. -/
structure HelpEntry where
  label : String
  meaning : String
  deriving Repr, DecidableEq

namespace HelpEntry

/-- The meaning on lines of its own, below the label. -/
def stacked (e : HelpEntry) : String :=
  "  " ++ e.label ++ "\n          " ++ e.meaning ++ "\n"

/-- The meaning beside the label, which is filled up to a width. -/
def beside (width : Nat) (e : HelpEntry) : String :=
  "  " ++ e.label ++ String.ofList (List.replicate (width - e.label.length) ' ') ++ "  " ++
    e.meaning ++ "\n"

/-- A list of entries: detailed ones are stacked and set apart, others have their meanings
aligned. -/
def renderAll (detailed : Bool) (entries : List HelpEntry) : String :=
  if detailed then String.intercalate "\n" (entries.map stacked)
  else
    let width := entries.foldl (fun width e => max width e.label.length) 0
    String.join (entries.map (beside width))

end HelpEntry

/-- The meaning of the option for what is put out. -/
def emissionHelp (detailed : Bool) : String :=
  if detailed then
    "Output stage\n\n          Possible values:\n"
      ++ "          - report: Resolved terms and obligations, plain text\n"
      ++ "          - json:   JSON summary with provenance\n"
      ++ "          - dot:    Graphviz view of the invariant graph\n"
      ++ "          - model:  The emitted symbolic model\n"
      ++ "          \n          [default: report]"
  else "Output stage [default: report] [possible values: report, json, dot, model]"

/-- The arguments without a name. -/
def positionalHelp : List HelpEntry :=
  [⟨"<MODEL>", "Input model (JSON)"⟩]

/-- The options. -/
def optionHelp (detailed : Bool) : List HelpEntry :=
  [⟨"-s, --side-input <SIDE_INPUT>", "Side-input file with user-supplied facts"⟩,
    ⟨"-c, --config <CONFIG>", "Analysis limits (JSON)"⟩,
    ⟨"-o, --output <OUTPUT>", "Output file path (stdout when omitted)"⟩,
    ⟨"    --emit <EMIT>", emissionHelp detailed⟩,
    ⟨"    --verbose", "Print pass timing and debug logs"⟩,
    ⟨"-h, --help",
      if detailed then "Print help (see a summary with '-h')"
      else "Print help (see more with '--help')"⟩,
    ⟨"-V, --version", "Print version"⟩]

/-- The help text. -/
def helpText (detailed : Bool) : String :=
  "Hybrid Program Translator — infers invariants and safety obligations for block diagrams\n\n"
    ++ usage ++ "\nArguments:\n" ++ HelpEntry.renderAll detailed positionalHelp
    ++ "\nOptions:\n" ++ HelpEntry.renderAll detailed (optionHelp detailed)

/-- The outcome of a run, given the files and which of them can be written. -/
def Invocation.execute (R : Type) [Scalar R] (i : Invocation)
    (file? : String → Option String) (accepts : String → Bool) : Outcome :=
  match i.run R file? with
  | .error o => o
  | .ok p => p.outcome i.output (i.output.all accepts)

/-- The outcome of arguments, where `run` gives that of a run. -/
def answer {m : Type → Type} [Monad m] (run : Invocation → m Outcome)
    (args : List String) : m Outcome :=
  match Request.read? args with
  | none => return { exit := 2, stderr := usageError }
  | some (.help detailed) => return { exit := 0, stdout := helpText detailed }
  | some .version => return { exit := 0, stdout := "hpt " ++ SignalFlow.version ++ "\n" }
  | some (.run i) => run i

/-- The outcome of a call, given the files and which of them can be written. -/
def execute (R : Type) [Scalar R] (args : List String) (file? : String → Option String)
    (accepts : String → Bool) : Outcome :=
  Id.run (answer (fun i => pure (i.execute R file? accepts)) args)

end CommandLine
end SignalFlow
