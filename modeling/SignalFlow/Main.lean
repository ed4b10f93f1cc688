import SignalFlow.CommandLine
import SignalFlow.Scalar.Binary64

/-!
# The program

Reads the files of a call, runs it, and writes its output.
-/

namespace SignalFlow
namespace CommandLine

/-- Content of a file, if it can be read. -/
def readFile? (path : String) : IO (Option String) := do
  try
    return some (← IO.FS.readFile path)
  catch _ =>
    return none

/-- Write a file, and say whether that was possible. -/
def tryWrite (path content : String) : IO Bool := do
  try
    IO.FS.writeFile path content
    return true
  catch _ =>
    return false

/-- Contents of those files that can be read, by name. -/
def readFiles (paths : List String) : IO (List (String × String)) :=
  paths.filterMapM fun path => do
    return (← readFile? path).map fun content => (path, content)

/-- Run an analysis on files. -/
def Invocation.perform (i : Invocation) : IO Outcome := do
  let files ← readFiles (i.model :: i.limits.toList ++ i.assumptions.toList)
  match i.run Float fun path => List.lookup path files with
  | .error o => return o
  | .ok p =>
      match i.output with
      | none => return p.outcome none true
      | some path => return p.outcome (some path) (← tryWrite path p.output)

end CommandLine
end SignalFlow

open SignalFlow.CommandLine in
/-- The program. -/
def main (args : List String) : IO UInt32 := do
  let o ← answer Invocation.perform args
  IO.eprint o.stderr
  IO.print o.stdout
  return UInt32.ofNat o.exit
