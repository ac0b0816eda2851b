import HourlyUsage.CommandLine.Parser

/-!
# The program

A run of the program on a file tree: its exit code, what it prints, and the
tree it leaves.
-/

namespace HourlyUsage

open Text

structure Outcome where
  exitCode : Nat
  stdout : Bytes
  stderr : String
  tree : Node

/-- Runs a command line.  What it prints goes to streams that are no terminals. -/
def runProgram (env : CommandLine.Environment) (args : List String) (tree : Node) : Outcome :=
  match CommandLine.parse env args with
  | .error r =>
    let text := withoutControls r.message
    if r.exitCode = 0 then ⟨0, utf8 text, "", tree⟩ else ⟨r.exitCode, [], text, tree⟩
  | .ok invocation =>
    match invocation.command.execute tree invocation.format {} with
    | (.ok (), sink, tree) => ⟨0, sink.content, "", tree⟩
    | (.error e, sink, tree) => ⟨1, sink.content, "Error: " ++ e.message ++ "\n", tree⟩

end HourlyUsage
