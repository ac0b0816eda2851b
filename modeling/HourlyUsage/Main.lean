import HourlyUsage.Program

/-!
# The command line

Runs the program on the files of a machine.  A run works on a tree that holds
what its paths lead to, at the locations that the paths name.  An export needs
the files of its store besides: their paths below the root of the store are read
from standard input, one a line.  What it publishes is moved to its path when it
is complete.
-/

namespace HourlyUsage
namespace Disk

open Text

/-- What a path leads to, without any content. -/
def probe (path : String) : IO (Option Node) := do
  try
    let _ ← IO.FS.Handle.mk (path ++ "/.") .read
    return some (.dir [])
  catch _ =>
    try
      let _ ← IO.FS.Handle.mk path .read
      return some (.file [])
    catch _ => return none

def place (path : String) : List Name :=
  (Path.names (utf8 path)).foldl (fun here name ↦
    if name = Path.dot then here else if name = Path.dotDot then here.dropLast else here ++ [name])
    []

/-- The beginnings of a path that end with a name, the shortest first. -/
def beginnings (path : String) : List String :=
  let parts := path.splitOn "/"
  ((List.range parts.length).filter fun i ↦ parts[i]? != some "").map fun i ↦
    String.intercalate "/" (parts.take (i + 1))

def addPath (tree : Node) (path : String) : IO Node :=
  (beginnings path).foldlM (fun tree p ↦ do
    match ← probe p with
    | some (.dir _) => return tree.makeDirs (place p)
    | some leaf => return tree.plant leaf (place p)
    | none => return tree) tree

def addFile (tree : Node) (path : String) : IO Node := do
  let content ← IO.FS.readBinFile path
  return tree.plant (.file content.toList) (place path)

/-- The tree of an export, with the files of its store that are named. -/
def exportTree (r : ExportRequest) (files : List String) : IO Node := do
  let tree ← addPath (.dir []) r.store
  let tree ← addPath tree r.output
  files.foldlM (fun tree file ↦ addFile tree (r.store ++ "/" ++ file)) tree

def publish (path : String) (content : Bytes) : IO Unit := do
  let staged := path ++ ".staged"
  IO.FS.writeBinFile staged (ByteArray.mk content.toArray)
  IO.FS.rename staged path

end Disk
end HourlyUsage

open HourlyUsage

def main (args : List String) : IO UInt32 := do
  let env : CommandLine.Environment :=
    ⟨← IO.getEnv "UP_ACCOUNT", ← IO.getEnv "UP_USAGE_STORE"⟩
  let request? := match CommandLine.parse env args with
    | .ok ⟨_, .exportTo r⟩ => some r
    | _ => none
  let tree ← match request? with
    | none => pure (Node.dir [])
    | some r =>
      let lines ← (← IO.getStdin).lines
      Disk.exportTree r (lines.toList.filter fun line ↦ !line.isEmpty)
  let outcome := runProgram env args tree
  if let some r := request? then
    if outcome.exitCode = 0 then
      if let .ok content := outcome.tree.readFile (Text.utf8 r.output) then
        Disk.publish r.output content
  (← IO.getStdout).write (ByteArray.mk outcome.stdout.toArray)
  IO.eprint outcome.stderr
  return UInt32.ofNat outcome.exitCode
