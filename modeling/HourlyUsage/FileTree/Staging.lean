import HourlyUsage.FileTree.Path
import HourlyUsage.Sink
import HourlyUsage.Text.Digits

/-!
# Staged files

A file that is to appear all at once is written under a name of its own in the
directory of its path, and moved to that path when it is complete.  Until then
nothing else in the tree changes, and a staged file that is given up leaves no
trace.
-/

namespace HourlyUsage

open Text

/-- A tree with a staged file, and where that file is. -/
structure Staged where
  tree : Node
  directory : List Name
  name : Name

def stagedDigits : Nat := 6

/-- The `n`th name for staged files.  It has no extension. -/
def stagedName (n : Nat) : Name :=
  let ds := decimal n
  utf8 (".tmp" ++ String.ofList (List.replicate (stagedDigits - ds.length) '0' ++ ds))

def freshName (es : Entries) : Name :=
  let taken (n : Nat) : Bool := (Entries.find? (stagedName n) es).isSome
  stagedName (((List.range (es.length + 1)).find? fun n ↦ !taken n).getD 0)

/-- What staging rests on: how a staged file is named among the entries of its directory, and what
the disk does with the bytes that are written to it. -/
structure Staging where
  name : Entries → Name := freshName
  disk : Sink := {}

/-- The sink behind a staged file, which begins empty. -/
def Staging.sink (staging : Staging) : Sink := { staging.disk with content := [] }

namespace Node

/-- Stages a file for a path.  The staged file is opened by its path from the root. -/
def stage (tree : Node) (staging : Staging) (path : Bytes) : Except IoError Staged := do
  let parent := Path.parent path
  Path.check (Path.join (Path.absolute parent) (stagedName 0))
  let directory ← tree.walk Path.linkLimit [] (Path.names parent ++ [Path.dot])
  match tree.get? directory with
  | some (.dir es) =>
    let name := staging.name es
    return ⟨tree.update (Entries.set name (.file [])) directory, directory, name⟩
  | _ => throw .notADirectory

end Node

namespace Staged

def discard (s : Staged) : Node := s.tree.update (Entries.erase s.name) s.directory

/-- Moves the staged file, with its content complete, to a path.  It takes the place of a file or
of a symbolic link there, but not of a directory. -/
def publish (s : Staged) (content : Bytes) (path : Bytes) : Except IoError Node := do
  if path.contains 0 then throw .invalidArgument
  Path.check path
  match (Path.names path).getLast? with
  | none => throw .busy
  | some last =>
    let directory ←
      s.tree.walk Path.linkLimit [] ((Path.names path).dropLast ++ [Path.dot])
    if last = Path.dot ∨ last = Path.dotDot then throw .busy
    else if Path.nameLimit < last.length then throw .nameTooLong
    else if Path.endsInSlash path then throw .notADirectory
    else match s.tree.get? (directory ++ [last]) with
      | some (.dir _) => throw .isADirectory
      | _ => return s.discard.update (Entries.set last (.file content)) directory

end Staged
end HourlyUsage
