import HourlyUsage.Text.Utf8

/-!
# File trees

A directory holds named entries in the order in which they are enumerated: files,
symbolic links and further directories.  Names are bytes.
-/

namespace HourlyUsage

open Text

abbrev Name := Bytes

inductive Node where
  | file (content : Bytes)
  | link (target : Bytes)
  | dir (entries : List (Name × Node))

abbrev Entries := List (Name × Node)

namespace Entries

def find? (name : Name) : Entries → Option Node
  | [] => none
  | (n, node) :: es => if n = name then some node else find? name es

/-- Sets the entry of this name, behind all others where it is new. -/
def set (name : Name) (node : Node) : Entries → Entries
  | [] => [(name, node)]
  | (n, old) :: es => if n = name then (n, node) :: es else (n, old) :: set name node es

def erase (name : Name) : Entries → Entries
  | [] => []
  | (n, node) :: es => if n = name then es else (n, node) :: erase name es

end Entries

namespace Node

/-- The node at a location: the names that lead to it from here, through directories alone. -/
def get? (node : Node) : List Name → Option Node
  | [] => some node
  | name :: rest =>
    match node with
    | .dir es => (Entries.find? name es).bind fun child ↦ child.get? rest
    | _ => none

/-- Changes the entries of the directory at a location.  Without a directory there nothing
changes. -/
def update (f : Entries → Entries) (node : Node) : List Name → Node
  | [] =>
    match node with
    | .dir es => .dir (f es)
    | other => other
  | name :: rest =>
    match node with
    | .dir es =>
      match Entries.find? name es with
      | some child => .dir (Entries.set name (child.update f rest) es)
      | none => .dir es
    | other => other

mutual

/-- The regular files below a node with their locations, in the order of enumeration. -/
def files : Node → List (List Name × Bytes)
  | .file content => [([], content)]
  | .link _ => []
  | .dir es => filesOf es

def filesOf : List (Name × Node) → List (List Name × Bytes)
  | [] => []
  | (name, node) :: es => node.files.map (fun f ↦ (name :: f.1, f.2)) ++ filesOf es

end

mutual

/-- The directories at and below a node by their locations, in the order of enumeration. -/
def directories : Node → List (List Name)
  | .file _ => []
  | .link _ => []
  | .dir es => [] :: directoriesOf es

def directoriesOf : List (Name × Node) → List (List Name)
  | [] => []
  | (name, node) :: es => node.directories.map (fun d ↦ name :: d) ++ directoriesOf es

end

/-- Puts a leaf at a location, with the directories on the way to it where they are missing. -/
def plant (node leaf : Node) : List Name → Node
  | [] => leaf
  | name :: rest =>
    match node with
    | .dir es =>
      .dir (Entries.set name (((Entries.find? name es).getD (.dir [])).plant leaf rest) es)
    | other => other

def makeDirs (node : Node) : List Name → Node
  | [] => node
  | name :: rest =>
    match node with
    | .dir es => .dir (Entries.set name (((Entries.find? name es).getD (.dir [])).makeDirs rest) es)
    | other => other

end Node
end HourlyUsage
