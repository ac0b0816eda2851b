import HourlyUsage.Failure
import HourlyUsage.FileTree.Basic
import HourlyUsage.Text.Ascii

/-!
# Paths in a file tree

A path is resolved from the root of the tree, one name after the other, with
the target of each symbolic link put in its place.  It ends in a location or in
the first failure on its way.
-/

namespace HourlyUsage

open Text

namespace Path

def dot : Name := [Ascii.point]

def dotDot : Name := [Ascii.point, Ascii.point]

/-- The names of a path, without the empty ones between slashes that follow each other. -/
def names (path : Bytes) : List Name :=
  (path.splitOn Ascii.slash).filter fun n ↦ !n.isEmpty

def endsInSlash (path : Bytes) : Bool := path.getLast? == some Ascii.slash

def isAbsolute (path : Bytes) : Bool := path.head? == some Ascii.slash

/-- The steps of a path.  A slash at its end asks for a directory, as a single dot does. -/
def steps (path : Bytes) : List Name :=
  if endsInSlash path then names path ++ [dot] else names path

/-- The bytes of a name that a file system stores. -/
def nameLimit : Nat := 255

/-- The bytes of a path that a system call takes. -/
def pathLimit : Nat := 4095

/-- The symbolic links that one path may follow. -/
def linkLimit : Nat := 40

/-- Refuses the text of a path that names nothing whatever the tree holds. -/
def check (path : Bytes) : Except IoError Unit :=
  if path.contains 0 then .error .nulInName
  else if path.isEmpty then .error .notFound
  else if pathLimit < path.length then .error .nameTooLong
  else .ok ()

def join (path : Bytes) (name : Name) : Bytes :=
  if path.isEmpty ∨ endsInSlash path then path ++ name else path ++ Ascii.slash :: name

/-- Leaves out what names nothing at the end of a path: empty pieces between its slashes, and
single dots, but not the first piece.  The pieces are in reverse. -/
def trimPieces : List Bytes → List Bytes
  | [] => []
  | [first] => [first]
  | piece :: pieces =>
    if piece.isEmpty ∨ piece = dot then trimPieces pieces else piece :: pieces

/-- The path of the directory that holds the last name of a path, a single dot where the path is
that name alone. -/
def parent (path : Bytes) : Bytes :=
  match (trimPieces (path.splitOn Ascii.slash).reverse).tail with
  | [] => dot
  | pieces =>
    match trimPieces pieces with
    | [[]] => [Ascii.slash]
    | pieces => List.intercalate [Ascii.slash] pieces.reverse

def absolute (path : Bytes) : Bytes := if isAbsolute path then path else Ascii.slash :: path

end Path

namespace Node

/-- Follows steps from a location, kept in reverse, through at most `links` symbolic links. -/
def walk (tree : Node) : (links : Nat) → (here : List Name) → (steps : List Name) →
    Except IoError (List Name)
  | _, here, [] => .ok here.reverse
  | links, here, name :: rest =>
    match tree.get? here.reverse with
    | some (.dir es) =>
      if name = Path.dot then walk tree links here rest
      else if name = Path.dotDot then walk tree links here.tail rest
      else if Path.nameLimit < name.length then .error .nameTooLong
      else match Entries.find? name es with
        | none => .error .notFound
        | some (.link target) =>
          match links with
          | 0 => .error .tooManyLinks
          | links + 1 =>
            walk tree links (if Path.isAbsolute target then [] else here)
              (Path.steps target ++ rest)
        | some _ => walk tree links (name :: here) rest
    | _ => .error .notADirectory
termination_by links _ steps => (links, steps.length)

def resolve (tree : Node) (path : Bytes) : Except IoError (List Name) := do
  Path.check path
  tree.walk Path.linkLimit [] (Path.steps path)

def isDirectory (tree : Node) (path : Bytes) : Except IoError Bool := do
  let location ← tree.resolve path
  match tree.get? location with
  | some (.dir _) => return true
  | _ => return false

def readFile (tree : Node) (path : Bytes) : Except IoError Bytes := do
  let location ← tree.resolve path
  match tree.get? location with
  | some (.file content) => return content
  | some (.dir _) => throw .isADirectory
  | _ => throw .notFound

end Node
end HourlyUsage
