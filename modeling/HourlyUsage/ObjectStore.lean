import HourlyUsage.FileTree.Path
import HourlyUsage.Query
import HourlyUsage.Text.Blank

/-!
# Object stores

A store lists the keys of a range in byte order and reads the events of an
object.  Stored in a file tree, an object is a regular file with the extension
of the store, its key is its path below the root, and it holds one event a
line.  Symbolic links below the root are not listed.
-/

namespace HourlyUsage

open Text

structure ObjectStore where
  list : Query → Except UsageError (List String)
  read : String → Except UsageError (List Event)

/-! ## Object files -/

/-- The lines of a file without their ends, a line feed that may follow a carriage return. -/
def fileLines : Bytes → List Bytes
  | [] => []
  | Ascii.newline :: rest => [] :: fileLines rest
  | Ascii.carriageReturn :: Ascii.newline :: rest => [] :: fileLines rest
  | b :: rest =>
    match fileLines rest with
    | [] => [[b]]
    | line :: lines => (b :: line) :: lines

/-- The events of lines, the first of which has this number.  Blank lines count, but hold none. -/
def eventsOfLines (key : String) : (number : Nat) → List Bytes → Except UsageError (List Event)
  | _, [] => .ok []
  | number, line :: lines =>
    match ofUtf8? line with
    | none => .error (.io .notUtf8)
    | some text =>
      if isBlankText text then eventsOfLines key (number + 1) lines
      else match Event.parse line with
        | .error e => .error (.parse key number e)
        | .ok event => (eventsOfLines key (number + 1) lines).map fun events ↦ event :: events

def eventsOfFile (key : String) (content : Bytes) : Except UsageError (List Event) :=
  eventsOfLines key 1 (fileLines content)

/-! ## Keys -/

/-- What follows the last point of a name, if anything stands before that point. -/
def extension? (name : Name) : Option Bytes :=
  if name.contains Ascii.point then
    let after := (name.reverse.takeWhile fun b ↦ b != Ascii.point).reverse
    if after.length + 1 < name.length then some after else none
  else none

/-- The key of a location, if all its names are text. -/
def keyOf? (location : List Name) : Option String :=
  (location.mapM ofUtf8?).map fun names ↦ String.intercalate "/" names

/-- Is this the location of an object, by the extension of its last name? -/
def isObject (extension : String) (location : List Name) : Bool :=
  (location.getLast?.bind extension?) == some (utf8 extension)

def keyLe (a b : String) : Bool := !byteLt b a

def Query.select (q : Query) (keys : List String) : List String :=
  (keys.filter q.contains).mergeSort keyLe

/-! ## Stores in a file tree -/

/-- A store below a root.  The path of the root is text, and a root whose bytes are no UTF-8 is left
out, while the names below it may be any bytes. -/
structure FileStore where
  root : String
  extension : String
  deriving DecidableEq

namespace FileStore

def defaultExtension : String := "json"

def defaultRoot : String := "usage"

/-- Opens a store, which needs a directory for its root. -/
def create (tree : Node) (root extension : String) : Except UsageError FileStore :=
  match tree.isDirectory (utf8 root) with
  | .error e => .error (.io e)
  | .ok false => .error (.io (.other (root ++ " is not a directory")))
  | .ok true => .ok ⟨root, extension⟩

def keys (extension : String) (root : Node) : List String :=
  root.files.filterMap fun f ↦ if isObject extension f.1 then keyOf? f.1 else none

/-- Has every directory of a store a path that can be opened?  Those with a name that is no text
are not entered. -/
def isListable (root : String) (node : Node) : Bool :=
  node.directories.all fun d ↦
    (keyOf? d).isNone || (d.foldl Path.join (utf8 root)).length ≤ Path.pathLimit

/-- The keys of all objects of a store, if each of its directories can be enumerated. -/
def collect (store : FileStore) (tree : Node) : Except UsageError (List String) := do
  let location ← (tree.resolve (utf8 store.root)).mapError .io
  match tree.get? location with
  | some (.dir es) =>
    if !isListable store.root (.dir es) then throw (.io .nameTooLong)
    return keys store.extension (.dir es)
  | _ => throw (.io .notADirectory)

def list (store : FileStore) (tree : Node) (q : Query) : Except UsageError (List String) :=
  (store.collect tree).map q.select

def keyPath (store : FileStore) (key : String) : Bytes :=
  (Path.names (utf8 key)).foldl Path.join (utf8 store.root)

def read (store : FileStore) (tree : Node) (key : String) : Except UsageError (List Event) := do
  let content ← (tree.readFile (store.keyPath key)).mapError .io
  eventsOfFile key content

def view (store : FileStore) (tree : Node) : ObjectStore := ⟨store.list tree, store.read tree⟩

end FileStore
end HourlyUsage
