import HourlyUsage.Json.Structure
import HourlyUsage.Text.Utf8

/-!
# JSON values

A value of any shape.  The members of an object are kept in the byte order of
their keys, and of several members with one key the last stays.  A value may
hold arrays and objects nested 127 deep.
-/

namespace HourlyUsage
namespace Json

open Text

inductive Value where
  | null
  | bool (b : Bool)
  | number (x : Number)
  | string (s : String)
  | array (items : List Value)
  | object (members : List (String × Value))

namespace Value

/-- Sets a member of an object whose members are in the byte order of their keys. -/
def setMember (key : String) (v : Value) : List (String × Value) → List (String × Value)
  | [] => [(key, v)]
  | (k, w) :: members =>
    if byteLt key k then (key, v) :: (k, w) :: members
    else if key = k then (k, v) :: members
    else (k, w) :: setMember key v members

end Value

/-! ## Reading -/

/-- A value that is no array and no object, or none if one of these follows.  White space in front
has been skipped. -/
def scalar? : (bs : Bytes) → Except Fault (Option (Value × Bytes))
  | [] => Fault.next .eofInValue []
  | b :: rest =>
    if b = Ascii.lowerN then do
      let rest ← word (utf8 "ull") rest
      return some (.null, rest)
    else if b = Ascii.lowerT then do
      let rest ← word (utf8 "rue") rest
      return some (.bool true, rest)
    else if b = Ascii.lowerF then do
      let rest ← word (utf8 "alse") rest
      return some (.bool false, rest)
    else if b = Ascii.minus then do
      let (x, rest) ← Number.read true rest
      return some (.number x, rest)
    else if Ascii.isDigit b then do
      let (x, rest) ← Number.read false (b :: rest)
      return some (.number x, rest)
    else if b = Ascii.quote then do
      let (s, rest) ← string rest
      return some (.string s, rest)
    else if b = Ascii.openBracket ∨ b = Ascii.openBrace then .ok none
    else Fault.next .expectedValue (b :: rest)

/-- Reads the items of an array up to its closing bracket.  `fuel` bounds their number. -/
def readItems (item : Reader Value) : (fuel : Nat) → (first : Bool) → Reader (List Value)
  | 0, _, bs => Fault.next .eofInArray bs
  | fuel + 1, first, bs => do
    let (more, bs) ← nextItem first bs
    if more then
      let (v, bs) ← item bs
      let (vs, bs) ← readItems item fuel false bs
      return (v :: vs, bs)
    else return ([], bs)

/-- Reads the members of an object up to its closing brace, behind those read before.  `fuel` bounds
their number. -/
def readMembers (item : Reader Value) :
    (fuel : Nat) → (first : Bool) → List (String × Value) → Reader (List (String × Value))
  | 0, _, _, bs => Fault.next .eofInObject bs
  | fuel + 1, first, members, bs => do
    let (more, bs) ← nextMember first bs
    if more then
      let (key, bs) ← string bs
      let bs ← colon bs
      let (v, bs) ← item bs
      readMembers item fuel false (Value.setMember key v members) bs
    else return (members, bs)

/-- Reads a value with fewer than `depth` arrays and objects around any of its parts. -/
def readValue : (depth : Nat) → Reader Value
  | 0, bs => Fault.next .recursionLimit bs
  | depth + 1, bs => do
    let bs := skipSpace bs
    match ← scalar? bs with
    | some (v, rest) => return (v, rest)
    | none =>
      if depth = 0 then Fault.next .recursionLimit bs
      else match bs with
        | Ascii.openBracket :: rest =>
          let (items, rest) ← readItems (readValue depth) (rest.length + 1) true rest
          let rest ← endArray rest
          return (.array items, rest)
        | _ :: rest =>
          let (members, rest) ← readMembers (readValue depth) (rest.length + 1) true [] rest
          let rest ← endObject rest
          return (.object members, rest)
        | [] => Fault.next .eofInValue []

/-- The bound on nesting, which no value reaches. -/
def depthLimit : Nat := 128

def Value.parse (text : Bytes) : Except Error Value := Json.parse (readValue depthLimit) text

end Json
end HourlyUsage
