import HourlyUsage.Calendar.Timestamp.Relaxed
import HourlyUsage.Decimal.Layout
import HourlyUsage.Text.Ascii
import HourlyUsage.Text.Quoted
import HourlyUsage.Text.Utf8

/-!
# What can be wrong with JSON text

A reader works on the bytes that are left of its input, and a fault keeps how
many bytes lie behind the place where it is noticed.  Held against the whole
input, that count gives the line and column of an error.
-/

namespace HourlyUsage
namespace Json

open Text

def wordLimit : Nat := 18446744073709551616

/-- A value that stands where another kind is expected. -/
inductive Found where
  | null
  | bool (b : Bool)
  | integer (n : Int)
  | float (x : Binary64)
  | string (s : String)
  | array
  | object
  deriving DecidableEq

def Found.description : Found → String
  | .null => "null"
  | .bool b => "boolean `" ++ (if b then "true" else "false") ++ "`"
  | .integer n => "integer `" ++ String.ofList (signedDecimal n) ++ "`"
  | .float x => "floating point `" ++ String.ofList x.chars ++ "`"
  | .string s => "string " ++ quoted s
  | .array => "sequence"
  | .object => "map"

inductive Cause where
  | eofInArray
  | eofInObject
  | eofInString
  | eofInValue
  | expectedColon
  | expectedCommaOrBracket
  | expectedCommaOrBrace
  | expectedIdent
  | expectedValue
  | invalidEscape
  | invalidNumber
  | numberOutOfRange
  | controlCharacter
  | keyNotString
  | loneSurrogate
  | unfinishedSurrogatePair
  | trailingComma
  | trailingCharacters
  | recursionLimit
  | wrongType (found : Found) (expected : String)
  | wrongLength (length : Nat) (expected : String)
  | missingField (name : String)
  | duplicateField (name : String)
  | badTimestamp (fault : Timestamp.Fault)
  | custom (message : String)
  deriving DecidableEq

def Cause.message : Cause → String
  | .eofInArray => "EOF while parsing a list"
  | .eofInObject => "EOF while parsing an object"
  | .eofInString => "EOF while parsing a string"
  | .eofInValue => "EOF while parsing a value"
  | .expectedColon => "expected `:`"
  | .expectedCommaOrBracket => "expected `,` or `]`"
  | .expectedCommaOrBrace => "expected `,` or `\x7d`"
  | .expectedIdent => "expected ident"
  | .expectedValue => "expected value"
  | .invalidEscape => "invalid escape"
  | .invalidNumber => "invalid number"
  | .numberOutOfRange => "number out of range"
  | .controlCharacter => "control character (\\u0000-\\u001F) found while parsing a string"
  | .keyNotString => "key must be a string"
  | .loneSurrogate => "lone leading surrogate in hex escape"
  | .unfinishedSurrogatePair => "unexpected end of hex escape"
  | .trailingComma => "trailing comma"
  | .trailingCharacters => "trailing characters"
  | .recursionLimit => "recursion limit exceeded"
  | .wrongType found expected =>
    "invalid type: " ++ found.description ++ ", expected " ++ expected
  | .wrongLength length expected =>
    "invalid length " ++ String.ofList (decimal length) ++ ", expected " ++ expected
  | .missingField name => "missing field `" ++ name ++ "`"
  | .duplicateField name => "duplicate field `" ++ name ++ "`"
  | .badTimestamp fault => fault.message
  | .custom message => message

structure Fault where
  cause : Cause
  left : Nat
  deriving DecidableEq

namespace Fault

/-- A fault noticed in front of the bytes that are left. -/
def here {α : Type} (cause : Cause) (rest : Bytes) : Except Fault α := .error ⟨cause, rest.length⟩

/-- A fault of the first byte that is left, if any is: it is noticed behind that byte. -/
def next {α : Type} (cause : Cause) (rest : Bytes) : Except Fault α :=
  .error ⟨cause, rest.length - 1⟩

end Fault

/-- A cause with its place.  Lines count from one; line zero stands for no place. -/
structure Error where
  cause : Cause
  line : Nat
  column : Nat
  deriving DecidableEq

namespace Error

def message (e : Error) : String :=
  if e.line = 0 then e.cause.message
  else e.cause.message ++ " at line " ++ String.ofList (decimal e.line) ++
    " column " ++ String.ofList (decimal e.column)

def unplaced (cause : Cause) : Error := ⟨cause, 0, 0⟩

/-- Splits a text at the last place where a pattern stands. -/
def splitAtLast? (pattern : List Char) : List Char → Option (List Char × List Char)
  | [] => none
  | c :: cs =>
    match splitAtLast? pattern cs with
    | some (before, behind) => some (c :: before, behind)
    | none =>
      if pattern.isPrefixOf (c :: cs) then some ([], (c :: cs).drop pattern.length) else none

def placeNumber? (ds : List Char) : Option Nat :=
  if ds.isEmpty ∨ wordLimit ≤ digitsValue ds then none else some (digitsValue ds)

def splitPlace? (cs : List Char) : Option (List Char × Nat × Nat) := do
  let (before, behind) ← splitAtLast? " at line ".toList cs
  let mark := " column ".toList
  let rest := behind.dropWhile Char.isDigit
  let column := rest.drop mark.length
  if mark.isPrefixOf rest ∧ column.all Char.isDigit then
    return (before, ← placeNumber? (behind.takeWhile Char.isDigit), ← placeNumber? column)
  else none

/-- The error with a message of its own.  A place at the end of the message becomes the place of
the error. -/
def ofMessage (text : String) : Error :=
  match splitPlace? text.toList with
  | some (before, line, column) => ⟨.custom (String.ofList before), line, column⟩
  | none => unplaced (.custom text)

end Error

/-- The error of a fault within this input.  The column counts the bytes since the last line
end. -/
def Fault.locate (f : Fault) (input : Bytes) : Error :=
  let before := input.take (input.length - f.left)
  ⟨f.cause, before.count Ascii.newline + 1,
    (before.reverse.takeWhile fun b ↦ b != Ascii.newline).length⟩

end Json
end HourlyUsage
