import HourlyUsage.Json.Numeral

/-!
# Arrays and objects

The steps between the items of an array and between the members of an object,
up to and including the closing bracket.
-/

namespace HourlyUsage
namespace Json

open Text

/-- Goes to the next item of an array, or to its closing bracket, which is not read. -/
def nextItem (first : Bool) (bs : Bytes) : Except Fault (Bool × Bytes) :=
  match skipSpace bs with
  | [] => Fault.next .eofInArray []
  | b :: rest =>
    if b = Ascii.closeBracket then .ok (false, b :: rest)
    else if first then .ok (true, b :: rest)
    else if b = Ascii.comma then
      match skipSpace rest with
      | [] => Fault.next .eofInValue []
      | c :: rest =>
        if c = Ascii.closeBracket then Fault.next .trailingComma (c :: rest)
        else .ok (true, c :: rest)
    else Fault.next .expectedCommaOrBracket (b :: rest)

def endArray (bs : Bytes) : Except Fault Bytes :=
  match skipSpace bs with
  | [] => Fault.next .eofInArray []
  | b :: rest =>
    if b = Ascii.closeBracket then .ok rest
    else if b = Ascii.comma then
      let rest := skipSpace rest
      if rest.head? = some Ascii.closeBracket then Fault.next .trailingComma rest
      else Fault.next .trailingCharacters rest
    else Fault.next .trailingCharacters (b :: rest)

/-- Goes behind the opening quote of the next key of an object, or to its closing brace, which is
not read. -/
def nextMember (first : Bool) (bs : Bytes) : Except Fault (Bool × Bytes) :=
  match skipSpace bs with
  | [] => Fault.next .eofInObject []
  | b :: rest =>
    if b = Ascii.closeBrace then .ok (false, b :: rest)
    else if first then
      if b = Ascii.quote then .ok (true, rest) else Fault.next .keyNotString (b :: rest)
    else if b = Ascii.comma then
      match skipSpace rest with
      | [] => Fault.next .eofInValue []
      | c :: rest =>
        if c = Ascii.quote then .ok (true, rest)
        else if c = Ascii.closeBrace then Fault.next .trailingComma (c :: rest)
        else Fault.next .keyNotString (c :: rest)
    else Fault.next .expectedCommaOrBrace (b :: rest)

def endObject (bs : Bytes) : Except Fault Bytes :=
  match skipSpace bs with
  | [] => Fault.next .eofInObject []
  | b :: rest =>
    if b = Ascii.closeBrace then .ok rest
    else if b = Ascii.comma then Fault.next .trailingComma (b :: rest)
    else Fault.next .trailingCharacters (b :: rest)

def colon (bs : Bytes) : Except Fault Bytes :=
  match skipSpace bs with
  | [] => Fault.next .eofInObject []
  | b :: rest => if b = Ascii.colon then .ok rest else Fault.next .expectedColon (b :: rest)

/-- Reads a value that fills the rest of the input up to white space. -/
def toEnd {α : Type} (read : Reader α) (bs : Bytes) : Except Fault α := do
  let (a, rest) ← read bs
  match skipSpace rest with
  | [] => return a
  | b :: rest => Fault.next .trailingCharacters (b :: rest)

/-- Reads a whole text, and places its fault. -/
def parse {α : Type} (read : Reader α) (text : Bytes) : Except Error α :=
  (toEnd read text).mapError fun f ↦ f.locate text

end Json
end HourlyUsage
