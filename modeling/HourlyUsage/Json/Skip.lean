import HourlyUsage.Json.Structure

/-!
# Skipped values

A value that nobody asks for is passed over without a bound on its depth.  Its
numbers may have any size, and of its strings only the escapes and the absence
of control characters are checked.
-/

namespace HourlyUsage
namespace Json

open Text

def skipEscape : Bytes → Except Fault Bytes
  | [] => Fault.here .eofInString []
  | b :: rest =>
    if b = Ascii.lowerU then do
      let (_, rest) ← codeUnit rest
      return rest
    else if (plainEscape? b).isSome then .ok rest
    else Fault.here .invalidEscape rest

/-- Skips a string behind its opening quote.  `fuel` bounds its characters. -/
def skipString : (fuel : Nat) → Bytes → Except Fault Bytes
  | 0, bs => Fault.here .eofInString bs
  | _ + 1, [] => Fault.here .eofInString []
  | fuel + 1, b :: rest =>
    if b = Ascii.quote then .ok rest
    else if b = Ascii.backslash then do
      let rest ← skipEscape rest
      skipString fuel rest
    else if b < 0x20 then Fault.here .controlCharacter (b :: rest)
    else skipString fuel rest

def skipNumber (bs : Bytes) : Except Fault Bytes := do
  let (_, rest) ← Numeral.read .invalidNumber bs
  return rest

/-- Skips the items of an array and its closing bracket.  A comma asks for another item. -/
def skipItems (item : Bytes → Except Fault Bytes) :
    (fuel : Nat) → (first : Bool) → Bytes → Except Fault Bytes
  | 0, _, bs => Fault.next .eofInArray bs
  | fuel + 1, first, bs =>
    match skipSpace bs with
    | [] => Fault.next .eofInArray []
    | b :: rest =>
      if b = Ascii.closeBracket then .ok rest
      else if first then do
        let rest ← item (b :: rest)
        skipItems item fuel false rest
      else if b = Ascii.comma then do
        let rest ← item rest
        skipItems item fuel false rest
      else Fault.next .expectedCommaOrBracket (b :: rest)

def skipMember (item : Bytes → Except Fault Bytes) (bs : Bytes) : Except Fault Bytes :=
  match skipSpace bs with
  | [] => Fault.next .eofInObject []
  | b :: rest =>
    if b = Ascii.quote then do
      let rest ← skipString (rest.length + 1) rest
      let rest ← colon rest
      item rest
    else Fault.next .keyNotString (b :: rest)

/-- Skips the members of an object and its closing brace.  A comma asks for another member. -/
def skipMembers (item : Bytes → Except Fault Bytes) :
    (fuel : Nat) → (first : Bool) → Bytes → Except Fault Bytes
  | 0, _, bs => Fault.next .eofInObject bs
  | fuel + 1, first, bs =>
    match skipSpace bs with
    | [] => Fault.next .eofInObject []
    | b :: rest =>
      if b = Ascii.closeBrace then .ok rest
      else if first then do
        let rest ← skipMember item (b :: rest)
        skipMembers item fuel false rest
      else if b = Ascii.comma then do
        let rest ← skipMember item rest
        skipMembers item fuel false rest
      else Fault.next .expectedCommaOrBrace (b :: rest)

/-- Skips a value nested at most `depth` deep. -/
def skipNested : (depth : Nat) → Bytes → Except Fault Bytes
  | 0, bs => Fault.next .recursionLimit bs
  | depth + 1, bs =>
    match skipSpace bs with
    | [] => Fault.next .eofInValue []
    | b :: rest =>
      if b = Ascii.lowerN then word (utf8 "ull") rest
      else if b = Ascii.lowerT then word (utf8 "rue") rest
      else if b = Ascii.lowerF then word (utf8 "alse") rest
      else if b = Ascii.minus then skipNumber rest
      else if Ascii.isDigit b then skipNumber (b :: rest)
      else if b = Ascii.quote then skipString (rest.length + 1) rest
      else if b = Ascii.openBracket then
        skipItems (skipNested depth) (rest.length + 1) true rest
      else if b = Ascii.openBrace then
        skipMembers (skipNested depth) (rest.length + 1) true rest
      else Fault.next .expectedValue (b :: rest)

/-- Skips a value.  Its depth is below the number of bytes that are left. -/
def skipValue (bs : Bytes) : Except Fault Bytes := skipNested (bs.length + 1) bs

end Json
end HourlyUsage
