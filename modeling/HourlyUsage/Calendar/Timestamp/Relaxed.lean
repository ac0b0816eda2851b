import HourlyUsage.Calendar.Timestamp.Strict
import HourlyUsage.Text.Blank

/-!
# Relaxed timestamps

Timestamps in stored events, and the dates that stand for their midnight, may
leave out leading zeros and hold white space before numbers and marks.  A
refused text is refused for the first thing that is wrong with it, and each
number is checked against its range as it is read.
-/

namespace HourlyUsage
namespace Timestamp

open Text

inductive Fault where
  | invalid
  | tooShort
  | outOfRange
  | trailing
  | impossible
  deriving DecidableEq

def Fault.message : Fault → String
  | .invalid => "input contains invalid characters"
  | .tooShort => "premature end of input"
  | .outOfRange => "input is out of range"
  | .trailing => "trailing input"
  | .impossible => "no possible date and time matching input"

namespace Relaxed

def numberLimit : Nat := 9223372036854775807

/-- Reads one digit or more, at most `width` of them where a width is given.  The number may not
exceed 63 bits. -/
def digits (width : Option Nat) (cs : List Char) : Except Fault (Nat × List Char) :=
  let run := cs.takeWhile Char.isDigit
  let ds := match width with
    | some w => run.take w
    | none => run
  if ds.isEmpty then .error (if cs.isEmpty then .tooShort else .invalid)
  else if numberLimit < digitsValue ds then .error .outOfRange
  else .ok (digitsValue ds, cs.drop ds.length)

/-- Reads a number of at most two digits after white space, and holds it against its range. -/
def field (low high : Nat) (cs : List Char) : Except Fault (Nat × List Char) := do
  let (n, cs) ← digits (some 2) (trimStart cs)
  if low ≤ n ∧ n ≤ high then return (n, cs) else throw .outOfRange

/-- Reads a year after white space: at most four digits, or any number of them after a sign.  It
has to fit 32 bits. -/
def year (cs : List Char) : Except Fault (Int × List Char) := do
  let (y, cs) ← match trimStart cs with
    | '-' :: rest => do
      let (n, rest) ← digits none rest
      pure (-(n : Int), rest)
    | '+' :: rest => do
      let (n, rest) ← digits none rest
      pure ((n : Int), rest)
    | rest => do
      let (n, rest) ← digits (some 4) rest
      pure ((n : Int), rest)
  if -2147483648 ≤ y ∧ y ≤ 2147483647 then return (y, cs) else throw .outOfRange

def mark (c : Char) : List Char → Except Fault (List Char)
  | [] => .error .tooShort
  | a :: rest => if a = c then .ok rest else .error .invalid

def separator : List Char → Except Fault (List Char)
  | [] => .error .tooShort
  | c :: rest => if c = 'T' ∨ c = 't' ∨ c = ' ' then .ok rest else .error .invalid

def fraction : List Char → Except Fault (Nat × List Char)
  | '.' :: rest => do
    let _ ← digits (some 9) rest
    return (nanosOfDigits (rest.takeWhile Char.isDigit), rest.dropWhile Char.isDigit)
  | cs => .ok (0, cs)

/-- Reads two digits.  What holds fewer than two bytes is too short, whatever it holds. -/
def pair : List Char → Except Fault (Char × Char × List Char)
  | [] => .error .tooShort
  | [c] => .error (if c.utf8Size < 2 then .tooShort else .invalid)
  | a :: b :: rest => if a.isDigit && b.isDigit then .ok (a, b, rest) else .error .invalid

/-- Reads an offset from UTC in seconds.  Colons and white space may part its hours and minutes. -/
def offset : List Char → Except Fault (Int × List Char)
  | [] => .error .tooShort
  | c :: rest =>
    if c = 'Z' ∨ c = 'z' then .ok (0, rest)
    else if c = '+' ∨ c = '-' ∨ c = '\u2212' then do
      let (h₁, h₂, rest) ← pair rest
      let (m₁, m₂, rest) ← pair (rest.dropWhile fun a ↦ a == ':' || isBlank a)
      if 5 < digitValue m₁ then throw .outOfRange
      let seconds : Int :=
        (10 * digitValue h₁ + digitValue h₂) * 3600 + (10 * digitValue m₁ + digitValue m₂) * 60
      return (if c = '+' then seconds else -seconds, rest)
    else .error .invalid

/-- Reads a zone: the letters UTC in any case, or an offset. -/
def zone : List Char → Except Fault (Int × List Char)
  | a :: b :: c :: rest =>
    if a.toUpper = 'U' ∧ b.toUpper = 'T' ∧ c.toUpper = 'C' then .ok (0, rest)
    else offset (a :: b :: c :: rest)
  | cs => offset cs

/-- A date that exists, in a year that instants reach. -/
def dateOf? (year : Int) (month day : Nat) : Option Date :=
  if -262143 ≤ year ∧ year ≤ 262142 then Date.ofYmd? year month day else none

def read (cs : List Char) : Except Fault Instant := do
  let (y, cs) ← year cs
  let (month, cs) ← field 1 12 (← mark '-' (trimStart cs))
  let (day, cs) ← field 1 31 (← mark '-' (trimStart cs))
  let cs ← separator cs
  let (hour, cs) ← field 0 23 cs
  let (minute, cs) ← field 0 59 (← mark ':' (trimStart cs))
  let (second, cs) ← field 0 60 (← mark ':' (trimStart cs))
  let (nanos, cs) ← fraction cs
  let (offset, cs) ← zone (trimStart cs)
  if !(trimStart cs).isEmpty then throw .trailing
  let some d := dateOf? y month day | throw .outOfRange
  if 86400 ≤ offset.natAbs then throw .outOfRange
  let some t := instantOf? d hour minute second nanos offset | throw .impossible
  return t

/-- Reads a bare date, of which the parts may have fewer digits and white space before them. -/
def readDate? (cs : List Char) : Option Date := do
  let (y, cs) ← (year cs).toOption
  let cs ← (mark '-' cs).toOption
  let (month, cs) ← (field 1 12 cs).toOption
  let cs ← (mark '-' cs).toOption
  let (day, cs) ← (field 1 31 cs).toOption
  if cs.isEmpty then dateOf? y month day else none

end Relaxed
end Timestamp
end HourlyUsage
