import HourlyUsage.Calendar.Instant
import HourlyUsage.Text.Digits

/-!
# Strict timestamps

The exact form of RFC 3339: every number has its fixed count of digits, one of
`T`, `t` and a space parts date and time, and the offset is `Z` or a sign with
hours and minutes.  Digits of the fraction after the ninth are dropped, and
second 60 is a leap second of any minute.
-/

namespace HourlyUsage
namespace Timestamp

open Text

/-- The UTC instant of a local date, time of day and offset.  Second 60 is the leap second that
follows second 59. -/
def instantOf? (d : Date) (hour minute second nanos : Nat) (offset : Int) : Option Instant :=
  let leap := second = 60
  Instant.ofUnix?
    (d.toDays * 86400 + hour * 3600 + minute * 60 + (if leap then 59 else second) - offset)
    (if leap then nanos + 1000000000 else nanos)

/-- A fraction of a second in nanoseconds, from its digits: nine of them count, and zeros stand for
those that are missing. -/
def nanosOfDigits (ds : List Char) : Nat :=
  digitsValue ((ds ++ List.replicate 9 '0').take 9)

namespace Strict

def two? : List Char → Option (Nat × List Char)
  | a :: b :: rest =>
    if a.isDigit && b.isDigit then some (10 * digitValue a + digitValue b, rest) else none
  | _ => none

def four? (cs : List Char) : Option (Nat × List Char) := do
  let (high, cs) ← two? cs
  let (low, cs) ← two? cs
  return (100 * high + low, cs)

def mark? (c : Char) : List Char → Option (List Char)
  | a :: rest => if a = c then some rest else none
  | [] => none

def separator? : List Char → Option (List Char)
  | c :: rest => if c = 'T' ∨ c = 't' ∨ c = ' ' then some rest else none
  | [] => none

def fraction? : List Char → Option (Nat × List Char)
  | '.' :: rest =>
    let ds := rest.takeWhile Char.isDigit
    if ds.isEmpty then none else some (nanosOfDigits ds, rest.dropWhile Char.isDigit)
  | cs => some (0, cs)

/-- Reads an offset from UTC in seconds, after which nothing may follow.  The minus sign U+2212
counts as a hyphen. -/
def offset? : List Char → Option Int
  | [] => none
  | c :: rest =>
    if c = 'Z' ∨ c = 'z' then (if rest.isEmpty then some 0 else none)
    else if c = '+' ∨ c = '-' ∨ c = '\u2212' then do
      let (hours, rest) ← two? rest
      let rest ← mark? ':' rest
      let (minutes, rest) ← two? rest
      if rest.isEmpty ∧ hours ≤ 23 ∧ minutes ≤ 59 then
        let seconds : Int := hours * 3600 + minutes * 60
        some (if c = '+' then seconds else -seconds)
      else none
    else none

def date? (cs : List Char) : Option (Date × List Char) := do
  let (year, cs) ← four? cs
  let cs ← mark? '-' cs
  let (month, cs) ← two? cs
  let cs ← mark? '-' cs
  let (day, cs) ← two? cs
  let d ← Date.ofYmd? year month day
  return (d, cs)

def read? (cs : List Char) : Option Instant := do
  let (d, cs) ← date? cs
  let cs ← separator? cs
  let (hour, cs) ← two? cs
  let cs ← mark? ':' cs
  let (minute, cs) ← two? cs
  let cs ← mark? ':' cs
  let (second, cs) ← two? cs
  let (nanos, cs) ← fraction? cs
  let offset ← offset? cs
  if hour ≤ 23 ∧ minute ≤ 59 ∧ second ≤ 60 then instantOf? d hour minute second nanos offset
  else none

end Strict
end Timestamp
end HourlyUsage
