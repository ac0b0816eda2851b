import HourlyUsage.Calendar.Instant
import HourlyUsage.Text.Digits

/-!
# Written timestamps

A timestamp is written in UTC as RFC 3339 lays down.  Years beyond four digits
and years before zero carry a sign and at least four digits.  The fraction has
the fewest digits out of none, three, six and nine that give it exactly.  A leap
second counts on to the second behind its own, which is second 60 at the end of
a minute.
-/

namespace HourlyUsage

open Text

def yearChars (y : Int) : List Char :=
  if 0 ≤ y ∧ y ≤ 9999 then fixed 4 y.toNat
  else (if y < 0 then '-' else '+') ::
    (if y.natAbs < 1000 then fixed 4 y.natAbs else decimal y.natAbs)

def Date.chars (d : Date) : List Char :=
  yearChars d.year ++ '-' :: fixed 2 d.month ++ '-' :: fixed 2 d.day

namespace Instant

/-- The second as it is written, one more inside a leap second. -/
def writtenSecond (t : Instant) : Nat := if t.nanos < 1000000000 then t.second else t.second + 1

def writtenNanos (t : Instant) : Nat := t.nanos % 1000000000

def clockChars (t : Instant) : List Char :=
  t.date.chars ++ 'T' :: fixed 2 t.hour ++ ':' :: fixed 2 t.minute ++ ':' :: fixed 2 t.writtenSecond

/-- A fraction of a second in the fewest digits out of none, three, six and nine. -/
def fractionChars (nanos : Nat) : List Char :=
  if nanos = 0 then []
  else if nanos % 1000000 = 0 then '.' :: fixed 3 (nanos / 1000000)
  else if nanos % 1000 = 0 then '.' :: fixed 6 (nanos / 1000)
  else '.' :: fixed 9 nanos

def chars (t : Instant) : List Char := t.clockChars ++ fractionChars t.writtenNanos ++ ['Z']

def text (t : Instant) : String := String.ofList t.chars

/-- The timestamp to the second, its fraction left out. -/
def textToSecond (t : Instant) : String := String.ofList (t.clockChars ++ ['Z'])

end Instant
end HourlyUsage
