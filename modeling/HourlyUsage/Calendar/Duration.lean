/-!
# Durations

A duration is a signed number of seconds with a non-negative part of a second
beside it.  Its magnitude in milliseconds fits 63 bits.
-/

namespace HourlyUsage

structure Duration where
  secs : Int
  nanos : Nat
  nanos_lt : nanos < 1000000000
  lower : -9223372036854776 < secs ∨ (secs = -9223372036854776 ∧ 193000000 ≤ nanos)
  upper : secs < 9223372036854775 ∨ (secs = 9223372036854775 ∧ nanos ≤ 807000000)
  deriving DecidableEq

namespace Duration

def ofParts? (secs : Int) (nanos : Nat) : Option Duration :=
  if h : nanos < 1000000000 ∧
      (-9223372036854776 < secs ∨ (secs = -9223372036854776 ∧ 193000000 ≤ nanos)) ∧
      (secs < 9223372036854775 ∨ (secs = 9223372036854775 ∧ nanos ≤ 807000000)) then
    some ⟨secs, nanos, h.1, h.2.1, h.2.2⟩
  else none

def day : Duration := ⟨86400, 0, by decide, by decide, by decide⟩

def ofSeconds? (n : Int) : Option Duration := ofParts? n 0

/-- The whole seconds, counted towards zero. -/
def wholeSeconds (d : Duration) : Int :=
  if d.secs < 0 ∧ 0 < d.nanos then d.secs + 1 else d.secs

def wholeHours (d : Duration) : Int :=
  if d.wholeSeconds < 0 then -(-d.wholeSeconds / 3600) else d.wholeSeconds / 3600

def isHourOrLonger (d : Duration) : Bool := decide (3600 ≤ d.secs)

/-- Cuts a duration down to whole hours, towards zero. -/
def truncateToHours (d : Duration) : Duration where
  secs := 3600 * d.wholeHours
  nanos := 0
  nanos_lt := by decide
  lower := by
    have := d.lower
    simp only [wholeHours, wholeSeconds]
    repeat' split
    all_goals omega
  upper := by
    have := d.upper
    simp only [wholeHours, wholeSeconds]
    repeat' split
    all_goals omega

end Duration
end HourlyUsage
