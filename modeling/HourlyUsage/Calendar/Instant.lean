import HourlyUsage.Calendar.Date
import HourlyUsage.Calendar.Duration

/-!
# Instants

An instant is a number of seconds since 1970-01-01T00:00:00Z and a part of a
second.  The part reaches two seconds inside a leap second, which is the last
second of a minute where an instant is made from numbers or read from text, but
may be any second of an instant at large.  The years run from -262143 to 262142.
-/

namespace HourlyUsage

def earliestSecond : Int := -8334601228800

def latestSecond : Int := 8210266876799

structure Instant where
  secs : Int
  nanos : Nat
  lower : earliestSecond ≤ secs
  upper : secs ≤ latestSecond
  nanos_lt : nanos < 2000000000
  deriving DecidableEq

namespace Instant

/-- The instant of a number of seconds and a part of one, if they are in range.  A leap second has
to be the last second of its minute. -/
def ofUnix? (secs : Int) (nanos : Nat) : Option Instant :=
  if h : earliestSecond ≤ secs ∧ secs ≤ latestSecond ∧ nanos < 2000000000 ∧
      (1000000000 ≤ nanos → secs % 60 = 59) then
    some ⟨secs, nanos, h.1, h.2.1, h.2.2.1⟩
  else none

instance : LT Instant := ⟨fun a b ↦ a.secs < b.secs ∨ (a.secs = b.secs ∧ a.nanos < b.nanos)⟩

instance : LE Instant := ⟨fun a b ↦ a.secs < b.secs ∨ (a.secs = b.secs ∧ a.nanos ≤ b.nanos)⟩

theorem lt_def {a b : Instant} :
    a < b ↔ a.secs < b.secs ∨ (a.secs = b.secs ∧ a.nanos < b.nanos) := Iff.rfl

theorem le_def {a b : Instant} :
    a ≤ b ↔ a.secs < b.secs ∨ (a.secs = b.secs ∧ a.nanos ≤ b.nanos) := Iff.rfl

instance (a b : Instant) : Decidable (a < b) := decidable_of_iff' _ lt_def

instance (a b : Instant) : Decidable (a ≤ b) := decidable_of_iff' _ le_def

def earlier (a b : Instant) : Instant := if a ≤ b then a else b

/-! ## Parts in the calendar -/

def date (t : Instant) : Date := Date.ofDays (t.secs / 86400)

def secondOfDay (t : Instant) : Nat := (t.secs % 86400).toNat

def hour (t : Instant) : Nat := t.secondOfDay / 3600

def minute (t : Instant) : Nat := t.secondOfDay / 60 % 60

/-- The second of the minute without the leap second, which lies within the nanoseconds. -/
def second (t : Instant) : Nat := t.secondOfDay % 60

def ofDate? (d : Date) : Option Instant := ofUnix? (d.toDays * 86400) 0

/-! ## Hours -/

def truncateToHour (t : Instant) : Instant where
  secs := t.secs - t.secs % 3600
  nanos := 0
  lower := by
    have := t.lower
    simp only [earliestSecond] at *
    omega
  upper := by
    have := t.upper
    simp only [latestSecond] at *
    omega
  nanos_lt := by decide

/-- Moves an instant by the whole seconds of a duration, if that stays in range. -/
def addSeconds? (t : Instant) (d : Duration) : Option Instant := ofUnix? (t.secs + d.secs) t.nanos

end Instant
end HourlyUsage
