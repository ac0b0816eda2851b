import HourlyUsage.Query

/-!
# Schedules of windows

A schedule splits a range of hours into windows of equal length, the last of
which may be shorter.  It keeps where the next window starts, and is exhausted
once no hour is left.
-/

namespace HourlyUsage

structure Schedule where
  account : String
  next : Option Instant
  stop : Instant
  step : Duration
  deriving DecidableEq

namespace Schedule

/-- The windows of `step`, cut down to whole hours, that cover the hours of a range. -/
def ofRange (account : String) (start stop : Instant) (step : Duration) :
    Except UsageError Schedule :=
  if !step.isHourOrLonger then .error .invalidWindow
  else do
    let whole ← Window.ofRange account start stop
    return {
      account
      next := if whole.start < whole.stop then some whole.start else none
      stop := whole.stop
      step := step.truncateToHours }

def more (s : Schedule) : Bool := s.next.isSome

/-- The end of the window that starts here: one step on, but not beyond the range.  A step out of
the range of instants also ends with the range. -/
def stepEnd (s : Schedule) (start : Instant) : Instant :=
  match start.addSeconds? s.step with
  | some t => t.earlier s.stop
  | none => s.stop

def advance (s : Schedule) : Except UsageError (Window × Schedule) :=
  match s.next with
  | none => .error .exhausted
  | some start => do
    let stop := s.stepEnd start
    let w ← Window.ofRange s.account start stop
    return (w, { s with next := if stop < s.stop then some stop else none })

def next? (s : Schedule) : Option (Window × Schedule) := s.advance.toOption

def remaining (s : Schedule) : Nat :=
  match s.next with
  | none => 0
  | some start =>
    let span := (s.stop.secs - start.secs) / 3600
    let step := s.step.wholeHours
    ((span + step - 1) / step).toNat

/-- At most `n` windows, and the schedule behind them. -/
def take : (n : Nat) → Schedule → List Window × Schedule
  | 0, s => ([], s)
  | n + 1, s =>
    match s.next? with
    | some (w, s) =>
      let (ws, s) := take n s
      (w :: ws, s)
    | none => ([], s)

def drop : (n : Nat) → Schedule → Schedule
  | 0, s => s
  | n + 1, s =>
    match s.next? with
    | some (_, s) => drop n s
    | none => s

/-- A bound on the windows left: each of them takes at least a second. -/
def bound (s : Schedule) : Nat :=
  match s.next with
  | none => 0
  | some start => (s.stop.secs - start.secs).toNat

def windows (s : Schedule) : List Window := (s.take s.bound).1

end Schedule
end HourlyUsage
