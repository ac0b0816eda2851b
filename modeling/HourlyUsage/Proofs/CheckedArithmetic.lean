import HourlyUsage.Proofs.Tiling
import HourlyUsage.Proofs.TimestampText

/-!
# Schedules on numbers of 64 bits

The arithmetic of a schedule is done here as a machine does it, on numbers of 64 bits and
on durations, and has no result once one of these leaves its range or a number is divided
by zero.  It always has one, the exact result: for every range, and for the windows of any
length of an hour or more that lie in it.
-/

namespace HourlyUsage

/-! ## Numbers of 64 bits -/

namespace Word

/-- The number, if it fits 64 bits with a sign. -/
def of? (n : Int) : Option Int :=
  if -9223372036854775808 ≤ n ∧ n ≤ 9223372036854775807 then some n else none

def add? (a b : Int) : Option Int := of? (a + b)

def sub? (a b : Int) : Option Int := of? (a - b)

def mul? (a b : Int) : Option Int := of? (a * b)

/-- The quotient, rounded towards zero.  There is none by zero. -/
def div? (a b : Int) : Option Int := if b = 0 then none else of? (a.tdiv b)

/-- The largest number of 64 bits without a sign. -/
def largestCount : Nat := 18446744073709551615

/-- A number as a count.  One below zero is taken for the largest count. -/
def toCount (n : Int) : Nat := if 0 ≤ n ∧ n ≤ largestCount then n.toNat else largestCount

theorem of?_eq {n : Int} (hlow : -9223372036854775808 ≤ n) (hhigh : n ≤ 9223372036854775807) :
    of? n = some n :=
  if_pos ⟨hlow, hhigh⟩

theorem toCount_eq {n : Int} (hlow : 0 ≤ n) (hhigh : n ≤ 9223372036854775807) :
    toCount n = n.toNat := by
  rw [toCount, if_pos ⟨hlow, by simp only [largestCount]; omega⟩]

end Word

/-! ## Durations -/

namespace Duration

/-- A duration of whole hours, if there is one of that length. -/
def ofHours? (n : Int) : Option Duration := do ofSeconds? (← Word.mul? n 3600)

def wholeSeconds? (d : Duration) : Option Int :=
  if d.secs < 0 ∧ 0 < d.nanos then Word.add? d.secs 1 else some d.secs

def wholeHours? (d : Duration) : Option Int := do Word.div? (← d.wholeSeconds?) 3600

/-- The order of durations, by seconds and then by the part of a second. -/
def isBelow (a b : Duration) : Bool :=
  decide (a.secs < b.secs) || (decide (a.secs = b.secs) && decide (a.nanos < b.nanos))

theorem ofSeconds?_self {d : Duration} (h : d.nanos = 0) : ofSeconds? d.secs = some d := by
  obtain ⟨secs, nanos, hnanos, hlower, hupper⟩ := d
  cases h
  exact dif_pos ⟨hnanos, hlower, hupper⟩

theorem secs_bounds (d : Duration) :
    -9223372036854776 ≤ d.secs ∧ d.secs ≤ 9223372036854775 := by
  have hlower := d.lower
  have hupper := d.upper
  omega

theorem wholeSeconds?_eq (d : Duration) : d.wholeSeconds? = some d.wholeSeconds := by
  have hbounds := d.secs_bounds
  unfold wholeSeconds? wholeSeconds
  split
  · exact Word.of?_eq (by omega) (by omega)
  · rfl

theorem wholeHours_bounds (d : Duration) :
    -9223372036854776 ≤ d.wholeHours ∧ d.wholeHours ≤ 9223372036854775 := by
  have hbounds := d.secs_bounds
  simp only [wholeHours, wholeSeconds]
  repeat' split
  all_goals omega

theorem wholeHours_eq_tdiv (d : Duration) : d.wholeHours = d.wholeSeconds.tdiv 3600 := by
  unfold wholeHours
  split
  · next h =>
    have hneg := Int.neg_tdiv (-d.wholeSeconds) 3600
    rw [Int.neg_neg, Int.tdiv_eq_ediv_of_nonneg (show 0 ≤ -d.wholeSeconds by omega)] at hneg
    exact hneg.symm
  · next h => rw [Int.tdiv_eq_ediv_of_nonneg (by omega)]

theorem wholeHours?_eq (d : Duration) : d.wholeHours? = some d.wholeHours := by
  have hbounds := d.wholeHours_bounds
  rw [wholeHours_eq_tdiv] at hbounds ⊢
  simp only [wholeHours?, wholeSeconds?_eq, Option.bind_eq_bind, Option.bind_some]
  rw [Word.div?, if_neg (by decide), Word.of?_eq (by omega) (by omega)]

/-- The whole hours of a duration are the length of another one. -/
theorem ofHours?_wholeHours (d : Duration) : ofHours? d.wholeHours = some d.truncateToHours := by
  have hbounds := d.truncateToHours.secs_bounds
  rw [secs_truncateToHours, Int.mul_comm] at hbounds
  have hsecs : d.wholeHours * 3600 = d.truncateToHours.secs := by
    rw [secs_truncateToHours, Int.mul_comm]
  simp only [ofHours?, Word.mul?, Word.of?_eq (show _ ≤ d.wholeHours * 3600 by omega) (by omega),
    Option.bind_eq_bind, Option.bind_some]
  rw [hsecs, ofSeconds?_self rfl]

theorem ofSeconds?_of_bounds {n : Int} (hlow : -9223372036854775 ≤ n)
    (hhigh : n ≤ 9223372036854775) :
    ∃ d, ofSeconds? n = some d ∧ d.secs = n ∧ d.nanos = 0 := by
  have hparts : (0 : Nat) < 1000000000 ∧
      (-9223372036854776 < n ∨ (n = -9223372036854776 ∧ (193000000 : Nat) ≤ 0)) ∧
      (n < 9223372036854775 ∨ (n = 9223372036854775 ∧ (0 : Nat) ≤ 807000000)) := by omega
  exact ⟨_, dif_pos hparts, rfl, rfl⟩

theorem ofHours?_of_lt_day {n : Nat} (h : n < 24) :
    ∃ d, ofHours? n = some d ∧ d.secs = 3600 * n ∧ d.nanos = 0 := by
  have hmul : Word.mul? n 3600 = some (3600 * (n : Int)) := by
    rw [Word.mul?, Int.mul_comm, Word.of?_eq (by omega) (by omega)]
  obtain ⟨d, hd, hspec⟩ :=
    @ofSeconds?_of_bounds (3600 * (n : Int)) (by omega) (by omega)
  refine ⟨d, ?_, hspec⟩
  rw [ofHours?, hmul, Option.bind_eq_bind, Option.bind_some, hd]

end Duration

/-! ## Instants -/

namespace Instant

/-- The duration from an instant on.  Of two times of the day, the leap second of the earlier one
counts. -/
def since? (a b : Instant) : Option Duration := do
  let leap : Int :=
    if b.secondOfDay < a.secondOfDay ∧ 1000000000 ≤ b.nanos then 1
    else if a.secondOfDay < b.secondOfDay ∧ 1000000000 ≤ a.nanos then -1
    else 0
  let secs ← Word.sub? a.secs b.secs
  let secs ← Word.add? secs leap
  let nanos : Int := a.nanos - b.nanos
  let secs ← Word.add? secs (nanos / 1000000000)
  Duration.ofParts? secs (nanos % 1000000000).toNat

theorem secs_bounds (t : Instant) : -8334601228800 ≤ t.secs ∧ t.secs ≤ 8210266876799 :=
  ⟨t.lower, t.upper⟩

theorem since?_eq {a b : Instant} (ha : a.IsOnHour) (hb : b.IsOnHour) :
    ∃ d, a.since? b = some d ∧ d.secs = a.secs - b.secs ∧ d.nanos = 0 := by
  have habounds := a.secs_bounds
  have hbbounds := b.secs_bounds
  obtain ⟨d, hd, hspan⟩ :=
    Duration.ofSeconds?_of_bounds (show -9223372036854775 ≤ a.secs - b.secs by omega) (by omega)
  have hsub : Word.sub? a.secs b.secs = some (a.secs - b.secs) :=
    Word.of?_eq (by omega) (by omega)
  have hadd : Word.add? (a.secs - b.secs) 0 = some (a.secs - b.secs) := by
    rw [Word.add?, Int.add_zero, Word.of?_eq (by omega) (by omega)]
  refine ⟨d, ?_, hspan⟩
  rw [← hd]
  simp [since?, (isOnHour_iff.1 ha).2, (isOnHour_iff.1 hb).2, hsub, hadd, Duration.ofSeconds?]

end Instant

/-! ## Schedules -/

namespace Checked

/-- The hour of the day, on the date. -/
def truncateToHour (t : Instant) : Option Instant := do
  let time ← Duration.ofHours? t.hour
  Instant.ofUnix? (t.date.toDays * 86400 + time.secs % 86400) time.nanos

def window (account : String) (start stop : Instant) : Option (Except UsageError Window) :=
  if stop < start then some (.error .invalidRange)
  else do
    let start ← truncateToHour start
    let stop ← truncateToHour stop
    return .ok ⟨⟨partitionOffset account start, partitionOffset account stop⟩, start, stop⟩

def schedule (account : String) (start stop : Instant) (step : Duration) :
    Option (Except UsageError Schedule) := do
  let hour ← Duration.ofHours? 1
  if step.isBelow hour then return .error .invalidWindow
  match ← window account start stop with
  | .error e => return .error e
  | .ok whole =>
    let next := if whole.start < whole.stop then some whole.start else none
    let step ← Duration.ofHours? (← step.wholeHours?)
    return .ok ⟨account, next, whole.stop, step⟩

/-- A step out of the range of instants ends with the range, and is no failure. -/
def advance (s : Schedule) : Option (Except UsageError (Window × Schedule)) :=
  match s.next with
  | none => some (.error .exhausted)
  | some start => do
    let sum ← Word.add? start.secs s.step.secs
    let stop := ((Instant.ofUnix? sum start.nanos).map (·.earlier s.stop)).getD s.stop
    match ← window s.account start stop with
    | .error e => return .error e
    | .ok w => return .ok (w, { s with next := if stop < s.stop then some stop else none })

def remaining (s : Schedule) : Option Nat :=
  match s.next with
  | none => some 0
  | some start => do
    let span ← (← s.stop.since? start).wholeHours?
    let step ← s.step.wholeHours?
    let sum ← Word.sub? (← Word.add? span step) 1
    return Word.toCount (← Word.div? sum step)

theorem truncateToHour_eq (t : Instant) : truncateToHour t = some t.truncateToHour := by
  obtain ⟨time, htime, hsecs, hnanos⟩ := Duration.ofHours?_of_lt_day t.hour_lt
  have hhour := t.hour_lt
  have hwhole : t.date.toDays * 86400 + time.secs % 86400 = t.truncateToHour.secs := by
    rw [Instant.secs_truncateToHour, Instant.hourNumber_eq, hsecs]
    omega
  rw [truncateToHour, htime, Option.bind_eq_bind, Option.bind_some, hwhole, hnanos]
  exact Instant.ofUnix?_self t.leapOnMinute_truncateToHour

theorem window_eq (account : String) (start stop : Instant) :
    window account start stop = some (Window.ofRange account start stop) := by
  unfold window Window.ofRange
  split
  · rfl
  · simp only [truncateToHour_eq]
    rfl

/-- Every range is checked and split on numbers of 64 bits. -/
theorem schedule_eq (account : String) (start stop : Instant) (step : Duration) :
    schedule account start stop step = some (Schedule.ofRange account start stop step) := by
  have hhour : Duration.ofHours? 1 =
      some ⟨3600, 0, by decide, .inl (by decide), .inl (by decide)⟩ := by decide
  have hbelow : step.isBelow ⟨3600, 0, by decide, .inl (by decide), .inl (by decide)⟩ =
      !step.isHourOrLonger := by
    rw [Bool.eq_iff_iff]
    simp [Duration.isBelow, Duration.isHourOrLonger]
  simp only [schedule, hhour, Option.bind_eq_bind, Option.bind_some, hbelow, window_eq,
    Duration.wholeHours?_eq, Duration.ofHours?_wholeHours]
  unfold Schedule.ofRange
  split
  · rfl
  · cases Window.ofRange account start stop <;> rfl

theorem advance_eq (s : Schedule) : advance s = some s.advance := by
  unfold advance Schedule.advance
  cases hnext : s.next with
  | none => rfl
  | some start =>
      have hstart := start.secs_bounds
      have hstep := s.step.secs_bounds
      have hsum : Word.add? start.secs s.step.secs = some (start.secs + s.step.secs) :=
        Word.of?_eq (by omega) (by omega)
      have hend : ((Instant.ofUnix? (start.secs + s.step.secs) start.nanos).map
          (·.earlier s.stop)).getD s.stop = s.stepEnd start := by
        simp only [Schedule.stepEnd, Instant.addSeconds?]
        cases Instant.ofUnix? (start.secs + s.step.secs) start.nanos <;> rfl
      simp only [hsum, hend, Option.bind_eq_bind, Option.bind_some, window_eq]
      cases Window.ofRange s.account start (s.stepEnd start) <;> rfl

/-- The number of windows rounds the hours left up to whole steps, of which there is one at
least. -/
theorem remaining_eq {s : Schedule} (hs : s.Valid) : remaining s = some s.remaining := by
  unfold remaining Schedule.remaining
  cases hnext : s.next with
  | none => rfl
  | some start =>
      have hstart := start.secs_bounds
      have hstop := s.stop.secs_bounds
      have hlt := hs.next_lt start hnext
      rw [Instant.lt_def] at hlt
      have hpos := hs.step_pos
      have hstep := s.step.wholeHours_bounds
      obtain ⟨span, hspan, hsecs, -⟩ :=
        Instant.since?_eq hs.stop_onHour (hs.next_onHour start hnext)
      have hhours : span.wholeHours = (s.stop.secs - start.secs) / 3600 := by
        have hwhole : span.wholeSeconds = span.secs := if_neg (by omega)
        rw [Duration.wholeHours, hwhole, if_neg (by omega), hsecs]
      simp only [hspan, Duration.wholeHours?_eq, hhours, Option.bind_eq_bind, Option.bind_some]
      generalize hleft : (s.stop.secs - start.secs) / 3600 = hours
      generalize s.step.wholeHours = step at hpos hstep ⊢
      have hadd : Word.add? hours step = some (hours + step) :=
        Word.of?_eq (by omega) (by omega)
      have hsub : Word.sub? (hours + step) 1 = some (hours + step - 1) :=
        Word.of?_eq (by omega) (by omega)
      have hlow : 0 ≤ (hours + step - 1) / step := Int.ediv_nonneg (by omega) (by omega)
      have hhigh : (hours + step - 1) / step ≤ hours + step - 1 :=
        Int.ediv_le_self _ (by omega)
      have hdiv : Word.div? (hours + step - 1) step = some ((hours + step - 1) / step) := by
        rw [Word.div?, if_neg (by omega), Int.tdiv_eq_ediv_of_nonneg (by omega),
          Word.of?_eq (by omega) (by omega)]
      simp only [hadd, hsub, hdiv, Option.bind_some]
      rw [Word.toCount_eq hlow (by omega)]
      rfl

end Checked

end HourlyUsage
