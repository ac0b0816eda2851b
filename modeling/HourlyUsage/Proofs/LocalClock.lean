import HourlyUsage.Calendar.Timestamp.Strict
import HourlyUsage.Calendar.Timestamp.Text

/-!
# Clocks at an offset

The date and the clock of any offset stand for their instant, whatever midnight, month or year
lies between them and those of UTC.  An offset of whole minutes leaves the second of the minute as
it is, so that a leap second at the end of a minute is second 60 at every offset.  A leap second
within a minute has no clock of its own: it is written as the second behind it.
-/

namespace HourlyUsage

open Timestamp

/-- A distance from UTC of whole minutes, less than a day. -/
structure UtcOffset where
  minutes : Int
  lower : -1440 < minutes
  upper : minutes < 1440

def UtcOffset.utc : UtcOffset := ⟨0, by decide, by decide⟩

namespace Instant

variable (t : Instant) (o : UtcOffset)

/-- The seconds from the first of January 1970 to what the clock shows. -/
def localSecs : Int := t.secs + 60 * o.minutes

def localDate : Date := Date.ofDays (t.localSecs o / 86400)

def localSecondOfDay : Nat := (t.localSecs o % 86400).toNat

def localHour : Nat := t.localSecondOfDay o / 3600

def localMinute : Nat := t.localSecondOfDay o / 60 % 60

/-- The second as it is written, one more inside a leap second. -/
def localSecond : Nat :=
  t.localSecondOfDay o % 60 + if t.nanos < 1000000000 then 0 else 1

/-! ## The clock of UTC -/

@[simp] theorem localSecs_utc : t.localSecs UtcOffset.utc = t.secs := by
  rw [localSecs, UtcOffset.utc, Int.mul_zero, Int.add_zero]

@[simp] theorem localDate_utc : t.localDate UtcOffset.utc = t.date := by
  rw [localDate, localSecs_utc, date]

@[simp] theorem localSecondOfDay_utc : t.localSecondOfDay UtcOffset.utc = t.secondOfDay := by
  rw [localSecondOfDay, localSecs_utc, secondOfDay]

@[simp] theorem localHour_utc : t.localHour UtcOffset.utc = t.hour := by
  rw [localHour, localSecondOfDay_utc, hour]

@[simp] theorem localMinute_utc : t.localMinute UtcOffset.utc = t.minute := by
  rw [localMinute, localSecondOfDay_utc, minute]

@[simp] theorem localSecond_utc : t.localSecond UtcOffset.utc = t.writtenSecond := by
  rw [localSecond, localSecondOfDay_utc, writtenSecond, second]
  split <;> rfl

/-! ## Ranges -/

theorem localHour_lt : t.localHour o < 24 := by
  simp only [localHour, localSecondOfDay]
  omega

theorem localMinute_lt : t.localMinute o < 60 := Nat.mod_lt _ (by decide)

theorem localSecond_le : t.localSecond o ≤ 60 := by
  have hlt : t.localSecondOfDay o % 60 < 60 := Nat.mod_lt _ (by decide)
  unfold localSecond
  split <;> omega

/-! ## Leap seconds within a minute -/

/-- If the instant lies in a leap second, that is the last second of its minute. -/
def LeapOnMinute : Prop := 1000000000 ≤ t.nanos → t.secs % 60 = 59

instance : Decidable t.LeapOnMinute :=
  inferInstanceAs (Decidable (1000000000 ≤ t.nanos → t.secs % 60 = 59))

/-- The instant that the clock shows.  A leap second within a minute shows as the second behind
it. -/
def asWritten : Instant :=
  if h : t.LeapOnMinute then t
  else
    { secs := t.secs + 1
      nanos := t.nanos - 1000000000
      lower := Int.le_add_one t.lower
      upper := by
        have hupper := t.upper
        simp only [LeapOnMinute, latestSecond] at *
        omega
      nanos_lt := Nat.lt_of_le_of_lt (Nat.sub_le ..) t.nanos_lt }

variable {t}

theorem leapOnMinute_of_nanos_lt (h : t.nanos < 1000000000) : t.LeapOnMinute :=
  fun hleap ↦ absurd h (Nat.not_lt.2 hleap)

theorem asWritten_of_leapOnMinute (h : t.LeapOnMinute) : t.asWritten = t := dif_pos h

theorem asWritten_of_not (h : ¬ t.LeapOnMinute) :
    t.asWritten.secs = t.secs + 1 ∧ t.asWritten.nanos = t.nanos - 1000000000 := by
  rw [asWritten, dif_neg h]
  exact ⟨rfl, rfl⟩

variable (t)

theorem leapOnMinute_asWritten : t.asWritten.LeapOnMinute := by
  by_cases h : t.LeapOnMinute
  · rwa [asWritten_of_leapOnMinute h]
  · apply leapOnMinute_of_nanos_lt
    have hnanos := t.nanos_lt
    rw [(asWritten_of_not h).2]
    omega

theorem asWritten_eq_self_iff : t.asWritten = t ↔ t.LeapOnMinute :=
  ⟨fun h ↦ h ▸ t.leapOnMinute_asWritten, asWritten_of_leapOnMinute⟩

theorem leapOnMinute_truncateToHour : t.truncateToHour.LeapOnMinute :=
  leapOnMinute_of_nanos_lt (show 0 < 1000000000 by decide)

/-- The clocks of an instant are those of the instant that they show. -/
theorem clock_asWritten :
    t.asWritten.localDate o = t.localDate o ∧ t.asWritten.localHour o = t.localHour o ∧
      t.asWritten.localMinute o = t.localMinute o ∧
      t.asWritten.localSecond o = t.localSecond o ∧ t.asWritten.writtenNanos = t.writtenNanos := by
  by_cases h : t.LeapOnMinute
  · rw [asWritten_of_leapOnMinute h]
    exact ⟨rfl, rfl, rfl, rfl, rfl⟩
  · obtain ⟨hsecs, hnanos⟩ := asWritten_of_not h
    have hlt := t.nanos_lt
    obtain ⟨hleap, hwithin⟩ := Classical.not_imp.1 h
    -- the second behind it is in the same minute, so nothing is carried
    have hlocal : t.asWritten.localSecs o = t.localSecs o + 1 := by
      simp only [localSecs, hsecs]
      omega
    have hminute : t.localSecs o % 60 ≠ 59 := by
      simp only [localSecs]
      omega
    have hday : (t.localSecs o + 1) / 86400 = t.localSecs o / 86400 := by omega
    have hsecond : t.asWritten.localSecondOfDay o = t.localSecondOfDay o + 1 := by
      simp only [localSecondOfDay, hlocal]
      omega
    have hwithin : t.localSecondOfDay o % 60 ≠ 59 := by
      simp only [localSecondOfDay]
      omega
    refine ⟨?_, ?_, ?_, ?_, ?_⟩
    · rw [localDate, hlocal, hday, localDate]
    · simp only [localHour, hsecond]
      omega
    · simp only [localMinute, hsecond]
      omega
    · simp only [localSecond, hsecond, hnanos]
      rw [if_pos (by omega), if_neg (by omega)]
      omega
    · simp only [writtenNanos, hnanos]
      omega

/-! ## Back to the instant -/

variable {t}

theorem ofUnix?_self (h : t.LeapOnMinute) : ofUnix? t.secs t.nanos = some t :=
  dif_pos ⟨t.lower, t.upper, t.nanos_lt, h⟩

theorem instantOf?_local_of_leapOnMinute (h : t.LeapOnMinute) :
    instantOf? (t.localDate o) (t.localHour o) (t.localMinute o) (t.localSecond o) t.writtenNanos
      (60 * o.minutes) = some t := by
  have hself := ofUnix?_self h
  have hnanos := t.nanos_lt
  have hdays : (t.localDate o).toDays = t.localSecs o / 86400 := Date.toDays_ofDays _
  have hclock : (t.localSecs o / 86400 * 86400 + t.localHour o * 3600 + t.localMinute o * 60 +
      (t.localSecondOfDay o % 60 : Nat) : Int) = t.localSecs o := by
    simp only [localHour, localMinute, localSecondOfDay]
    omega
  have hsecs : t.localSecs o - 60 * o.minutes = t.secs := Int.add_sub_cancel ..
  unfold instantOf? localSecond writtenNanos
  rw [hdays]
  by_cases hplain : t.nanos < 1000000000
  · have hnotLeap : t.localSecondOfDay o % 60 ≠ 60 := by omega
    simp only [if_pos hplain, Nat.add_zero, hnotLeap, if_false, Nat.mod_eq_of_lt hplain]
    rw [hclock, hsecs, hself]
  · -- an offset of whole minutes leaves the second of the minute as it is
    have hlast : t.localSecondOfDay o % 60 = 59 := by
      have hleap := h (by omega)
      simp only [localSecondOfDay, localSecs]
      omega
    have hmod : t.nanos % 1000000000 + 1000000000 = t.nanos := by omega
    rw [hlast] at hclock
    simp only [if_neg hplain, hlast, Nat.reduceAdd, if_true, hmod]
    rw [hclock, hsecs, hself]

variable (t)

/-- The date and the clock of an offset stand for the instant that they show. -/
theorem instantOf?_local :
    instantOf? (t.localDate o) (t.localHour o) (t.localMinute o) (t.localSecond o) t.writtenNanos
      (60 * o.minutes) = some t.asWritten := by
  obtain ⟨hdate, hhour, hminute, hsecond, hnanos⟩ := t.clock_asWritten o
  have hself := instantOf?_local_of_leapOnMinute o t.leapOnMinute_asWritten
  rwa [hdate, hhour, hminute, hsecond, hnanos] at hself

end Instant
end HourlyUsage
