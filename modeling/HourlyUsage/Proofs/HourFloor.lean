import HourlyUsage.Proofs.HourOrder
import HourlyUsage.Proofs.LocalClock

/-!
# The hour that holds an instant

The date of an instant and the full hour of its clock always stand for an instant: the last one
at a full hour that is not after it.  This holds before 1970, where the numbers of seconds are
negative, inside leap seconds, and up to the first and the last instant there are.
-/

namespace HourlyUsage

open Timestamp

namespace Instant

/-- Does the clock show a full hour? -/
def ShowsFullHour (t : Instant) : Prop := t.minute = 0 ∧ t.second = 0 ∧ t.nanos = 0

instance (t : Instant) : Decidable t.ShowsFullHour :=
  inferInstanceAs (Decidable (t.minute = 0 ∧ t.second = 0 ∧ t.nanos = 0))

theorem showsFullHour_iff_isOnHour {t : Instant} : t.ShowsFullHour ↔ t.IsOnHour := by
  rw [isOnHour_iff, ShowsFullHour, ← and_assoc]
  apply and_congr_left'
  simp only [minute, second, secondOfDay, hourNumber]
  omega

/-- The full hour of the clock on its date is again an instant. -/
theorem instantOf?_fullHour (t : Instant) :
    instantOf? t.date t.hour 0 0 0 0 = some t.truncateToHour := by
  have hsecs : t.date.toDays * 86400 + t.hour * 3600 = t.truncateToHour.secs := by
    rw [secs_truncateToHour, hourNumber_eq]
    omega
  calc
    instantOf? t.date t.hour 0 0 0 0 = ofUnix? (t.date.toDays * 86400 + t.hour * 3600) 0 := by
      simp [instantOf?]
    _ = ofUnix? t.truncateToHour.secs t.truncateToHour.nanos := by
      rw [hsecs, nanos_truncateToHour]
    _ = some t.truncateToHour := ofUnix?_self t.leapOnMinute_truncateToHour

theorem IsOnHour.le_truncateToHour_iff {h : Instant} (hh : h.IsOnHour) (t : Instant) :
    h ≤ t.truncateToHour ↔ h ≤ t := by
  -- a full hour has no part of a second, so that only the seconds decide
  obtain ⟨hsecs, hnanos⟩ := isOnHour_iff.1 hh
  simp only [le_def, secs_truncateToHour, nanos_truncateToHour, hsecs, hnanos]
  simp only [hourNumber] at *
  omega

theorem truncateToHour_le (t : Instant) : t.truncateToHour ≤ t :=
  (t.isOnHour_truncateToHour.le_truncateToHour_iff t).1 le_rfl

theorem truncateToHour_mono {t u : Instant} (h : t ≤ u) : t.truncateToHour ≤ u.truncateToHour :=
  truncateToHour_le_iff.2 (hourNumber_mono h)

/-- Cutting an instant down to its hour is the floor onto the full hours: the date and the hour of
the clock stand for the result, which shows a full hour and has the same full hours in front of it
as the instant.  So it keeps full hours and the order of instants, never leads to a later one, and
keeps date and hour. -/
theorem truncateToHour_is_floor (t : Instant) :
    instantOf? t.date t.hour 0 0 0 0 = some t.truncateToHour ∧
      t.truncateToHour.ShowsFullHour ∧
      (∀ h : Instant, h.ShowsFullHour → (h ≤ t ↔ h ≤ t.truncateToHour)) ∧
      t.truncateToHour.truncateToHour = t.truncateToHour ∧
      (∀ u : Instant, t ≤ u → t.truncateToHour ≤ u.truncateToHour) ∧
      t.truncateToHour ≤ t ∧
      t.truncateToHour.date = t.date ∧ t.truncateToHour.hour = t.hour := by
  have hfloor (h : Instant) (hh : h.ShowsFullHour) : h ≤ t ↔ h ≤ t.truncateToHour :=
    ((showsFullHour_iff_isOnHour.1 hh).le_truncateToHour_iff t).symm
  exact ⟨t.instantOf?_fullHour, showsFullHour_iff_isOnHour.2 t.isOnHour_truncateToHour, hfloor,
    t.isOnHour_truncateToHour, fun _ ↦ truncateToHour_mono, t.truncateToHour_le,
    t.date_truncateToHour, t.hour_truncateToHour⟩

/-- Inside the leap second before 1970, and up to the last instant, itself inside a leap second. -/
theorem truncateToHour_is_floor_in_leap_second :
    let t : Instant := ⟨-1, 1500000000, by decide, by decide, by decide⟩
    let u : Instant := ⟨latestSecond, 1999999999, by decide, by decide, by decide⟩
    let h : Instant := ⟨-3600, 0, by decide, by decide, by decide⟩
    h.ShowsFullHour ∧ t ≤ u ∧ instantOf? t.date t.hour 0 0 0 0 = some h ∧
      (h ≤ t ↔ h ≤ t.truncateToHour) ∧ h ≤ u.truncateToHour := by
  intro t u h
  have hh : h.ShowsFullHour := by decide
  have hu : t ≤ u := by decide
  obtain ⟨hclock, -, hfloor, -, hmono, -⟩ := truncateToHour_is_floor t
  have ht : t.truncateToHour = h := by decide
  exact ⟨hh, hu, hclock.trans (congrArg some ht), hfloor h hh, ht ▸ hmono u hu⟩

end Instant
end HourlyUsage
