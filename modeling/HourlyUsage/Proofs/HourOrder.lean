import HourlyUsage.Calendar.Instant
import HourlyUsage.Proofs.CalendarOrder
import Mathlib.Order.Defs.LinearOrder

/-!
# Order of instants and hours

Instants are in linear order.  The hours are numbered from 1970-01-01T00:00:00Z,
and cutting instants down to their hours keeps exactly the order of these
numbers, which is also that of date and hour of the day.
-/

namespace HourlyUsage

namespace Instant

theorem ext_iff' {a b : Instant} : a = b ↔ a.secs = b.secs ∧ a.nanos = b.nanos := by
  cases a
  cases b
  simp only [Instant.mk.injEq]

instance : LinearOrder Instant where
  le_refl a := .inr ⟨rfl, Nat.le_refl a.nanos⟩
  le_trans a b c hab hbc := by
    simp only [le_def] at *
    omega
  lt_iff_le_not_ge a b := by
    simp only [le_def, lt_def]
    omega
  le_antisymm a b := by
    simp only [le_def, ext_iff']
    omega
  le_total a b := by
    simp only [le_def]
    omega
  toDecidableLE := fun a b ↦ inferInstance

/-! ## Numbered hours -/

/-- The number of the hour that holds an instant. -/
def hourNumber (t : Instant) : Int := t.secs / 3600

@[simp] theorem secs_truncateToHour (t : Instant) :
    t.truncateToHour.secs = 3600 * t.hourNumber := by
  simp only [truncateToHour, hourNumber]
  omega

@[simp] theorem nanos_truncateToHour (t : Instant) : t.truncateToHour.nanos = 0 := rfl

theorem truncateToHour_le_iff {a b : Instant} :
    a.truncateToHour ≤ b.truncateToHour ↔ a.hourNumber ≤ b.hourNumber := by
  simp only [le_def, secs_truncateToHour, nanos_truncateToHour]
  omega

theorem truncateToHour_lt_iff {a b : Instant} :
    a.truncateToHour < b.truncateToHour ↔ a.hourNumber < b.hourNumber := by
  simp only [lt_def, secs_truncateToHour, nanos_truncateToHour]
  omega

theorem truncateToHour_eq_iff {a b : Instant} :
    a.truncateToHour = b.truncateToHour ↔ a.hourNumber = b.hourNumber := by
  rw [ext_iff', secs_truncateToHour, secs_truncateToHour, nanos_truncateToHour,
    nanos_truncateToHour, and_iff_left rfl]
  omega

theorem hourNumber_mono {a b : Instant} (h : a ≤ b) : a.hourNumber ≤ b.hourNumber := by
  simp only [le_def] at h
  simp only [hourNumber]
  omega

@[simp] theorem hourNumber_truncateToHour (t : Instant) :
    t.truncateToHour.hourNumber = t.hourNumber := by
  simp only [hourNumber, truncateToHour]
  omega

/-! ## Whole hours -/

/-- Does an hour begin at the instant? -/
def IsOnHour (t : Instant) : Prop := t.truncateToHour = t

@[simp] theorem isOnHour_truncateToHour (t : Instant) : t.truncateToHour.IsOnHour := by
  simp [IsOnHour, truncateToHour_eq_iff]

theorem isOnHour_iff {t : Instant} : t.IsOnHour ↔ t.secs = 3600 * t.hourNumber ∧ t.nanos = 0 := by
  rw [IsOnHour, ext_iff', secs_truncateToHour, nanos_truncateToHour, eq_comm, @eq_comm _ 0]

theorem IsOnHour.le_iff {a b : Instant} (ha : a.IsOnHour) (hb : b.IsOnHour) :
    a ≤ b ↔ a.hourNumber ≤ b.hourNumber := by
  rw [← truncateToHour_le_iff, ha, hb]

theorem IsOnHour.lt_iff {a b : Instant} (ha : a.IsOnHour) (hb : b.IsOnHour) :
    a < b ↔ a.hourNumber < b.hourNumber := by
  rw [← truncateToHour_lt_iff, ha, hb]

/-! ## Dates and hours of the day -/

theorem toDays_date (t : Instant) : t.date.toDays = t.secs / 86400 := Date.toDays_ofDays _

theorem hour_lt (t : Instant) : t.hour < 24 := by
  simp only [hour, secondOfDay]
  omega

theorem hourNumber_eq (t : Instant) : t.hourNumber = 24 * t.date.toDays + t.hour := by
  rw [toDays_date]
  simp only [hourNumber, hour, secondOfDay]
  omega

@[simp] theorem date_truncateToHour (t : Instant) : t.truncateToHour.date = t.date := by
  have h := t.truncateToHour.hourNumber_eq
  have h' := t.hourNumber_eq
  have hh := t.truncateToHour.hour_lt
  have hh' := t.hour_lt
  rw [hourNumber_truncateToHour] at h
  apply Date.toDays_inj.1
  omega

@[simp] theorem hour_truncateToHour (t : Instant) : t.truncateToHour.hour = t.hour := by
  have h := t.truncateToHour.hourNumber_eq
  have h' := t.hourNumber_eq
  rw [hourNumber_truncateToHour, date_truncateToHour] at h
  omega

theorem hourNumber_lt_iff {a b : Instant} :
    a.hourNumber < b.hourNumber ↔
      a.date.toDays < b.date.toDays ∨ a.date = b.date ∧ a.hour < b.hour := by
  have ha := a.hour_lt
  have hb := b.hour_lt
  rw [hourNumber_eq, hourNumber_eq, ← Date.toDays_inj]
  omega

/-- Years of four digits have no gap. -/
theorem hasFourDigitYear_of_le {a b t : Instant} (hat : a.hourNumber ≤ t.hourNumber)
    (htb : t.hourNumber ≤ b.hourNumber) (ha : a.date.HasFourDigitYear)
    (hb : b.date.HasFourDigitYear) : t.date.HasFourDigitYear := by
  have ha' := Date.year_le_of_toDays_le (a := a.date) (b := t.date) (by
    have := a.hourNumber_eq
    have := t.hourNumber_eq
    have := t.hour_lt
    omega)
  have hb' := Date.year_le_of_toDays_le (a := t.date) (b := b.date) (by
    have := b.hourNumber_eq
    have := t.hourNumber_eq
    have := b.hour_lt
    omega)
  exact ⟨Int.le_trans ha.1 ha', Int.le_trans hb' hb.2⟩

end Instant
end HourlyUsage
