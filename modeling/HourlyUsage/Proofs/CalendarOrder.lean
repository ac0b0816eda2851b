import HourlyUsage.Calendar.Timestamp.Text
import HourlyUsage.Proofs.ByteOrder

/-!
# Order of dates

Day numbers order dates by year, then month, then day.  A date with a year of
four digits is written with ten characters, and two of these compare byte by
byte as the dates do.
-/

namespace HourlyUsage

open Text

/-! ## Years and months -/

theorem yearStart_mono {y z : Int} (h : y ≤ z) : yearStart y ≤ yearStart z := by
  simp only [yearStart]
  omega

theorem monthStart_succ (y : Int) {m : Nat} (hm : 1 ≤ m) :
    monthStart y (m + 1) = monthStart y m + monthLength y m := by
  rw [monthStart, if_neg (by omega)]

theorem monthStart_mono (y : Int) {m n : Nat} (h : m ≤ n) : monthStart y m ≤ monthStart y n := by
  induction n with
  | zero =>
      obtain rfl : m = 0 := by omega
      exact Nat.le_refl _
  | succ n ih =>
      rcases Nat.lt_or_ge n m with hlt | hge
      · obtain rfl : m = n + 1 := by omega
        exact Nat.le_refl _
      · have := ih hge
        simp only [monthStart]
        omega

theorem monthLength_le (y : Int) (m : Nat) : monthLength y m ≤ 31 := by
  unfold monthLength
  repeat' split
  all_goals decide

namespace Date

theorem yearStart_le_toDays (d : Date) : yearStart d.year ≤ d.toDays := by
  have := d.one_le_day
  simp only [toDays]
  omega

theorem day_le_monthStart (d : Date) :
    monthStart d.year d.month + d.day ≤ monthStart d.year (d.month + 1) := by
  have := d.day_le
  rw [monthStart_succ d.year d.one_le_month]
  omega

theorem toDays_lt_yearStart (d : Date) : d.toDays < yearStart (d.year + 1) := by
  have hday := d.day_le_monthStart
  have hmonth := monthStart_mono d.year (show d.month + 1 ≤ 13 by have := d.month_le; omega)
  rw [monthStart_thirteen] at hmonth
  rw [yearStart_succ]
  simp only [toDays]
  omega

/-! ## Dates -/

/-- The calendar order of dates, by year, month and day. -/
def Precedes (a b : Date) : Prop :=
  a.year < b.year ∨ a.year = b.year ∧ (a.month < b.month ∨ a.month = b.month ∧ a.day < b.day)

theorem Precedes.toDays_lt {a b : Date} (h : a.Precedes b) : a.toDays < b.toDays := by
  rcases h with hy | ⟨hy, hm | ⟨hm, hd⟩⟩
  · have ha := a.toDays_lt_yearStart
    have hb := b.yearStart_le_toDays
    have := yearStart_mono (show a.year + 1 ≤ b.year by omega)
    omega
  · have ha := a.day_le_monthStart
    have hb := b.one_le_day
    have := monthStart_mono a.year (show a.month + 1 ≤ b.month by omega)
    simp only [toDays, ← hy]
    omega
  · simp only [toDays, ← hy, ← hm]
    omega

theorem precedes_trichotomy (a b : Date) : a.Precedes b ∨ a = b ∨ b.Precedes a := by
  rcases a with ⟨ya, ma, da, _, _, _, _⟩
  rcases b with ⟨yb, mb, db, _, _, _, _⟩
  simp only [Precedes, Date.mk.injEq]
  omega

/-- Day numbers order dates as the calendar does. -/
theorem toDays_lt_iff {a b : Date} : a.toDays < b.toDays ↔ a.Precedes b := by
  constructor
  · intro h
    rcases a.precedes_trichotomy b with hab | rfl | hba
    · exact hab
    · omega
    · have := hba.toDays_lt
      omega
  · exact Precedes.toDays_lt

theorem toDays_inj {a b : Date} : a.toDays = b.toDays ↔ a = b := by
  constructor
  · intro h
    rcases a.precedes_trichotomy b with hab | rfl | hba
    · have := hab.toDays_lt
      omega
    · rfl
    · have := hba.toDays_lt
      omega
  · exact congrArg toDays

theorem year_le_of_toDays_le {a b : Date} (h : a.toDays ≤ b.toDays) : a.year ≤ b.year := by
  rcases Int.lt_or_le b.year a.year with hlt | hle
  · have hba : b.Precedes a := .inl hlt
    have := hba.toDays_lt
    omega
  · exact hle

/-! ## Written dates -/

/-- Is the year of a date written with four digits and no sign? -/
def HasFourDigitYear (d : Date) : Prop := 0 ≤ d.year ∧ d.year ≤ 9999

instance (d : Date) : Decidable d.HasFourDigitYear :=
  inferInstanceAs (Decidable (0 ≤ d.year ∧ d.year ≤ 9999))

theorem HasFourDigitYear.chars_eq {d : Date} (h : d.HasFourDigitYear) :
    d.chars = fixed 4 d.year.toNat ++ '-' :: (fixed 2 d.month ++ '-' :: fixed 2 d.day) := by
  have hyear : yearChars d.year = fixed 4 d.year.toNat := if_pos h
  simp only [chars, hyear, List.append_assoc, List.cons_append]

theorem HasFourDigitYear.length_chars {d : Date} (h : d.HasFourDigitYear) :
    d.chars.length = 10 := by
  simp [h.chars_eq]

theorem charBytes_chars {d : Date} (h : d.HasFourDigitYear) :
    charBytes d.chars = charBytes (fixed 4 d.year.toNat) ++
      (charBytes ['-'] ++ (charBytes (fixed 2 d.month) ++
        (charBytes ['-'] ++ charBytes (fixed 2 d.day)))) := by
  rw [h.chars_eq, charBytes_append, charBytes_cons '-' (_ ++ _), charBytes_append,
    charBytes_cons '-' (fixed 2 d.day)]

theorem length_charBytes_chars {d : Date} (h : d.HasFourDigitYear) :
    (charBytes d.chars).length = 10 := by
  rw [charBytes_chars h]
  simp
  rfl

theorem month_lt (d : Date) : d.month < 10 ^ 2 := by
  have := d.month_le
  omega

theorem day_le_31 (d : Date) : d.day ≤ 31 :=
  Nat.le_trans d.day_le (monthLength_le d.year d.month)

theorem day_lt (d : Date) : d.day < 10 ^ 2 := Nat.lt_of_le_of_lt d.day_le_31 (by decide)

theorem HasFourDigitYear.toNat_lt {d : Date} (h : d.HasFourDigitYear) :
    d.year.toNat < 10 ^ 4 := by
  obtain ⟨h0, h1⟩ := h
  omega

/-- Written dates compare as the dates do. -/
theorem charBytes_chars_lt_iff {a b : Date} (ha : a.HasFourDigitYear) (hb : b.HasFourDigitYear) :
    charBytes a.chars < charBytes b.chars ↔ a.toDays < b.toDays := by
  have hya : (0 : Int) ≤ a.year := ha.1
  have hyb : (0 : Int) ≤ b.year := hb.1
  rw [toDays_lt_iff, charBytes_chars ha, charBytes_chars hb,
    append_lt_append_iff (by simp), fixed_lt_iff ha.toNat_lt hb.toNat_lt,
    fixed_eq_iff ha.toNat_lt hb.toNat_lt, append_lt_append_left_iff,
    append_lt_append_iff (by simp), fixed_lt_iff a.month_lt b.month_lt,
    fixed_eq_iff a.month_lt b.month_lt, append_lt_append_left_iff,
    fixed_lt_iff a.day_lt b.day_lt, Precedes]
  omega

theorem charBytes_chars_eq_iff {a b : Date} (ha : a.HasFourDigitYear) (hb : b.HasFourDigitYear) :
    charBytes a.chars = charBytes b.chars ↔ a = b := by
  constructor
  · intro h
    rcases a.precedes_trichotomy b with hab | rfl | hba
    · have := (charBytes_chars_lt_iff ha hb).2 hab.toDays_lt
      exact (List.lt_irrefl _ (h ▸ this)).elim
    · rfl
    · have := (charBytes_chars_lt_iff hb ha).2 hba.toDays_lt
      exact (List.lt_irrefl _ (h ▸ this)).elim
  · rintro rfl
    rfl

end Date
end HourlyUsage
