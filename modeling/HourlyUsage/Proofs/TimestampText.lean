import HourlyUsage.Calendar.Timestamp.Relaxed
import HourlyUsage.Calendar.Timestamp.Text
import HourlyUsage.Proofs.CalendarOrder
import HourlyUsage.Proofs.DigitRuns
import HourlyUsage.Proofs.HourOrder
import HourlyUsage.Proofs.LocalClock

/-!
# Reading written timestamps

Each part of a written timestamp ends where the next one begins, and reads back as
the number that was written.  So a timestamp is read back as the instant that its
clock shows, which is the instant itself unless that lies in a leap second within a
minute.  Leap seconds at the end of a minute are read back exactly, and so are
years of any sign and length.
-/

namespace HourlyUsage

open Text

namespace Timestamp
namespace Relaxed

/-! ## Numbers -/

theorem digits_append (width : Option Nat) {ds rest : List Char} (hds : ∀ c ∈ ds, IsDigitChar c)
    (hne : ds ≠ []) (hwidth : ∀ w ∈ width, ds.length ≤ w) (hlimit : digitsValue ds ≤ numberLimit)
    (hrest : EndsDigits rest) : digits width (ds ++ rest) = .ok (digitsValue ds, rest) := by
  have hfits : ¬ numberLimit < digitsValue ds := Nat.not_lt.2 hlimit
  cases width with
  | none => simp [digits, takeWhile_digits hds hrest, hne, hfits]
  | some w =>
      have htaken : ds.take w = ds := List.take_of_length_le (hwidth w rfl)
      simp [digits, takeWhile_digits hds hrest, htaken, hne, hfits]

theorem isBlank_digit {c : Char} (h : IsDigitChar c) : isBlank c = false := by
  obtain ⟨d, hd, rfl⟩ := h
  have hall : ∀ d < 10, isBlank (digit d) = false := by decide
  exact hall d hd

theorem trimStart_append {blanks : List Char} (h : ∀ c ∈ blanks, isBlank c = true)
    (cs : List Char) : trimStart (blanks ++ cs) = trimStart cs :=
  List.dropWhile_append_of_pos h

theorem trimStart_of_not_blank {c : Char} (h : isBlank c = false) (cs : List Char) :
    trimStart (c :: cs) = c :: cs :=
  List.dropWhile_cons_of_neg (by simp [h])

theorem trimStart_digits {ds : List Char} (hds : ∀ c ∈ ds, IsDigitChar c) (hne : ds ≠ [])
    (rest : List Char) : trimStart (ds ++ rest) = ds ++ rest := by
  cases ds with
  | nil => exact absurd rfl hne
  | cons c ds => exact trimStart_of_not_blank (isBlank_digit (hds c (List.mem_cons_self ..))) _

/-- A number behind white space, as a month or a part of a clock is written. -/
theorem field_append {low high n : Nat} {blanks ds rest : List Char}
    (hblanks : ∀ c ∈ blanks, isBlank c = true) (hds : ∀ c ∈ ds, IsDigitChar c) (hne : ds ≠ [])
    (hlength : ds.length ≤ 2) (hvalue : digitsValue ds = n) (hlow : low ≤ n) (hhigh : n ≤ high)
    (hrest : EndsDigits rest) : field low high (blanks ++ (ds ++ rest)) = .ok (n, rest) := by
  have hlimit : digitsValue ds ≤ numberLimit := by
    have hlt := digitsValue_lt hds
    have hpow : 10 ^ ds.length ≤ 10 ^ 2 := Nat.pow_le_pow_right (by decide) hlength
    simp only [numberLimit]
    omega
  have hdigits := digits_append (some 2) hds hne (by simpa using hlength) hlimit hrest
  rw [hvalue] at hdigits
  simp only [field, trimStart_append hblanks, trimStart_digits hds hne, hdigits, bind, Except.bind]
  rw [if_pos ⟨hlow, hhigh⟩]
  rfl

theorem field_fixed {low high n : Nat} (hlow : low ≤ n) (hhigh : n ≤ high) (hn : n < 100)
    {rest : List Char} (hrest : EndsDigits rest) :
    field low high (fixed 2 n ++ rest) = .ok (n, rest) := by
  have hds : ∀ c ∈ fixed 2 n, IsDigitChar c := fun c hc ↦ .of_mem_fixed hc
  have hne : fixed 2 n ≠ [] := List.ne_nil_of_length_pos (by simp)
  have hvalue : digitsValue (fixed 2 n) = n := digitsValue_fixed (by omega)
  rw [← List.nil_append (fixed 2 n ++ rest)]
  exact field_append nofun hds hne (by simp) hvalue hlow hhigh hrest

/-! ## Years -/

section Signed

variable {n : Nat} {ds rest : List Char} (hds : ∀ c ∈ ds, IsDigitChar c) (hne : ds ≠ [])
  (hvalue : digitsValue ds = n) (hrest : EndsDigits rest)

include hds hne hvalue hrest

theorem digits_of_year (hn : n ≤ 2147483648) : digits none (ds ++ rest) = .ok (n, rest) := by
  have hlimit : digitsValue ds ≤ numberLimit := hvalue ▸ hn.trans (by decide)
  rw [digits_append none hds hne (by simp) hlimit hrest, hvalue]

theorem year_of_minus (hn : n ≤ 2147483648) :
    year ('-' :: (ds ++ rest)) = .ok (-(n : Int), rest) := by
  rw [year, trimStart_of_not_blank (by decide)]
  simp only [digits_of_year hds hne hvalue hrest hn, bind, Except.bind, pure, Except.pure]
  rw [if_pos (by omega)]

theorem year_of_plus (hn : n ≤ 2147483647) :
    year ('+' :: (ds ++ rest)) = .ok ((n : Int), rest) := by
  have hdigits := digits_of_year hds hne hvalue hrest (by omega)
  rw [year, trimStart_of_not_blank (by decide)]
  simp only [hdigits, bind, Except.bind, pure, Except.pure]
  rw [if_pos (by omega)]

end Signed

/-- What a year is read as behind its sign. -/
theorem year_of_sign (y : Int) (hlow : -2147483648 ≤ y) (hhigh : y ≤ 2147483647)
    {ds rest : List Char} (hds : ∀ c ∈ ds, IsDigitChar c) (hne : ds ≠ [])
    (hvalue : digitsValue ds = y.natAbs) (hrest : EndsDigits rest) :
    year ((if y < 0 then '-' else '+') :: (ds ++ rest)) = .ok (y, rest) := by
  by_cases hy : y < 0
  · have hneg : -(y.natAbs : Int) = y := by omega
    rw [if_pos hy, year_of_minus hds hne hvalue hrest (by omega), hneg]
  · have hpos : (y.natAbs : Int) = y := by omega
    rw [if_neg hy, year_of_plus hds hne hvalue hrest (by omega), hpos]

theorem year_of_digits {n : Nat} {ds rest : List Char} (hds : ∀ c ∈ ds, IsDigitChar c)
    (hne : ds ≠ []) (hlength : ds.length ≤ 4) (hvalue : digitsValue ds = n) (hn : n ≤ 9999)
    (hrest : EndsDigits rest) : year (ds ++ rest) = .ok ((n : Int), rest) := by
  have hlimit : digitsValue ds ≤ numberLimit := by
    simp only [numberLimit]
    omega
  have hdigits := digits_append (some 4) hds hne (by simpa using hlength) hlimit hrest
  rw [hvalue] at hdigits
  have hsign : ∀ c ∈ (ds ++ rest).head?, c ≠ '-' ∧ c ≠ '+' := by
    cases ds with
    | nil => exact absurd rfl hne
    | cons c ds =>
        rintro _ ⟨⟩
        have hdigit := (hds c (List.mem_cons_self ..)).isDigit
        constructor
        all_goals
          rintro rfl
          revert hdigit
          decide
  unfold year
  rw [trimStart_digits hds hne]
  split
  · next h => exact absurd rfl (hsign '-' (by rw [h]; rfl)).1
  · next h => exact absurd rfl (hsign '+' (by rw [h]; rfl)).2
  · simp only [hdigits, bind, Except.bind, pure, Except.pure]
    rw [if_pos (by omega)]

theorem year_yearChars {y : Int} (hlow : -2147483648 ≤ y) (hhigh : y ≤ 2147483647)
    {rest : List Char} (hrest : EndsDigits rest) : year (yearChars y ++ rest) = .ok (y, rest) := by
  have hfixed : ∀ n, ∀ c ∈ fixed 4 n, IsDigitChar c := fun n c hc ↦ .of_mem_fixed hc
  have hne : ∀ n, fixed 4 n ≠ [] := fun n ↦ List.ne_nil_of_length_pos (by simp)
  unfold yearChars
  split
  · next h =>
    have hvalue : digitsValue (fixed 4 y.toNat) = y.toNat := digitsValue_fixed (by omega)
    have hyear := year_of_digits (hfixed _) (hne _) (by simp) hvalue (by omega) hrest
    rwa [Int.toNat_of_nonneg h.1] at hyear
  · rw [List.cons_append]
    by_cases hsmall : y.natAbs < 1000
    · rw [if_pos hsmall]
      exact year_of_sign y hlow hhigh (hfixed _) (hne _) (digitsValue_fixed (by omega)) hrest
    · rw [if_neg hsmall]
      exact year_of_sign y hlow hhigh (fun c hc ↦ .of_mem_decimal hc) (decimal_ne_nil _)
        (digitsValue_decimal _) hrest

/-! ## Fractions -/

/-- Zeros behind digits raise their value, and the digits alone are taken where nine are asked
for. -/
theorem nanosOfDigits_fixed {width n : Nat} (hwidth : width ≤ 9) (hn : n < 10 ^ width) :
    nanosOfDigits (fixed width n) = n * 10 ^ (9 - width) := by
  have htaken : (fixed width n ++ List.replicate 9 '0').take 9 =
      fixed width n ++ List.replicate (9 - width) '0' := by
    rw [List.take_append, List.take_of_length_le (by simpa using hwidth), length_fixed,
      List.take_replicate, Nat.min_eq_left (Nat.sub_le 9 width)]
  rw [nanosOfDigits, htaken, digitsValue_append, digitsValue_fixed hn, digitsValue_replicate,
    List.length_replicate, Nat.add_zero]

theorem fraction_fixed (width n : Nat) (hpos : 0 < width) (hwidth : width ≤ 9)
    (hn : n < 10 ^ width) {rest : List Char} (hrest : EndsDigits rest) :
    fraction ('.' :: (fixed width n ++ rest)) = .ok (n * 10 ^ (9 - width), rest) := by
  have hds : ∀ c ∈ fixed width n, IsDigitChar c := fun c hc ↦ .of_mem_fixed hc
  have hne : fixed width n ≠ [] := List.ne_nil_of_length_pos (by simpa using hpos)
  have hlimit : digitsValue (fixed width n) ≤ numberLimit := by
    have hmono : 10 ^ width ≤ 10 ^ 9 := Nat.pow_le_pow_right (by decide) hwidth
    rw [digitsValue_fixed hn]
    simp only [numberLimit]
    omega
  have hdigits := digits_append (some 9) hds hne (by simpa using hwidth) hlimit hrest
  simp only [fraction, hdigits, takeWhile_digits hds hrest, dropWhile_digits hds hrest,
    nanosOfDigits_fixed hwidth hn, bind, Except.bind]
  rfl

theorem fraction_fractionChars {nanos : Nat} (h : nanos < 1000000000) (rest : List Char) :
    fraction (Instant.fractionChars nanos ++ 'Z' :: rest) = .ok (nanos, 'Z' :: rest) := by
  have hend : EndsDigits ('Z' :: rest) := endsDigits_cons (by decide) rest
  unfold Instant.fractionChars
  split
  · next hzero => rw [hzero]; rfl
  · split
    · have hread := fraction_fixed 3 (nanos / 1000000) (by decide) (by decide)
        (by omega) hend
      have hvalue : nanos / 1000000 * 10 ^ (9 - 3) = nanos := by omega
      rw [hvalue] at hread
      exact hread
    · split
      · have hread := fraction_fixed 6 (nanos / 1000) (by decide) (by decide)
          (by omega) hend
        have hvalue : nanos / 1000 * 10 ^ (9 - 6) = nanos := by omega
        rw [hvalue] at hread
        exact hread
      · have hread := fraction_fixed 9 nanos (by decide) (by decide)
          (by omega) hend
        have hvalue : nanos * 10 ^ (9 - 9) = nanos := by omega
        rw [hvalue] at hread
        exact hread

/-! ## Dates -/

theorem ofYmd?_date (d : Date) : Date.ofYmd? d.year d.month d.day = some d :=
  dif_pos ⟨d.one_le_month, d.month_le, d.one_le_day, d.day_le⟩

theorem dateOf?_date (d : Date) (hlow : -262143 ≤ d.year) (hhigh : d.year ≤ 262142) :
    dateOf? d.year d.month d.day = some d := by
  rw [dateOf?, if_pos ⟨hlow, hhigh⟩, ofYmd?_date]

end Relaxed
end Timestamp

/-! ## Instants -/

namespace Instant

open Timestamp

theorem year_bounds (t : Instant) : -262143 ≤ t.date.year ∧ t.date.year ≤ 262142 := by
  have hlow := t.lower
  have hhigh := t.upper
  have hdays := t.toDays_date
  have hstart := t.date.yearStart_le_toDays
  have hend := t.date.toDays_lt_yearStart
  constructor
  · by_contra hbefore
    have hyear := yearStart_mono (show t.date.year + 1 ≤ -262143 by omega)
    have hfirst : yearStart (-262143) * 86400 = earliestSecond := by decide
    omega
  · by_contra hbehind
    have hyear := yearStart_mono (show 262143 ≤ t.date.year by omega)
    have hlast : yearStart 262143 * 86400 = latestSecond + 1 := by decide
    omega

theorem minute_lt (t : Instant) : t.minute < 60 := Nat.mod_lt _ (by decide)

theorem second_lt (t : Instant) : t.second < 60 := Nat.mod_lt _ (by decide)

theorem writtenSecond_le (t : Instant) : t.writtenSecond ≤ 60 := by
  have := t.second_lt
  unfold writtenSecond
  split <;> omega

theorem instantOf?_written (t : Instant) :
    instantOf? t.date t.hour t.minute t.writtenSecond t.writtenNanos 0 = some t.asWritten := by
  have hlocal := t.instantOf?_local UtcOffset.utc
  rwa [localDate_utc, localHour_utc, localMinute_utc, localSecond_utc, UtcOffset.utc,
    Int.mul_zero] at hlocal

theorem chars_eq (t : Instant) :
    t.chars = yearChars t.date.year ++ '-' :: (fixed 2 t.date.month ++ '-' ::
      (fixed 2 t.date.day ++ 'T' :: (fixed 2 t.hour ++ ':' :: (fixed 2 t.minute ++ ':' ::
        (fixed 2 t.writtenSecond ++ (fractionChars t.writtenNanos ++ ['Z'])))))) := by
  simp only [chars, clockChars, Date.chars, List.append_assoc, List.cons_append]

/-- An instant is written as the one that its clock shows. -/
theorem chars_asWritten (t : Instant) : t.asWritten.chars = t.chars := by
  obtain ⟨hdate, hhour, hminute, hsecond, hnanos⟩ := t.clock_asWritten UtcOffset.utc
  simp only [localDate_utc, localHour_utc, localMinute_utc, localSecond_utc] at *
  rw [chars_eq, chars_eq, hdate, hhour, hminute, hsecond, hnanos]

theorem endsDigits_fractionChars (nanos : Nat) :
    EndsDigits (fractionChars nanos ++ ['Z']) := by
  have hpoint : ∀ rest, EndsDigits ('.' :: rest) := endsDigits_cons (by decide)
  unfold fractionChars
  split
  · exact endsDigits_cons (by decide) []
  · repeat' split
    all_goals exact hpoint _

/-- A written timestamp is read back as the instant that its clock shows. -/
theorem read_chars (t : Instant) : Relaxed.read t.chars = .ok t.asWritten := by
  have hyears := t.year_bounds
  have hminus : ∀ rest, EndsDigits ('-' :: rest) := endsDigits_cons (by decide)
  have hcolon : ∀ rest, EndsDigits (':' :: rest) := endsDigits_cons (by decide)
  have htime : ∀ rest, EndsDigits ('T' :: rest) := endsDigits_cons (by decide)
  have hdash : ∀ rest, Relaxed.mark '-' (trimStart ('-' :: rest)) = .ok rest := fun _ ↦ rfl
  have hpart : ∀ rest, Relaxed.mark ':' (trimStart (':' :: rest)) = .ok rest := fun _ ↦ rfl
  have hseparator : ∀ rest, Relaxed.separator ('T' :: rest) = .ok rest := fun _ ↦ rfl
  have hmonth := fun rest ↦ Relaxed.field_fixed t.date.one_le_month t.date.month_le
    t.date.month_lt (hminus rest)
  have hday := fun rest ↦ Relaxed.field_fixed t.date.one_le_day t.date.day_le_31
    t.date.day_lt (htime rest)
  have hhour := fun rest ↦ Relaxed.field_fixed (Nat.zero_le t.hour) (Nat.le_of_lt_succ t.hour_lt)
    (Nat.lt_trans t.hour_lt (by decide)) (hcolon rest)
  have hminute := fun rest ↦ Relaxed.field_fixed (Nat.zero_le t.minute)
    (Nat.le_of_lt_succ t.minute_lt) (Nat.lt_trans t.minute_lt (by decide)) (hcolon rest)
  have hsecond := Relaxed.field_fixed (Nat.zero_le t.writtenSecond) t.writtenSecond_le
    (Nat.lt_of_le_of_lt t.writtenSecond_le (by decide)) (endsDigits_fractionChars t.writtenNanos)
  have hnanos : t.writtenNanos < 1000000000 := Nat.mod_lt _ (by decide)
  have hfraction := Relaxed.fraction_fractionChars hnanos []
  have hzone : Relaxed.zone (trimStart ['Z']) = .ok (0, []) := by decide
  have hdate := Relaxed.dateOf?_date t.date hyears.1 hyears.2
  rw [chars_eq, Relaxed.read, Relaxed.year_yearChars (by omega) (by omega) (hminus _)]
  simp only [bind, Except.bind, hdash, hmonth, hday, hseparator, hhour, hpart, hminute, hsecond,
    hfraction, hzone, hdate, instantOf?_written]
  rfl

end Instant
end HourlyUsage
