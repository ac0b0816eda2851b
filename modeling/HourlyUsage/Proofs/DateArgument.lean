import HourlyUsage.CommandLine.Argument
import HourlyUsage.Proofs.LexemeFraming
import HourlyUsage.Proofs.OffsetText
import HourlyUsage.Proofs.Tiling

/-!
# Dates as arguments

A text that is no timestamp is taken for the midnight of a date.  The date may be written
with white space in front of its numbers, with fewer digits than it has places, and with
a sign and any number of digits in its year.  Without white space and without a sign, and
with no digit left out, there is only the form with four, two and two digits.
-/

namespace HourlyUsage

open Json (bind_eq_ok)
open Text

theorem toOption_eq_some {ε α : Type} {x : Except ε α} {a : α} :
    x.toOption = some a ↔ x = .ok a := by
  cases x with
  | error e => exact ⟨nofun, nofun⟩
  | ok b => exact ⟨fun h ↦ congrArg _ (Option.some.inj h), fun h ↦ congrArg _ (Except.ok.inj h)⟩

namespace Timestamp
namespace Relaxed

/-! ## Written dates -/

/-- Digits that stand for a number. -/
structure IsNumber (n : Nat) (ds : List Char) : Prop where
  digits : ∀ c ∈ ds, IsDigitChar c
  ne_nil : ds ≠ []
  value : digitsValue ds = n

/-- One or two digits behind white space. -/
def WritesField (n : Nat) (cs : List Char) : Prop :=
  ∃ blanks ds, cs = blanks ++ ds ∧ (∀ c ∈ blanks, isBlank c = true) ∧ IsNumber n ds ∧
    ds.length ≤ 2

/-- One to four digits, or any number of them behind a sign. -/
inductive WritesYear : Int → List Char → Prop
  | unsigned {n : Nat} {ds : List Char} (h : IsNumber n ds) (hlength : ds.length ≤ 4) :
      WritesYear n ds
  | plus {n : Nat} {ds : List Char} (h : IsNumber n ds) : WritesYear n ('+' :: ds)
  | minus {n : Nat} {ds : List Char} (h : IsNumber n ds) : WritesYear (-n) ('-' :: ds)

/-- The year may have white space in front of it, too. -/
def WritesDate (d : Date) (cs : List Char) : Prop :=
  ∃ blanks year month day, cs = blanks ++ (year ++ '-' :: (month ++ '-' :: day)) ∧
    (∀ c ∈ blanks, isBlank c = true) ∧ WritesYear d.year year ∧ WritesField d.month month ∧
      WritesField d.day day

/-! ## White space -/

theorem exists_blanks (cs : List Char) :
    ∃ blanks, (∀ c ∈ blanks, isBlank c = true) ∧ cs = blanks ++ trimStart cs :=
  ⟨cs.takeWhile isBlank, fun _ ↦ List.mem_takeWhile_imp, List.takeWhile_append_dropWhile.symm⟩

/-! ## Numbers -/

/-- Digits at the beginning of a text, as far as they are taken. -/
theorem isNumber_of_prefix {cs ds rest : List Char} {n : Nat} {f : Fault}
    (hds : ds <+: cs.takeWhile Char.isDigit)
    (h : (if ds.isEmpty then .error f
      else if numberLimit < digitsValue ds then .error .outOfRange
      else .ok (digitsValue ds, cs.drop ds.length)) = Except.ok (n, rest)) :
    cs = ds ++ rest ∧ IsNumber n ds := by
  have hdigits : ∀ c ∈ ds, IsDigitChar c :=
    fun c hc ↦ IsDigitChar.of_isDigit (List.mem_takeWhile_imp (hds.mem hc))
  split at h
  · cases h
  · next hne =>
    split at h
    · cases h
    · cases h
      have hcs := List.prefix_iff_eq_append.1 (hds.trans (List.takeWhile_prefix _))
      exact ⟨hcs.symm, hdigits, by simpa using hne, rfl⟩

theorem digits_eq_ok {width : Option Nat} {cs rest : List Char} {n : Nat}
    (h : digits width cs = .ok (n, rest)) :
    ∃ ds, cs = ds ++ rest ∧ IsNumber n ds ∧ ∀ w ∈ width, ds.length ≤ w := by
  cases width with
  | none =>
      obtain ⟨hcs, hnumber⟩ := isNumber_of_prefix List.prefix_rfl h
      exact ⟨_, hcs, hnumber, nofun⟩
  | some w =>
      obtain ⟨hcs, hnumber⟩ := isNumber_of_prefix (List.take_prefix w _) h
      refine ⟨_, hcs, hnumber, ?_⟩
      rintro _ ⟨⟩
      exact List.length_take_le ..

theorem IsNumber.le_of_length {n : Nat} {ds : List Char} (h : IsNumber n ds)
    (hlength : ds.length ≤ 4) : n ≤ 9999 := by
  have hlt := digitsValue_lt h.digits
  have hpow : 10 ^ ds.length ≤ 10 ^ 4 := Nat.pow_le_pow_right (by decide) hlength
  rw [h.value] at hlt
  omega

/-! ## Months and days -/

theorem field_eq_ok {low high n : Nat} {cs rest : List Char}
    (h : field low high cs = .ok (n, rest)) : ∃ text, cs = text ++ rest ∧ WritesField n text := by
  obtain ⟨blanks, hblanks, hcs⟩ := exists_blanks cs
  obtain ⟨⟨m, rest'⟩, hdigits, h⟩ := bind_eq_ok.1 h
  dsimp only at h
  split at h
  · cases h
    obtain ⟨ds, hds, hnumber, hlength⟩ := digits_eq_ok hdigits
    refine ⟨blanks ++ ds, ?_, blanks, ds, rfl, hblanks, hnumber, hlength 2 rfl⟩
    rw [hcs, hds, List.append_assoc]
  · cases h

theorem WritesField.field_eq {low high n : Nat} {text rest : List Char} (h : WritesField n text)
    (hlow : low ≤ n) (hhigh : n ≤ high) (hrest : EndsDigits rest) :
    field low high (text ++ rest) = .ok (n, rest) := by
  obtain ⟨blanks, ds, rfl, hblanks, hnumber, hlength⟩ := h
  rw [List.append_assoc]
  exact field_append hblanks hnumber.digits hnumber.ne_nil hlength hnumber.value hlow hhigh hrest

/-! ## Years -/

/-- A year that fits its range is kept as it was read. -/
theorem year_of_checked {y z : Int} {cs rest : List Char}
    (h : (if -2147483648 ≤ y ∧ y ≤ 2147483647 then .ok (y, cs) else .error Fault.outOfRange) =
      Except.ok (z, rest)) : y = z ∧ cs = rest := by
  split at h
  · cases h
    exact ⟨rfl, rfl⟩
  · cases h

theorem year_eq_ok {y : Int} {cs rest : List Char} (h : year cs = .ok (y, rest)) :
    ∃ blanks text, cs = blanks ++ (text ++ rest) ∧ (∀ c ∈ blanks, isBlank c = true) ∧
      WritesYear y text := by
  obtain ⟨blanks, hblanks, hcs⟩ := exists_blanks cs
  suffices hyear : ∃ text, trimStart cs = text ++ rest ∧ WritesYear y text by
    obtain ⟨text, htext, hyear⟩ := hyear
    exact ⟨blanks, text, htext ▸ hcs, hblanks, hyear⟩
  unfold year at h
  dsimp only at h
  split at h
  · next heq =>
    obtain ⟨⟨n, rest'⟩, hdigits, h⟩ := bind_eq_ok.1 h
    obtain ⟨rfl, rfl⟩ := year_of_checked h
    obtain ⟨ds, hds, hnumber, -⟩ := digits_eq_ok hdigits
    exact ⟨_, heq.trans (congrArg _ hds), .minus hnumber⟩
  · next heq =>
    obtain ⟨⟨n, rest'⟩, hdigits, h⟩ := bind_eq_ok.1 h
    obtain ⟨rfl, rfl⟩ := year_of_checked h
    obtain ⟨ds, hds, hnumber, -⟩ := digits_eq_ok hdigits
    exact ⟨_, heq.trans (congrArg _ hds), .plus hnumber⟩
  · obtain ⟨⟨n, rest'⟩, hdigits, h⟩ := bind_eq_ok.1 h
    obtain ⟨rfl, rfl⟩ := year_of_checked h
    obtain ⟨ds, hds, hnumber, hlength⟩ := digits_eq_ok hdigits
    exact ⟨_, hds, .unsigned hnumber (hlength 4 rfl)⟩

theorem year_blanks {blanks : List Char} (h : ∀ c ∈ blanks, isBlank c = true) (cs : List Char) :
    year (blanks ++ cs) = year cs := by
  unfold year
  rw [trimStart_append h]

theorem WritesYear.year_eq {y : Int} {text rest : List Char} (h : WritesYear y text)
    (hlow : -2147483648 ≤ y) (hhigh : y ≤ 2147483647) (hrest : EndsDigits rest) :
    year (text ++ rest) = .ok (y, rest) := by
  cases h with
  | unsigned h hlength =>
      exact year_of_digits h.digits h.ne_nil hlength h.value (h.le_of_length hlength) hrest
  | plus h => exact year_of_plus h.digits h.ne_nil h.value hrest (by omega)
  | minus h => exact year_of_minus h.digits h.ne_nil h.value hrest (by omega)

/-! ## Dates -/

theorem mark_eq_ok {c : Char} {cs rest : List Char} (h : mark c cs = .ok rest) :
    cs = c :: rest := by
  cases cs with
  | nil => cases h
  | cons a cs =>
      by_cases hac : a = c
      · rw [mark, if_pos hac] at h
        cases h
        rw [hac]
      · rw [mark, if_neg hac] at h
        cases h

theorem dateOf?_eq_some_iff {y : Int} {month day : Nat} {d : Date} :
    dateOf? y month day = some d ↔
      (d.year = y ∧ d.month = month ∧ d.day = day) ∧ -262143 ≤ d.year ∧ d.year ≤ 262142 := by
  constructor
  · intro h
    unfold dateOf? Date.ofYmd? at h
    split at h
    · next hyear =>
      split at h
      · cases h
        exact ⟨⟨rfl, rfl, rfl⟩, hyear⟩
      · cases h
    · cases h
  · rintro ⟨⟨rfl, rfl, rfl⟩, hlow, hhigh⟩
    exact dateOf?_date d hlow hhigh

/-- The dates that are read are those that are written so, of the years that instants reach. -/
theorem readDate?_eq_some_iff {cs : List Char} {d : Date} :
    readDate? cs = some d ↔ WritesDate d cs ∧ -262143 ≤ d.year ∧ d.year ≤ 262142 := by
  constructor
  · intro h
    simp only [readDate?, Option.bind_eq_bind, Option.bind_eq_some_iff, toOption_eq_some] at h
    obtain ⟨⟨y, cs₁⟩, hyear, cs₂, hfirst, ⟨month, cs₃⟩, hmonth, cs₄, hsecond, ⟨day, cs₅⟩, hday,
      h⟩ := h
    split at h
    · next hend =>
      obtain ⟨⟨rfl, rfl, rfl⟩, hyears⟩ := dateOf?_eq_some_iff.1 h
      obtain ⟨blanks, yearText, rfl, hblanks, hyearText⟩ := year_eq_ok hyear
      obtain rfl := mark_eq_ok hfirst
      obtain ⟨monthText, rfl, hmonthText⟩ := field_eq_ok hmonth
      obtain rfl := mark_eq_ok hsecond
      obtain ⟨dayText, rfl, hdayText⟩ := field_eq_ok hday
      obtain rfl := List.isEmpty_iff.1 hend
      rw [List.append_nil]
      exact ⟨⟨blanks, yearText, monthText, dayText, rfl, hblanks, hyearText, hmonthText, hdayText⟩,
        hyears⟩
    · cases h
  · rintro ⟨⟨blanks, yearText, monthText, dayText, rfl, hblanks, hyear, hmonth, hday⟩, hyears⟩
    have hminus : ∀ rest, EndsDigits ('-' :: rest) := endsDigits_cons (by decide)
    have hmark : ∀ rest, mark '-' ('-' :: rest) = .ok rest := fun _ ↦ rfl
    have hyear := hyear.year_eq (by omega) (by omega) (hminus (monthText ++ '-' :: dayText))
    have hmonth := hmonth.field_eq d.one_le_month d.month_le (hminus dayText)
    have hday : field 1 31 (dayText ++ []) = .ok (d.day, []) :=
      hday.field_eq d.one_le_day d.day_le_31 nofun
    rw [List.append_nil] at hday
    rw [readDate?, year_blanks hblanks, hyear]
    simp only [Except.toOption, Option.bind_eq_bind, Option.bind_some, hmark, hmonth, hday]
    exact dateOf?_eq_some_iff.2 ⟨⟨rfl, rfl, rfl⟩, hyears⟩

/-! ## The full form -/

theorem IsNumber.eq_fixed {n width : Nat} {ds : List Char} (h : IsNumber n ds)
    (hlength : ds.length = width) : ds = fixed width n := by
  rw [← hlength, ← h.value, fixed_digitsValue h.digits]

theorem isNumber_fixed {n width : Nat} (hwidth : 0 < width) (hn : n < 10 ^ width) :
    IsNumber n (fixed width n) where
  digits _ hc := .of_mem_fixed hc
  ne_nil := List.ne_nil_of_length_pos (by rwa [length_fixed])
  value := digitsValue_fixed hn

theorem writesField_fixed {n : Nat} (hn : n < 10 ^ 2) : WritesField n (fixed 2 n) :=
  ⟨[], fixed 2 n, rfl, nofun, isNumber_fixed (by decide) hn, by rw [length_fixed]⟩

theorem writesDate_chars {d : Date} (h : d.HasFourDigitYear) : WritesDate d d.chars := by
  have hyear := WritesYear.unsigned (isNumber_fixed (by decide) h.toNat_lt) (by rw [length_fixed])
  rw [Int.toNat_of_nonneg h.1] at hyear
  exact ⟨[], _, _, _, h.chars_eq, nofun, hyear, writesField_fixed d.month_lt,
    writesField_fixed d.day_lt⟩

/-- Does a text have no white space, no sign in front and room for all digits of a date? -/
structure IsFull (cs : List Char) : Prop where
  not_blank : ∀ c ∈ cs, isBlank c = false
  not_signed : ∀ c ∈ cs.head?, c ≠ '+' ∧ c ≠ '-'
  length : 10 ≤ cs.length

theorem IsFull.blanks_eq_nil {cs blanks : List Char} (h : IsFull cs) (hmem : ∀ c ∈ blanks, c ∈ cs)
    (hblanks : ∀ c ∈ blanks, isBlank c = true) : blanks = [] :=
  List.eq_nil_iff_forall_not_mem.2 fun c hc ↦
    Bool.false_ne_true ((h.not_blank c (hmem c hc)).symm.trans (hblanks c hc))

/-- A full text of a date is the one with four, two and two digits. -/
theorem IsFull.writesDate_iff {d : Date} {cs : List Char} (hfull : IsFull cs) :
    WritesDate d cs ↔ d.HasFourDigitYear ∧ cs = d.chars := by
  constructor
  · rintro ⟨blanks, yearText, _, _, rfl, hblanks, hyear, ⟨monthBlanks, monthDigits, rfl,
      hmonthBlanks, hmonth, hmonthLength⟩, dayBlanks, dayDigits, rfl, hdayBlanks, hday, hdayLength⟩
    obtain rfl := hfull.blanks_eq_nil (fun c hc ↦ by simp [hc]) hblanks
    obtain rfl := hfull.blanks_eq_nil (fun c hc ↦ by simp [hc]) hmonthBlanks
    obtain rfl := hfull.blanks_eq_nil (fun c hc ↦ by simp [hc]) hdayBlanks
    have hlength := hfull.length
    simp only [List.nil_append, List.length_append, List.length_cons] at hlength
    generalize hy : d.year = y at hyear
    cases hyear with
    | unsigned hnumber hyearLength =>
        have hn := hnumber.le_of_length hyearLength
        have hfour : d.HasFourDigitYear := by
          rw [Date.HasFourDigitYear, hy]
          omega
        refine ⟨hfour, ?_⟩
        have hyearText := hnumber.eq_fixed (show yearText.length = 4 by omega)
        have hmonthText := hmonth.eq_fixed (show monthDigits.length = 2 by omega)
        have hdayText := hday.eq_fixed (show dayDigits.length = 2 by omega)
        rw [hfour.chars_eq, hy, Int.toNat_natCast, hyearText, hmonthText, hdayText]
        rfl
    | plus hnumber => exact absurd rfl (hfull.not_signed '+' rfl).1
    | minus hnumber => exact absurd rfl (hfull.not_signed '-' rfl).2
  · rintro ⟨hfour, rfl⟩
    exact writesDate_chars hfour

end Relaxed
end Timestamp

/-! ## Midnight -/

/-- The first instant of a date. -/
structure Instant.IsMidnight (t : Instant) (d : Date) : Prop where
  date : t.date = d
  second : t.secondOfDay = 0
  nanos : t.nanos = 0

namespace Instant

theorem ofDate?_eq_some_iff {d : Date} {t : Instant} : ofDate? d = some t ↔ t.IsMidnight d := by
  constructor
  · intro h
    obtain ⟨hsecs, hnanos⟩ := ofUnix?_eq_some h
    have hdays := t.toDays_date
    have hdate : t.date.toDays = d.toDays := by omega
    have hsecond : t.secondOfDay = 0 := by
      unfold secondOfDay
      omega
    exact ⟨Date.toDays_inj.1 hdate, hsecond, hnanos⟩
  · rintro ⟨rfl, hsecond, hnanos⟩
    have hsecs : t.date.toDays * 86400 = t.secs := by
      rw [toDays_date]
      unfold secondOfDay at hsecond
      omega
    have hself := ofUnix?_self (leapOnMinute_of_nanos_lt (t := t) (by omega))
    rw [ofDate?, hsecs, ← hnanos, hself]

/-- All dates of the years that instants reach have a midnight. -/
theorem exists_isMidnight {d : Date} (hlow : -262143 ≤ d.year) (hhigh : d.year ≤ 262142) :
    ∃ t : Instant, t.IsMidnight d := by
  have hstart := d.yearStart_le_toDays
  have hend := d.toDays_lt_yearStart
  have hfirst := yearStart_mono hlow
  have hlast := yearStart_mono (show d.year + 1 ≤ 262143 by omega)
  have hearliest : yearStart (-262143) * 86400 = earliestSecond := by decide
  have hlatest : yearStart 262143 * 86400 = latestSecond + 1 := by decide
  obtain ⟨t, ht, -⟩ := ofUnix?_of_bounds (show earliestSecond ≤ d.toDays * 86400 by omega)
    (show d.toDays * 86400 ≤ latestSecond by omega)
  exact ⟨t, ofDate?_eq_some_iff.1 ht⟩

end Instant

/-! ## Dates as times -/

open Timestamp Relaxed

theorem readTime_of_no_timestamp {text : String} (h : Strict.read? text.toList = none)
    (t : Instant) : readTime text = .ok t ↔ ∃ d, WritesDate d text.toList ∧ t.IsMidnight d := by
  have hread : readTime text = .ok t ↔ (readDate? text.toList).bind Instant.ofDate? = some t := by
    simp only [readTime, h]
    cases (readDate? text.toList).bind Instant.ofDate? with
    | none => exact ⟨nofun, nofun⟩
    | some u => exact ⟨fun h ↦ congrArg _ (Except.ok.inj h), fun h ↦ congrArg _ (Option.some.inj h)⟩
  rw [hread, Option.bind_eq_some_iff]
  constructor
  · rintro ⟨d, hd, ht⟩
    exact ⟨d, (readDate?_eq_some_iff.1 hd).1, Instant.ofDate?_eq_some_iff.1 ht⟩
  · rintro ⟨d, hd, ht⟩
    obtain ⟨hlow, hhigh⟩ := t.year_bounds
    rw [ht.date] at hlow hhigh
    exact ⟨d, readDate?_eq_some_iff.2 ⟨hd, hlow, hhigh⟩, Instant.ofDate?_eq_some_iff.2 ht⟩

theorem readTime_error {text : String} {e : ArgumentError} (h : readTime text = .error e) :
    e.message = "invalid time '" ++ text ++ "': expected RFC 3339 or YYYY-MM-DD" := by
  unfold readTime at h
  dsimp only at h
  split at h
  · cases h
  · cases h
    rfl

/-- A text that is no timestamp is taken for the midnight of the date that it writes, if instants
reach its year, and refused with one message if it writes none.  The form with four, two and two
digits is always taken, and the only one among full texts. -/
theorem readTime_of_date {text : String} (h : Strict.read? text.toList = none) :
    (∀ t, readTime text = .ok t ↔ ∃ d, WritesDate d text.toList ∧ t.IsMidnight d) ∧
    (∀ d, WritesDate d text.toList → -262143 ≤ d.year → d.year ≤ 262142 →
      ∃ t, readTime text = .ok t ∧ t.IsMidnight d) ∧
    (∀ e, readTime text = .error e →
      e.message = "invalid time '" ++ text ++ "': expected RFC 3339 or YYYY-MM-DD") ∧
    (∀ d : Date, d.HasFourDigitYear → text.toList = d.chars →
      ∃ t, readTime text = .ok t ∧ t.IsMidnight d) ∧
    (IsFull text.toList → ∀ t, readTime text = .ok t ↔
      ∃ d : Date, (d.HasFourDigitYear ∧ text.toList = d.chars) ∧ t.IsMidnight d) := by
  have htaken := readTime_of_no_timestamp h
  have hexists : ∀ d, WritesDate d text.toList → -262143 ≤ d.year → d.year ≤ 262142 →
      ∃ t, readTime text = .ok t ∧ t.IsMidnight d := by
    intro d hd hlow hhigh
    obtain ⟨t, ht⟩ := Instant.exists_isMidnight hlow hhigh
    exact ⟨t, (htaken t).2 ⟨d, hd, ht⟩, ht⟩
  refine ⟨htaken, hexists, fun e ↦ readTime_error, ?_, ?_⟩
  · intro d hfour htext
    obtain ⟨hlow, hhigh⟩ := id hfour
    exact hexists d (htext ▸ writesDate_chars hfour) (by omega) (by omega)
  · intro hfull t
    rw [htaken]
    exact exists_congr fun d ↦ and_congr_left fun _ ↦ hfull.writesDate_iff

/-- A year of two digits is one of the first century. -/
theorem readTime_of_date_of_short_year :
    let t : Instant := ⟨-61967203200, 0, by decide, by decide, by decide⟩
    Strict.read? "06-05-04".toList = none ∧ readTime "06-05-04" = .ok t ∧
      t.text = "0006-05-04T00:00:00Z" := by
  intro t
  have hstrict : Strict.read? "06-05-04".toList = none := by decide +kernel
  have hdate : WritesDate t.date "06-05-04".toList := by
    refine (readDate?_eq_some_iff.1 ?_).1
    decide +kernel
  have hmidnight : t.IsMidnight t.date := ⟨rfl, by decide, rfl⟩
  exact ⟨hstrict, ((readTime_of_date hstrict).1 t).2 ⟨_, hdate, hmidnight⟩, by decide +kernel⟩

theorem not_readTime_iff_full_date :
    ¬ ∀ (text : String) (t : Instant), Strict.read? text.toList = none →
      (readTime text = .ok t ↔
        ∃ d : Date, (d.HasFourDigitYear ∧ text.toList = d.chars) ∧ t.IsMidnight d) := by
  intro hall
  let t : Instant := ⟨-61967203200, 0, by decide, by decide, by decide⟩
  have hstrict : Strict.read? "06-05-04".toList = none := by decide +kernel
  have hread : readTime "06-05-04" = .ok t := by decide +kernel
  obtain ⟨d, ⟨hfour, htext⟩, -⟩ := (hall "06-05-04" t hstrict).1 hread
  have hlength := congrArg List.length htext
  rw [hfour.length_chars] at hlength
  exact absurd hlength (by decide)

end HourlyUsage
