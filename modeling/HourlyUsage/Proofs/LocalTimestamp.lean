import HourlyUsage.CommandLine.Argument
import HourlyUsage.Proofs.TimestampText

/-!
# Timestamps at an offset

A timestamp may be written at any offset of whole minutes, with the date and the clock of
that offset and a fraction of as many digits as are exact.  As a time it is taken for the
instant that this clock shows, whatever midnight, month or year lies between the clock and
that of UTC, and inside a leap second too.
-/

namespace HourlyUsage

open Text Timestamp

/-! ## Written offsets -/

namespace UtcOffset

def chars (o : UtcOffset) : List Char :=
  (if o.minutes < 0 then '-' else '+') ::
    (fixed 2 (o.minutes.natAbs / 60) ++ ':' :: fixed 2 (o.minutes.natAbs % 60))

/-- UTC itself has a letter, too. -/
def IsWritten (o : UtcOffset) (zone : List Char) : Prop :=
  zone = o.chars ∨ o.minutes = 0 ∧ zone = ['Z']

theorem IsWritten.exists_head {o : UtcOffset} {zone : List Char} (h : o.IsWritten zone) :
    ∃ c rest, zone = c :: rest ∧ c.isDigit = false ∧ c ≠ '.' := by
  rcases h with rfl | ⟨-, rfl⟩
  · refine ⟨_, _, rfl, ?_⟩
    split <;> decide
  · exact ⟨'Z', [], rfl, by decide⟩

end UtcOffset

/-! ## Written timestamps -/

namespace Instant

/-- A part of a second with so many digits. -/
def decimals (digits nanos : Nat) : List Char :=
  if digits = 0 then [] else '.' :: fixed digits (nanos / 10 ^ (9 - digits))

/-- The timestamp at an offset. -/
def localChars (t : Instant) (o : UtcOffset) (digits : Nat) (zone : List Char) : List Char :=
  (t.localDate o).chars ++ 'T' :: (fixed 2 (t.localHour o) ++ ':' :: (fixed 2 (t.localMinute o) ++
    ':' :: (fixed 2 (t.localSecond o) ++ (decimals digits t.writtenNanos ++ zone))))

end Instant

/-! ## Parts of a strict timestamp -/

namespace Timestamp
namespace Strict

theorem two?_fixed (n : Nat) (rest : List Char) :
    two? (fixed 2 n ++ rest) = some (n % 100, rest) := by
  have hdigit : ∀ k < 10, (digit k).isDigit = true ∧ digitValue (digit k) = k := by decide
  obtain ⟨htens, htensValue⟩ := hdigit (n / 10 % 10) (Nat.mod_lt _ (by decide))
  obtain ⟨hones, honesValue⟩ := hdigit (n % 10) (Nat.mod_lt _ (by decide))
  have hchars : fixed 2 n ++ rest = digit (n / 10 % 10) :: digit (n % 10) :: rest := rfl
  have hvalue : 10 * (n / 10 % 10) + n % 10 = n % 100 := by omega
  rw [hchars, two?, htens, hones, htensValue, honesValue, hvalue]
  rfl

theorem two?_fixed_of_lt {n : Nat} (h : n < 100) (rest : List Char) :
    two? (fixed 2 n ++ rest) = some (n, rest) := by
  rw [two?_fixed, Nat.mod_eq_of_lt h]

theorem four?_fixed_of_lt {n : Nat} (h : n < 10000) (rest : List Char) :
    four? (fixed 4 n ++ rest) = some (n, rest) := by
  have hchars : fixed 4 n = fixed 2 (n / 10 / 10) ++ fixed 2 n := rfl
  have hvalue : 100 * (n / 10 / 10 % 100) + n % 100 = n := by omega
  rw [hchars, List.append_assoc, four?, two?_fixed]
  simp only [Option.bind_eq_bind, Option.bind_some, two?_fixed, hvalue]
  rfl

theorem mark?_cons (c : Char) (rest : List Char) : mark? c (c :: rest) = some rest := if_pos rfl

theorem date?_chars {d : Date} (h : d.HasFourDigitYear) (rest : List Char) :
    date? (d.chars ++ rest) = some (d, rest) := by
  have hexists := Relaxed.ofYmd?_date d
  rw [← Int.toNat_of_nonneg h.1] at hexists
  simp only [date?, h.chars_eq, List.append_assoc, List.cons_append,
    four?_fixed_of_lt h.toNat_lt, two?_fixed_of_lt d.month_lt, two?_fixed_of_lt d.day_lt,
    mark?_cons, hexists, Option.bind_eq_bind, Option.bind_some]
  rfl

/-- A fraction is read up to the zone behind it. -/
theorem fraction?_decimals {digits nanos : Nat} (hdigits : digits ≤ 9) (hnanos : nanos < 1000000000)
    (hexact : 10 ^ (9 - digits) ∣ nanos) {c : Char} (hdigit : c.isDigit = false) (hpoint : c ≠ '.')
    (rest : List Char) :
    fraction? (Instant.decimals digits nanos ++ c :: rest) = some (nanos, c :: rest) := by
  unfold Instant.decimals
  split
  · next hzero =>
    subst hzero
    obtain rfl : nanos = 0 := Nat.eq_zero_of_dvd_of_lt hexact hnanos
    rw [List.nil_append, fraction?]
    rintro cs ⟨⟩
    exact hpoint rfl
  · next hsome =>
    have hds : ∀ a ∈ fixed digits (nanos / 10 ^ (9 - digits)), IsDigitChar a :=
      fun a ha ↦ .of_mem_fixed ha
    have hend := endsDigits_cons hdigit rest
    have hne : fixed digits (nanos / 10 ^ (9 - digits)) ≠ [] :=
      List.ne_nil_of_length_pos (by rw [length_fixed]; omega)
    have hlt : nanos / 10 ^ (9 - digits) < 10 ^ digits := by
      apply Nat.div_lt_of_lt_mul
      rw [← Nat.pow_add, Nat.sub_add_cancel hdigits]
      exact hnanos
    rw [List.cons_append, fraction?, takeWhile_digits hds hend, dropWhile_digits hds hend,
      Relaxed.nanosOfDigits_fixed hdigits hlt, Nat.div_mul_cancel hexact]
    simp [hne]

/-- Hours and minutes behind a sign. -/
theorem offset?_of_sign {sign : Char} (h : sign = '+' ∨ sign = '-') {n : Nat} (hn : n < 1440) :
    offset? (sign :: (fixed 2 (n / 60) ++ ':' :: fixed 2 (n % 60))) =
      some (if sign = '+' then 60 * (n : Int) else -(60 * (n : Int))) := by
  have hletter : ¬ (sign = 'Z' ∨ sign = 'z') := by rcases h with rfl | rfl <;> decide
  have hsign : sign = '+' ∨ sign = '-' ∨ sign = '\u2212' := h.elim .inl fun h ↦ .inr (.inl h)
  have hminutes := two?_fixed_of_lt (show n % 60 < 100 by omega) []
  rw [List.append_nil] at hminutes
  rw [offset?, if_neg hletter, if_pos hsign]
  simp only [two?_fixed_of_lt (show n / 60 < 100 by omega), mark?_cons, hminutes,
    Option.bind_eq_bind, Option.bind_some]
  rw [if_pos ⟨rfl, by omega, by omega⟩]
  have hseconds : ((n / 60 : Nat) : Int) * 3600 + ((n % 60 : Nat) : Int) * 60 = 60 * n := by omega
  rw [hseconds]

theorem offset?_of_isWritten {o : UtcOffset} {zone : List Char} (h : o.IsWritten zone) :
    offset? zone = some (60 * o.minutes) := by
  have hlower := o.lower
  have hupper := o.upper
  rcases h with rfl | ⟨hzero, rfl⟩
  · unfold UtcOffset.chars
    split
    · rw [offset?_of_sign (.inr rfl) (by omega), if_neg (by decide)]
      congr 1
      omega
    · rw [offset?_of_sign (.inl rfl) (by omega), if_pos rfl]
      congr 1
      omega
  · rw [hzero]
    rfl

end Strict
end Timestamp

/-! ## Whole timestamps -/

namespace Instant

variable {t : Instant} {o : UtcOffset}

theorem read?_localChars {digits : Nat} {zone : List Char}
    (hyear : (t.localDate o).HasFourDigitYear) (hdigits : digits ≤ 9)
    (hexact : 10 ^ (9 - digits) ∣ t.writtenNanos) (hzone : o.IsWritten zone) :
    Strict.read? (t.localChars o digits zone) = some t.asWritten := by
  have hhour := t.localHour_lt o
  have hminute := t.localMinute_lt o
  have hsecond := t.localSecond_le o
  have hnanos : t.writtenNanos < 1000000000 := Nat.mod_lt _ (by decide)
  have hseparator : ∀ rest, Strict.separator? ('T' :: rest) = some rest := fun _ ↦ rfl
  obtain ⟨c, rest, hhead, hdigit, hpoint⟩ := hzone.exists_head
  have hfraction := Strict.fraction?_decimals hdigits hnanos hexact hdigit hpoint rest
  rw [← hhead] at hfraction
  simp only [Strict.read?, localChars, Strict.date?_chars hyear, hseparator,
    Strict.two?_fixed_of_lt (show t.localHour o < 100 by omega),
    Strict.two?_fixed_of_lt (show t.localMinute o < 100 by omega),
    Strict.two?_fixed_of_lt (show t.localSecond o < 100 by omega), Strict.mark?_cons, hfraction,
    Strict.offset?_of_isWritten hzone, Option.bind_eq_bind, Option.bind_some]
  rw [if_pos ⟨by omega, by omega, hsecond⟩, instantOf?_local]

/-- To the second, a timestamp in UTC is one at the offset of UTC. -/
theorem clockChars_eq_localChars (t : Instant) :
    t.clockChars ++ ['Z'] = t.localChars UtcOffset.utc 0 ['Z'] := by
  simp only [clockChars, localChars, localDate_utc, localHour_utc, localMinute_utc,
    localSecond_utc, decimals, if_true, List.nil_append, List.append_assoc, List.cons_append]

end Instant

theorem readTime_of_read? {cs : List Char} {t : Instant} (h : Strict.read? cs = some t) :
    readTime (String.ofList cs) = .ok t := by
  simp only [readTime, String.toList_ofList, h]
  rfl

end HourlyUsage
