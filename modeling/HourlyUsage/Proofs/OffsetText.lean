import HourlyUsage.Proofs.CompactText
import HourlyUsage.Proofs.KeyOrder
import HourlyUsage.Proofs.TimestampText

/-!
# Offsets in all years

Years beyond four digits and years before zero are written with a sign and with as many
digits as they need, so the offsets of hours in such years do not all compare as the hours
do.  What decides is the first place in which the written years differ.  The account and the
hour can still be told from every offset, because no equals sign is in a written date.
-/

namespace HourlyUsage

open Text

/-! ## Runs of digits of different lengths -/

namespace Text

theorem digit_digitValue {c : Char} (h : IsDigitChar c) : digit (digitValue c) = c := by
  obtain ⟨d, hd, rfl⟩ := h
  rw [digitValue_digit hd]

/-- A run of digits is its number, written with the width of the run. -/
theorem fixed_digitsValue {ds : List Char} (h : ∀ c ∈ ds, IsDigitChar c) :
    fixed ds.length (digitsValue ds) = ds := by
  induction ds using List.reverseRecOn with
  | nil => rfl
  | append_singleton ds c ih =>
      obtain ⟨hds, hc⟩ := List.forall_mem_append.1 h
      have hdigit := hc c (List.mem_singleton_self c)
      have hvalue : digitsValue (ds ++ [c]) = 10 * digitsValue ds + digitValue c := by
        rw [digitsValue_append, digitsValue_singleton, List.length_singleton]
        omega
      have hlast := hdigit.digitValue_lt
      have hfront : (10 * digitsValue ds + digitValue c) / 10 = digitsValue ds := by omega
      have hback : (10 * digitsValue ds + digitValue c) % 10 = digitValue c := by omega
      rw [hvalue, List.length_append, List.length_singleton, fixed, hfront, hback, ih hds,
        digit_digitValue hdigit]

section Runs

variable {ds es : List Char} (hds : ∀ c ∈ ds, IsDigitChar c) (hes : ∀ c ∈ es, IsDigitChar c)

include hds hes

theorem digits_lt_iff (hlength : ds.length = es.length) :
    charBytes ds < charBytes es ↔ digitsValue ds < digitsValue es := by
  have hd := digitsValue_lt hds
  have he := digitsValue_lt hes
  rw [hlength] at hd
  have h := fixed_lt_iff hd he
  rwa [fixed_digitsValue hes, ← hlength, fixed_digitsValue hds] at h

theorem digits_eq_iff (hlength : ds.length = es.length) :
    charBytes ds = charBytes es ↔ digitsValue ds = digitsValue es := by
  have hd := digitsValue_lt hds
  have he := digitsValue_lt hes
  rw [hlength] at hd
  have h := fixed_eq_iff hd he
  rwa [fixed_digitsValue hes, ← hlength, fixed_digitsValue hds] at h

end Runs

theorem charBytes_cons_digit {c : Char} (h : IsDigitChar c) (cs : List Char) :
    ∃ d < 10, charBytes (c :: cs) = UInt8.ofNat (48 + d) :: charBytes cs := by
  obtain ⟨d, hd, rfl⟩ := h
  exact ⟨d, hd, by rw [charBytes_cons, charBytes_digit hd, List.singleton_append]⟩

theorem length_charBytes_digits {ds : List Char} (h : ∀ c ∈ ds, IsDigitChar c) :
    (charBytes ds).length = ds.length := by
  rw [← fixed_digitsValue h, length_charBytes_fixed, length_fixed]

/-- A byte below the digits comes before every run of them. -/
theorem cons_lt_digits {b : UInt8} (hb : b < Ascii.zero) {ds : List Char}
    (h : ∀ c ∈ ds, IsDigitChar c) (hne : ds ≠ []) (rest more : Bytes) :
    b :: rest < charBytes ds ++ more := by
  obtain ⟨c, cs, rfl⟩ := List.exists_cons_of_ne_nil hne
  obtain ⟨d, hd, hbytes⟩ := charBytes_cons_digit (h c (List.mem_cons_self ..)) cs
  rw [hbytes, List.cons_append, List.cons_lt_cons_iff]
  left
  rw [UInt8.lt_iff_toNat_lt] at hb ⊢
  have hzero : Ascii.zero.toNat = 48 := rfl
  rw [UInt8.toNat_ofNat']
  omega

/-- What is left behind the places of a number does not lift it to the next one. -/
theorem mul_le_mul_add_iff {m n r p : Nat} (hr : r < p) : m * p ≤ n * p + r ↔ m ≤ n := by
  have hp : 0 < p := Nat.lt_of_le_of_lt (Nat.zero_le r) hr
  have hdiv : (n * p + r) / p = n := by
    rw [Nat.mul_comm, Nat.mul_add_div hp, Nat.div_eq_of_lt hr, Nat.add_zero]
  rw [← Nat.le_div_iff_mul_le hp, hdiv]

section Runs

variable {b : UInt8} (hb : b < Ascii.zero) {ds es : List Char} (hds : ∀ c ∈ ds, IsDigitChar c)
  (hes : ∀ c ∈ es, IsDigitChar c) (hne : ds ≠ es)

include hb hds hes hne

/-- With a byte below the digits behind both, a run comes before a longer one unless its number
is above that of the digits that stand at its places. -/
theorem digits_cons_lt_of_le (hlength : ds.length ≤ es.length) (rest more : Bytes) :
    charBytes ds ++ b :: rest < charBytes es ++ b :: more ↔
      digitsValue ds * 10 ^ (es.length - ds.length) ≤ digitsValue es := by
  obtain ⟨front, back, rfl, hfront⟩ :
      ∃ front back, es = front ++ back ∧ ds.length = front.length :=
    ⟨es.take ds.length, es.drop ds.length, (List.take_append_drop ..).symm, by simpa using hlength⟩
  obtain ⟨hfronts, hbacks⟩ := List.forall_mem_append.1 hes
  have hsame : (charBytes ds).length = (charBytes front).length := by
    rw [length_charBytes_digits hds, length_charBytes_digits hfronts, hfront]
  rw [charBytes_append, List.append_assoc, append_lt_append_iff hsame,
    digits_lt_iff hds hfronts hfront, digits_eq_iff hds hfronts hfront, digitsValue_append,
    List.length_append, hfront, Nat.add_sub_cancel_left,
    mul_le_mul_add_iff (digitsValue_lt hbacks), Nat.le_iff_lt_or_eq]
  cases back with
  | nil =>
      have hvalues : digitsValue ds ≠ digitsValue front := by
        intro h
        apply hne
        rw [List.append_nil, ← fixed_digitsValue hds, ← fixed_digitsValue hfronts, hfront, h]
      simp only [hvalues, false_and]
  | cons c back =>
      have hlt := cons_lt_digits hb hbacks (List.cons_ne_nil c back) rest (b :: more)
      simp only [hlt, and_true]

/-- With a byte below the digits behind both, a run comes before a shorter one if the number of
the digits at the places of that one is below its number. -/
theorem digits_cons_lt_of_ge (hlength : es.length ≤ ds.length) (rest more : Bytes) :
    charBytes ds ++ b :: rest < charBytes es ++ b :: more ↔
      digitsValue ds < digitsValue es * 10 ^ (ds.length - es.length) := by
  obtain ⟨front, back, rfl, hfront⟩ :
      ∃ front back, ds = front ++ back ∧ front.length = es.length :=
    ⟨ds.take es.length, ds.drop es.length, (List.take_append_drop ..).symm, by simpa using hlength⟩
  obtain ⟨hfronts, hbacks⟩ := List.forall_mem_append.1 hds
  have hsame : (charBytes front).length = (charBytes es).length := by
    rw [length_charBytes_digits hfronts, length_charBytes_digits hes, hfront]
  have hcarry : digitsValue front * 10 ^ back.length + digitsValue back <
      digitsValue es * 10 ^ back.length ↔ digitsValue front < digitsValue es := by
    rw [← Nat.not_le, ← Nat.not_le, mul_le_mul_add_iff (digitsValue_lt hbacks)]
  rw [charBytes_append, List.append_assoc, append_lt_append_iff hsame,
    digits_lt_iff hfronts hes hfront, digits_eq_iff hfronts hes hfront, digitsValue_append,
    List.length_append, hfront, Nat.add_sub_cancel_left, hcarry]
  cases back with
  | nil =>
      have hvalues : digitsValue front ≠ digitsValue es := by
        intro h
        apply hne
        rw [List.append_nil, ← fixed_digitsValue hfronts, ← fixed_digitsValue hes, hfront, h]
      simp only [hvalues, false_and, or_false]
  | cons c back =>
      have hlt := cons_lt_digits hb hbacks (List.cons_ne_nil c back) more (b :: rest)
      simp only [List.lt_asymm hlt, and_false, or_false]

end Runs

end Text

/-! ## Written years -/

/-- The digits of a year with a sign. -/
def yearDigits (y : Int) : List Char :=
  if y.natAbs < 1000 then fixed 4 y.natAbs else decimal y.natAbs

theorem isDigitChar_yearDigits (y : Int) : ∀ c ∈ yearDigits y, IsDigitChar c := by
  unfold yearDigits
  split
  · exact fun c hc ↦ .of_mem_fixed hc
  · exact fun c hc ↦ .of_mem_decimal hc

theorem digitsValue_yearDigits (y : Int) : digitsValue (yearDigits y) = y.natAbs := by
  unfold yearDigits
  split
  · exact digitsValue_fixed (by omega)
  · exact digitsValue_decimal _

theorem yearDigits_inj {y z : Int} (h : yearDigits y = yearDigits z) : y.natAbs = z.natAbs := by
  rw [← digitsValue_yearDigits y, h, digitsValue_yearDigits]

theorem four_le_length_decimal {n : Nat} (h : 1000 ≤ n) : 4 ≤ (decimal n).length := by
  have hpow : 10 ^ 3 < 10 ^ (decimal n).length :=
    Nat.lt_of_le_of_lt h (lt_pow_length_decimal n)
  exact (Nat.pow_lt_pow_iff_right (by decide : 1 < 10)).1 hpow

theorem length_yearDigits_mono {y z : Int} (h : y.natAbs ≤ z.natAbs) :
    (yearDigits y).length ≤ (yearDigits z).length := by
  unfold yearDigits
  split
  · split
    · simp
    · simpa using four_le_length_decimal (by omega)
  · rw [if_neg (by omega)]
    exact length_decimal_mono h

theorem charBytes_yearChars_of_neg {y : Int} (h : y < 0) :
    charBytes (yearChars y) = Ascii.minus :: charBytes (yearDigits y) := by
  have hminus : charBytes ['-'] = [Ascii.minus] := by decide
  rw [yearChars, if_neg (by omega), if_pos h, charBytes_cons, hminus]
  rfl

theorem charBytes_yearChars_of_large {y : Int} (h : 9999 < y) :
    charBytes (yearChars y) = Ascii.plus :: charBytes (yearDigits y) := by
  have hplus : charBytes ['+'] = [Ascii.plus] := by decide
  rw [yearChars, if_neg (by omega), if_neg (by omega), charBytes_cons, hplus]
  rfl

theorem charBytes_yearChars_of_plain {y : Int} (h : 0 ≤ y ∧ y ≤ 9999) :
    charBytes (yearChars y) = charBytes (fixed 4 y.toNat) := by
  rw [yearChars, if_pos h]

theorem minus_lt_zero : Ascii.minus < Ascii.zero := by decide

theorem plus_lt_zero : Ascii.plus < Ascii.zero := by decide

theorem plus_lt_minus : Ascii.plus < Ascii.minus := by decide

section Years

variable {y z : Int} (rest more : Bytes)

theorem yearChars_lt_iff_of_neg (h : y < z) (hz : z < 0) :
    charBytes (yearChars y) ++ Ascii.minus :: rest <
        charBytes (yearChars z) ++ Ascii.minus :: more ↔
      y.natAbs < z.natAbs * 10 ^ ((yearDigits y).length - (yearDigits z).length) := by
  have hirrefl : ¬ Ascii.minus < Ascii.minus := by decide
  have hne : yearDigits y ≠ yearDigits z := by
    intro heq
    have := yearDigits_inj heq
    omega
  have hlength : (yearDigits z).length ≤ (yearDigits y).length :=
    length_yearDigits_mono (by omega)
  have hdigits := digits_cons_lt_of_ge minus_lt_zero (isDigitChar_yearDigits y)
    (isDigitChar_yearDigits z) hne hlength rest more
  rw [digitsValue_yearDigits, digitsValue_yearDigits] at hdigits
  rw [charBytes_yearChars_of_neg (by omega), charBytes_yearChars_of_neg hz, List.cons_append,
    List.cons_append, List.cons_lt_cons_iff, hdigits]
  simp only [hirrefl, false_or, true_and]

theorem yearChars_lt_iff_of_large (h : y < z) (hy : 9999 < y) :
    charBytes (yearChars y) ++ Ascii.minus :: rest <
        charBytes (yearChars z) ++ Ascii.minus :: more ↔
      y.natAbs * 10 ^ ((yearDigits z).length - (yearDigits y).length) ≤ z.natAbs := by
  have hirrefl : ¬ Ascii.plus < Ascii.plus := by decide
  have hne : yearDigits y ≠ yearDigits z := by
    intro heq
    have := yearDigits_inj heq
    omega
  have hlength : (yearDigits y).length ≤ (yearDigits z).length :=
    length_yearDigits_mono (by omega)
  have hdigits := digits_cons_lt_of_le minus_lt_zero (isDigitChar_yearDigits y)
    (isDigitChar_yearDigits z) hne hlength rest more
  rw [digitsValue_yearDigits, digitsValue_yearDigits] at hdigits
  rw [charBytes_yearChars_of_large hy, charBytes_yearChars_of_large (by omega), List.cons_append,
    List.cons_append, List.cons_lt_cons_iff, hdigits]
  simp only [hirrefl, false_or, true_and]

theorem fixed_four_spec (n : Nat) : (∀ c ∈ fixed 4 n, IsDigitChar c) ∧ fixed 4 n ≠ [] :=
  ⟨fun _ hc ↦ .of_mem_fixed hc, List.ne_nil_of_length_pos (by simp)⟩

theorem yearChars_lt_of_plain (h : y < z) (hz : 0 ≤ z ∧ z ≤ 9999) :
    charBytes (yearChars y) ++ Ascii.minus :: rest <
      charBytes (yearChars z) ++ Ascii.minus :: more := by
  rw [charBytes_yearChars_of_plain hz]
  rcases Int.lt_or_le y 0 with hy | hy
  · obtain ⟨hdigits, hne⟩ := fixed_four_spec z.toNat
    rw [charBytes_yearChars_of_neg hy, List.cons_append]
    exact cons_lt_digits minus_lt_zero hdigits hne _ _
  · have hvalues : charBytes (fixed 4 y.toNat) < charBytes (fixed 4 z.toNat) :=
      (fixed_lt_iff (by omega) (by omega)).2 (by omega)
    rw [charBytes_yearChars_of_plain ⟨hy, by omega⟩, append_lt_append_iff (by simp)]
    exact .inl hvalues

/-- A plus comes before a minus and before all digits. -/
theorem yearChars_lt_of_plus (hy : y ≤ 9999) (hz : 9999 < z) :
    charBytes (yearChars z) ++ Ascii.minus :: more <
      charBytes (yearChars y) ++ Ascii.minus :: rest := by
  rw [charBytes_yearChars_of_large hz, List.cons_append]
  rcases Int.lt_or_le y 0 with hy' | hy'
  · rw [charBytes_yearChars_of_neg hy', List.cons_append, List.cons_lt_cons_iff]
    exact .inl plus_lt_minus
  · obtain ⟨hdigits, hne⟩ := fixed_four_spec y.toNat
    rw [charBytes_yearChars_of_plain ⟨hy', hy⟩]
    exact cons_lt_digits plus_lt_zero hdigits hne _ _

end Years

/-- Is a year written before a later one, with the rest of a date behind both?  It is before every
year of four digits.  Of two years before zero, it is if the first digits of its number, as many as
the later one has, are below those.  A year beyond four digits has a plus, which comes before
everything else, so it has to be such a year itself, and its digits with zeros behind them must not
be above those of the later one. -/
def WrittenInOrder (y z : Int) : Prop :=
  y = z ∨ (0 ≤ z ∧ z ≤ 9999) ∨
    (z < 0 ∧ y.natAbs < z.natAbs * 10 ^ ((yearDigits y).length - (yearDigits z).length)) ∨
    (9999 < y ∧ y.natAbs * 10 ^ ((yearDigits z).length - (yearDigits y).length) ≤ z.natAbs)

theorem yearChars_lt_iff {y z : Int} (h : y < z) (rest more : Bytes) :
    charBytes (yearChars y) ++ Ascii.minus :: rest <
        charBytes (yearChars z) ++ Ascii.minus :: more ↔
      WrittenInOrder y z := by
  have hne : y ≠ z := ne_of_lt h
  unfold WrittenInOrder
  rcases Int.lt_or_le z 0 with hneg | hpos
  · have hplain : ¬ (0 ≤ z ∧ z ≤ 9999) := by omega
    have hlarge : ¬ 9999 < y := by omega
    simp only [yearChars_lt_iff_of_neg rest more h hneg, hne, hneg, hplain, hlarge, false_or,
      true_and, false_and, or_false]
  have hnotNeg : ¬ z < 0 := by omega
  by_cases hplain : z ≤ 9999
  · simp only [yearChars_lt_of_plain rest more h ⟨hpos, hplain⟩, hpos, hplain, and_self, true_or,
      or_true]
  by_cases hlarge : 9999 < y
  · simp only [yearChars_lt_iff_of_large rest more h hlarge, hne, hnotNeg, hplain, hlarge,
      and_false, false_and, false_or, true_and]
  · have hlt := yearChars_lt_of_plus rest more (y := y) (z := z) (by omega) (by omega)
    simp only [List.lt_asymm hlt, hne, hnotNeg, hplain, hlarge, and_false, false_and, or_self]

/-! ## Order of offsets -/

namespace Instant

/-- The bytes of an offset behind its year. -/
def bytesWithinYear (t : Instant) : Bytes :=
  charBytes (fixed 2 t.date.month) ++ (charBytes ['-'] ++ (charBytes (fixed 2 t.date.day) ++
    (utf8 "/hour=" ++ (charBytes (fixed 2 t.hour) ++ utf8 "/"))))

theorem hourBytes_eq (t : Instant) :
    hourBytes t = charBytes (yearChars t.date.year) ++ Ascii.minus :: t.bytesWithinYear := by
  have hminus : charBytes ['-'] = [Ascii.minus] := by decide
  have hdash : ∀ cs, charBytes ('-' :: cs) = Ascii.minus :: charBytes cs := by
    intro cs
    rw [charBytes_cons, hminus, List.singleton_append]
  have hnil : charBytes [] = [] := rfl
  simp only [hourBytes, Date.chars, bytesWithinYear, charBytes_append, hdash, hnil,
    List.append_assoc, List.cons_append, List.nil_append]

theorem bytesWithinYear_lt {t u : Instant} (hyear : t.date.year = u.date.year)
    (h : t.hourNumber < u.hourNumber) : t.bytesWithinYear < u.bytesWithinYear := by
  have hth := t.hour_lt
  have huh := u.hour_lt
  rw [bytesWithinYear, bytesWithinYear, append_lt_append_iff (by simp),
    fixed_lt_iff t.date.month_lt u.date.month_lt, fixed_eq_iff t.date.month_lt u.date.month_lt,
    append_lt_append_left_iff, append_lt_append_iff (by simp),
    fixed_lt_iff t.date.day_lt u.date.day_lt, fixed_eq_iff t.date.day_lt u.date.day_lt,
    append_lt_append_left_iff, append_lt_append_iff (by simp),
    fixed_lt_iff (by omega) (by omega)]
  rw [hourNumber_lt_iff, Date.toDays_lt_iff, Date.Precedes] at h
  rcases h with (hlt | ⟨-, hmonth | hday⟩) | ⟨hdate, hhour⟩
  · omega
  · exact .inl hmonth
  · exact .inr ⟨hday.1, .inl hday.2⟩
  · exact .inr ⟨congrArg Date.month hdate, .inr ⟨congrArg Date.day hdate, .inl hhour⟩⟩

/-- The written years decide whether the offsets of hours follow each other as the hours do. -/
theorem hourBytes_lt_iff {t u : Instant} (h : t.hourNumber < u.hourNumber) :
    hourBytes t < hourBytes u ↔ WrittenInOrder t.date.year u.date.year := by
  rw [hourBytes_eq, hourBytes_eq]
  by_cases hyear : t.date.year = u.date.year
  · have hwithin := bytesWithinYear_lt hyear h
    rw [hyear, append_lt_append_left_iff, List.cons_lt_cons_iff]
    exact ⟨fun _ ↦ .inl rfl, fun _ ↦ .inr ⟨rfl, hwithin⟩⟩
  · have hdays : t.date.toDays ≤ u.date.toDays := by
      have ht := t.hourNumber_eq
      have hu := u.hourNumber_eq
      have := u.hour_lt
      omega
    exact yearChars_lt_iff (lt_of_le_of_ne (Date.year_le_of_toDays_le hdays) hyear) _ _

end Instant

theorem byteLt_partitionOffset_iff (account : String) {t u : Instant}
    (h : t.hourNumber < u.hourNumber) :
    byteLt (partitionOffset account t) (partitionOffset account u) = true ↔
      WrittenInOrder t.date.year u.date.year := by
  rw [byteLt_iff, utf8_partitionOffset, utf8_partitionOffset, append_lt_append_left_iff,
    Instant.hourBytes_lt_iff h]

/-- Some key lies in a range if its bounds are in order, and none if they are not. -/
theorem Query.exists_contains_iff {q : Query} :
    (∃ key, q.contains key = true) ↔ byteLt q.startOffset q.endOffset = true := by
  constructor
  · rintro ⟨key, hkey⟩
    obtain ⟨hlow, hhigh⟩ := Query.contains_iff.1 hkey
    rw [byteLt_iff] at hlow hhigh ⊢
    exact List.lt_of_le_of_lt (List.not_lt.1 hlow) hhigh
  · intro h
    refine ⟨q.startOffset, Query.contains_iff.2 ⟨?_, h⟩⟩
    rw [byteLt_iff]
    exact List.lt_irrefl _

/-- The hours of a range that is accepted follow each other in their offsets exactly where their
written years do, so always up to an hour in a year of four digits and within one year.  Where they
do not, the range of keys is turned round and selects nothing at all. -/
theorem offsets_sorted_iff (account : String) {t u : Instant}
    (h : t.truncateToHour < u.truncateToHour) :
    (byteLt (partitionOffset account t) (partitionOffset account u) = true ↔
      WrittenInOrder t.date.year u.date.year) ∧
    ∃ q, Query.ofRange account t u = .ok q ∧
      ((∃ key, q.contains key = true) ↔ WrittenInOrder t.date.year u.date.year) := by
  have hhours := Instant.truncateToHour_lt_iff.1 h
  have hle : t ≤ u := by
    by_contra hlt
    have := Instant.hourNumber_mono (le_of_lt (not_le.1 hlt))
    omega
  have hsorted := byteLt_partitionOffset_iff account hhours
  refine ⟨hsorted, _, Query.ofRange_of_le account hle, ?_⟩
  rw [Query.exists_contains_iff, ← hsorted]
  simp only [Window.between, partitionOffset_truncateToHour]

/-- From the year 26214 to the year 262142, the digits of which begin with the same five. -/
theorem offsets_sorted_from_26214_to_262142 :
    let t : Instant := ⟨765066729600, 0, by decide, by decide, by decide⟩
    let u : Instant := ⟨8210266876799, 1999999999, by decide, by decide, by decide⟩
    t.truncateToHour < u.truncateToHour ∧ t.date.year = 26214 ∧ u.date.year = 262142 ∧
      byteLt (partitionOffset "a=b" t) (partitionOffset "a=b" u) = true ∧
      ∃ q, Query.ofRange "a=b" t u = .ok q ∧ ∃ key, q.contains key = true := by
  intro t u
  have hlt : t.truncateToHour < u.truncateToHour := by decide
  have hyears : t.date.year = 26214 ∧ u.date.year = 262142 := by decide +kernel
  have horder : WrittenInOrder t.date.year u.date.year := by
    rw [hyears.1, hyears.2]
    exact .inr (.inr (.inr (by decide +kernel)))
  obtain ⟨hsorted, q, hq, hcontains⟩ := offsets_sorted_iff "a=b" hlt
  exact ⟨hlt, hyears.1, hyears.2, hsorted.2 horder, q, hq, hcontains.2 horder⟩

/-- The last hour of the year 9999 comes before the first one of the year 10000, but its offset
comes after that of the latter, and the range between them selects no key at all. -/
theorem offsets_not_sorted_at_year_10000 :
    let t : Instant := ⟨253402297200, 0, by decide, by decide, by decide⟩
    let u : Instant := ⟨253402300800, 0, by decide, by decide, by decide⟩
    t.truncateToHour < u.truncateToHour ∧
      ¬ byteLt (partitionOffset "a" t) (partitionOffset "a" u) = true ∧
      ∃ q, Query.ofRange "a" t u = .ok q ∧ ¬ ∃ key, q.contains key = true := by
  intro t u
  have hlt : t.truncateToHour < u.truncateToHour := by decide
  have hle : t ≤ u := by decide
  have hturned : ¬ byteLt (partitionOffset "a" t) (partitionOffset "a" u) = true := by
    decide +kernel
  refine ⟨hlt, hturned, _, Query.ofRange_of_le "a" hle, ?_⟩
  rw [Query.exists_contains_iff]
  simpa only [Window.between, partitionOffset_truncateToHour] using hturned

/-! ## Offsets of different hours -/

namespace Instant

theorem truncateToHour_eq_of_chars {t u : Instant}
    (h : t.truncateToHour.chars = u.truncateToHour.chars) :
    t.truncateToHour = u.truncateToHour := by
  have hread := congrArg Timestamp.Relaxed.read h
  rw [read_chars, read_chars, asWritten_of_leapOnMinute t.leapOnMinute_truncateToHour,
    asWritten_of_leapOnMinute u.leapOnMinute_truncateToHour] at hread
  exact Except.ok.inj hread

theorem chars_truncateToHour (t : Instant) :
    t.truncateToHour.chars =
      t.date.chars ++ 'T' :: (fixed 2 t.hour ++ [':', '0', '0', ':', '0', '0', 'Z']) := by
  have hminute : t.truncateToHour.minute = 0 := by
    simp only [minute, secondOfDay, secs_truncateToHour]
    omega
  have hsecond : t.truncateToHour.writtenSecond = 0 := by
    rw [writtenSecond, if_pos (by simp)]
    simp only [second, secondOfDay, secs_truncateToHour]
    omega
  have hnanos : t.truncateToHour.writtenNanos = 0 := rfl
  have hzero : fixed 2 0 = ['0', '0'] := rfl
  have hfraction : fractionChars 0 = [] := rfl
  simp only [chars, clockChars, date_truncateToHour, hour_truncateToHour, hminute, hsecond, hnanos,
    hzero, hfraction]
  simp

end Instant

/-- Two instants have one offset exactly if they lie in one hour, in whatever year. -/
theorem partitionOffset_eq_iff (account : String) {t u : Instant} :
    partitionOffset account t = partitionOffset account u ↔
      t.truncateToHour = u.truncateToHour := by
  constructor
  · intro h
    have hlists := congrArg String.toList h
    simp only [partitionOffset, String.toList_append, String.toList_ofList, List.append_assoc,
      List.append_cancel_left_eq] at hlists
    obtain ⟨hdate, hrest⟩ := List.append_inj' hlists (by simp)
    have hhour := List.append_inj_left (List.append_cancel_left hrest) (by simp)
    apply Instant.truncateToHour_eq_of_chars
    rw [Instant.chars_truncateToHour, Instant.chars_truncateToHour, hdate, hhour]
  · intro h
    rw [← partitionOffset_truncateToHour, h, partitionOffset_truncateToHour]

/-! ## Offsets of different accounts -/

theorem equals_notMem_date (d : Date) : '=' ∉ d.chars := by
  intro hmem
  rcases Json.isTimestampChar_date d _ hmem with hdigit | hmark
  · exact absurd hdigit.isDigit (by decide)
  · exact absurd hmark (by decide)

/-- The last place of an element can be told in a list. -/
theorem eq_of_append_cons {α : Type} {x : α} {l m r s : List α} (hr : x ∉ r) (hs : x ∉ s)
    (h : l ++ x :: r = m ++ x :: s) : l = m ∧ r = s := by
  rcases List.append_eq_append_iff.1 h with ⟨mid, rfl, hmid⟩ | ⟨mid, rfl, hmid⟩
  · cases mid with
    | nil => exact ⟨(List.append_nil l).symm, (List.cons.inj hmid).2⟩
    | cons y mid =>
        obtain ⟨-, rfl⟩ := List.cons.inj hmid
        exact absurd (List.mem_append_right mid (List.mem_cons_self ..)) hr
  · cases mid with
    | nil => exact ⟨List.append_nil m, (List.cons.inj hmid).2.symm⟩
    | cons y mid =>
        obtain ⟨-, rfl⟩ := List.cons.inj hmid
        exact absurd (List.mem_append_right mid (List.mem_cons_self ..)) hs

/-- What stands before and behind the last equals sign in front of the hour. -/
theorem toList_partitionOffset (account : String) (t : Instant) :
    (partitionOffset account t).toList =
      (("account=".toList ++ account.toList ++ "/date".toList) ++ '=' :: t.date.chars) ++
        ("/hour=".toList ++ fixed 2 t.hour ++ "/".toList) := by
  have hdate : "/date=".toList = "/date".toList ++ ['='] := by decide
  simp only [partitionOffset, String.toList_append, String.toList_ofList, hdate, List.append_assoc,
    List.cons_append, List.nil_append]

/-- No two accounts and no two hours share an offset, whatever the accounts are called. -/
theorem partitionOffset_eq_partitionOffset_iff {a b : String} {t u : Instant} :
    partitionOffset a t = partitionOffset b u ↔
      a = b ∧ t.truncateToHour = u.truncateToHour := by
  constructor
  · intro h
    have hlists := congrArg String.toList h
    rw [toList_partitionOffset, toList_partitionOffset] at hlists
    have hfront := List.append_inj_left' hlists (by simp)
    have haccounts := (eq_of_append_cons (equals_notMem_date _) (equals_notMem_date _) hfront).1
    obtain rfl : a = b := by
      apply String.toList_inj.1
      exact List.append_cancel_left (List.append_cancel_right haccounts)
    exact ⟨rfl, (partitionOffset_eq_iff a).1 h⟩
  · rintro ⟨rfl, h⟩
    exact (partitionOffset_eq_iff a).2 h

end HourlyUsage
