import HourlyUsage.Proofs.EventText
import HourlyUsage.Proofs.FloatArithmetic
import HourlyUsage.Proofs.NumeralText
import HourlyUsage.Proofs.ShortestDecimal

/-!
# Values as text

The text of a finite value is always read back, as its digits times or divided by a
power of ten.  That is the value itself where both are values of their own, and so for
whole numbers up to a fifth of `2 ^ 53`.
-/

namespace HourlyUsage

open Json Text

namespace Decimal

/-! ## Bounds of what is written -/

theorem value_integer (d : Decimal) : (d.integer : ℚ) * 10 ^ d.power = d.value := by
  unfold integer power value
  split
  · next h =>
    obtain ⟨k, hk⟩ := Int.eq_ofNat_of_zero_le h.2
    rw [hk, Int.toNat_natCast, zpow_natCast, zpow_neg_one, pow_succ]
    push_cast
    field_simp
  · rfl

/-- A decimal lies between two powers of ten, by its leading digit. -/
theorem top_spec {d : Decimal} (h : d.digits ≠ 0) :
    (10 : ℚ) ^ d.top ≤ d.value ∧ d.value < 10 ^ (d.top + 1) := by
  have hpow : (0 : ℚ) < 10 ^ d.exponent := by positivity
  have hlength := List.length_pos_of_ne_nil (decimal_ne_nil d.digits)
  have hlow : (10 : ℚ) ^ ((decimal d.digits).length - 1) ≤ d.digits := by
    exact_mod_cast pow_length_decimal_le h
  have hhigh : (d.digits : ℚ) < 10 ^ (decimal d.digits).length := by
    exact_mod_cast lt_pow_length_decimal d.digits
  have htop : d.top = ((decimal d.digits).length - 1 : Nat) + d.exponent := by
    unfold top
    omega
  have htop' : d.top + 1 = (decimal d.digits).length + d.exponent := by
    unfold top
    omega
  rw [htop', htop, zpow_add₀ (by norm_num), zpow_add₀ (by norm_num), zpow_natCast, zpow_natCast]
  exact ⟨mul_le_mul_of_nonneg_right hlow hpow.le, mul_lt_mul_of_pos_right hhigh hpow⟩

section Shortest

variable {m : Nat}

theorem high_lt_ten_pow (hfinite : m < Binary64.infinity) :
    Binary64.high m < 10 ^ (309 : Int) := by
  have hpowers : 2 * Binary64.hiddenBit * 2 ^ 971 < 10 ^ 309 := by
    rw [show 971 = 97 * 10 + 1 by rfl, show 309 = 103 * 3 by rfl, pow_succ, pow_mul, pow_mul]
    norm_num [Binary64.hiddenBit]
  calc Binary64.high m < 2 * Binary64.hiddenBit * 2 ^ (971 : Int) :=
        Binary64.high_lt (Binary64.lt_infinity_iff.1 hfinite)
    _ < 10 ^ (309 : Int) := by exact_mod_cast hpowers

theorem value_shortest_lt (hm : 0 < m) (hfinite : m < Binary64.infinity) :
    (shortest m).value < 10 ^ (309 : Int) :=
  (rounds_shortest hm).le_high.trans_lt (high_lt_ten_pow hfinite)

theorem lt_value_shortest (hm : 0 < m) : (10 : ℚ) ^ (-324 : Int) < (shortest m).value := by
  have hs := Binary64.one_le_significand hm
  have hpowers : 2 ^ 1075 < 10 ^ 324 := by
    rw [show 1075 = 215 * 5 by rfl, show 324 = 81 * 4 by rfl, pow_mul, pow_mul]
    norm_num
  calc (10 : ℚ) ^ (-324 : Int) < 2 ^ (-1075 : Int) := by
        rw [zpow_neg, zpow_neg, inv_lt_inv₀ (by positivity) (by positivity)]
        exact_mod_cast hpowers
    _ = 1 / 2 * 2 ^ (-1074 : Int) := by
        rw [show (-1075 : Int) = -1074 - 1 by decide, zpow_sub_one₀ two_ne_zero]
        ring
    _ ≤ 1 / 2 * 2 ^ Binary64.scale m := by
        gcongr
        · exact one_le_two
        · exact (Binary64.isCanonical_parts m).least_le
    _ ≤ (Binary64.significand m - 1 / 2) * 2 ^ Binary64.scale m := by
        gcongr
        linarith
    _ ≤ Binary64.low m := Binary64.half_unit_le_low m
    _ ≤ (shortest m).value := (rounds_shortest hm).low_le

theorem top_shortest (hm : 0 < m) (hfinite : m < Binary64.infinity) :
    -324 ≤ (shortest m).top ∧ (shortest m).top ≤ 308 := by
  obtain ⟨hlow, hhigh⟩ := top_spec (digits_shortest_ne_zero hm)
  have hbelow := lt_of_ten_zpow_lt (hlow.trans_lt (value_shortest_lt hm hfinite))
  have habove := lt_of_ten_zpow_lt ((lt_value_shortest hm).trans hhigh)
  omega

/-- The digits that are written for a value fit into 64 bits. -/
theorem integer_shortest_lt (hm : 0 < m) : (shortest m).integer < wordLimit := by
  have hdigits := digits_shortest_le m
  unfold integer
  split
  · next h =>
    obtain ⟨k, hk⟩ := Int.eq_ofNat_of_zero_le h.2
    have hvalue : ((shortest m).digits * 10 ^ k : ℚ) < 10 ^ 16 := by
      calc ((shortest m).digits * 10 ^ k : ℚ) = (shortest m).value := by
            rw [value, hk, zpow_natCast]
        _ < 10 ^ ((shortest m).top + 1) := (top_spec (digits_shortest_ne_zero hm)).2
        _ ≤ 10 ^ (16 : Int) := by
            apply zpow_le_zpow_right₀ (by norm_num)
            have := h.1.2
            simp only [layout] at this
            omega
        _ = 10 ^ 16 := rfl
    have hnat : (shortest m).digits * 10 ^ k < 10 ^ 16 := by exact_mod_cast hvalue
    rw [hk, Int.toNat_natCast, Nat.pow_succ, ← Nat.mul_assoc]
    simp only [wordLimit]
    omega
  · simp only [wordLimit]
    omega

theorem integer_shortest_pos (hm : 0 < m) : 0 < (shortest m).integer := by
  have hdigits := digits_shortest_ne_zero hm
  unfold integer
  split
  · positivity
  · exact Nat.pos_of_ne_zero hdigits

theorem shortest_zero : shortest 0 = ⟨0, 0⟩ := rfl

theorem integer_shortest_zero : (shortest 0).integer = 0 := by
  simp [integer, shortest_zero]

theorem top_shortest_zero : (shortest 0).top = 0 := by
  simp [top, shortest_zero, decimal_zero]

theorem power_shortest_zero : (shortest 0).power = -1 := by
  have hpositional : (shortest 0).IsPositional := by
    rw [IsPositional, top_shortest_zero]
    decide
  exact if_pos ⟨hpositional, le_rfl⟩

theorem numeral_shortest (hfinite : m < Binary64.infinity) :
    ((shortest m).digits ≠ 0 ∨ (shortest m).exponent ≤ 0) ∧ (shortest m).integer < wordLimit ∧
      (shortest m).top.natAbs < Numeral.exponentLimit := by
  rcases Nat.eq_zero_or_pos m with rfl | hm
  · rw [integer_shortest_zero, top_shortest_zero, shortest_zero]
    exact ⟨.inr le_rfl, by decide, by decide⟩
  · have htop := top_shortest hm hfinite
    refine ⟨.inl (digits_shortest_ne_zero hm), integer_shortest_lt hm, ?_⟩
    simp only [Numeral.exponentLimit]
    omega

/-! ## What is read back is finite -/

theorem high_le_of_two_above (h : m + 3 ≤ Binary64.infinity) :
    Binary64.high m ≤ (2 * Binary64.hiddenBit - 5 / 2) * 2 ^ (971 : Int) := by
  have hscale := Binary64.lt_infinity_iff.1 (show m < Binary64.infinity by omega)
  rcases Int.lt_or_eq_of_le hscale with hlt | heq
  · calc Binary64.high m ≤ 2 * Binary64.hiddenBit * 2 ^ (970 : Int) :=
          (Binary64.high_lt (by omega)).le
      _ = Binary64.hiddenBit * 2 ^ (971 : Int) := by
          rw [show (971 : Int) = 970 + 1 by decide, zpow_add_one₀ two_ne_zero]
          ring
      _ ≤ (2 * Binary64.hiddenBit - 5 / 2) * 2 ^ (971 : Int) := by
          gcongr
          norm_num [Binary64.hiddenBit]
  · have hs : Binary64.significand m + 3 ≤ 2 * Binary64.hiddenBit := by
      have hencode := Binary64.encode_parts m
      rw [heq] at hencode
      simp only [Binary64.encode, Binary64.infinity, Binary64.hiddenBit] at hencode h ⊢
      omega
    have hs' : (Binary64.significand m : ℚ) + 3 ≤ 2 * Binary64.hiddenBit := by exact_mod_cast hs
    rw [Binary64.high, heq]
    gcongr
    linarith

/-- With two values above it, a value leaves room for the roundings of the reader. -/
theorem high_mul_lt (h : m + 3 ≤ Binary64.infinity) :
    Binary64.high m * (1 + 1 / (2 * Binary64.hiddenBit)) ^ 2 <
      Binary64.high (Binary64.infinity - 1) := by
  have hle := high_le_of_two_above h
  have hpow : (0 : ℚ) < 2 ^ (971 : Int) := by positivity
  rw [Binary64.high_greatest]
  generalize (2 : ℚ) ^ (971 : Int) = p at hle hpow ⊢
  calc Binary64.high m * (1 + 1 / (2 * Binary64.hiddenBit)) ^ 2
      ≤ (2 * Binary64.hiddenBit - 5 / 2) * p * (1 + 1 / (2 * Binary64.hiddenBit)) ^ 2 := by
        gcongr
    _ = (2 * Binary64.hiddenBit - 5 / 2) * (1 + 1 / (2 * Binary64.hiddenBit)) ^ 2 * p := by ring
    _ < (2 * Binary64.hiddenBit - 1 / 2) * p := by
        refine mul_lt_mul_of_pos_right ?_ hpow
        norm_num [Binary64.hiddenBit]

theorem leading_greatest (hfinite : m < Binary64.infinity) (h : Binary64.infinity ≤ m + 2) :
    leading m = 308 := by
  have hpowers : 10 ^ 308 ≤ (2 * Binary64.hiddenBit - 2) * 2 ^ 971 := by
    rw [show 971 = 97 * 10 + 1 by rfl, show 308 = 77 * 4 by rfl, pow_succ 2, pow_mul, pow_mul]
    norm_num [Binary64.hiddenBit]
  have hlarge : 2 < Binary64.infinity := by decide
  have hparts : 2 * Binary64.hiddenBit - 2 ≤ Binary64.significand m ∧ Binary64.scale m = 971 := by
    obtain rfl | rfl : m = Binary64.infinity - 1 ∨ m = Binary64.infinity - 2 := by omega
    · decide
    · decide
  refine leading_eq (by omega) ?_ ((Binary64.value_lt_high m).trans (high_lt_ten_pow hfinite))
  calc (10 : ℚ) ^ (308 : Int) ≤ (2 * Binary64.hiddenBit - 2 : Nat) * 2 ^ (971 : Int) := by
        exact_mod_cast hpowers
    _ ≤ Binary64.value m := by
        rw [Binary64.value, hparts.2]
        gcongr
        exact hparts.1

/-- The text of a finite value can be read. -/
theorem isSome_scale_shortest (hfinite : m < Binary64.infinity) :
    (Numeral.scaleByTen? (Binary64.ofNat (shortest m).integer) (shortest m).power).isSome =
      true := by
  by_cases hlarge : m + 3 ≤ Binary64.infinity
  · rcases lt_or_ge (shortest m).power 0 with hneg | hnonneg
    · exact Numeral.isSome_scaleByTen?_of_neg _ hneg
    · have hm : 0 < m := by
        rw [Nat.pos_iff_ne_zero]
        rintro rfl
        rw [power_shortest_zero] at hnonneg
        omega
      have hpower : (shortest m).power ≤ 308 := by
        have htop := (top_shortest hm hfinite).2
        have hlength := List.length_pos_of_ne_nil (decimal_ne_nil (shortest m).digits)
        unfold top at htop
        unfold power
        split <;> omega
      apply Numeral.isSome_scaleByTen?_of_lt (integer_shortest_pos hm) hnonneg hpower
      rw [value_integer]
      refine lt_of_le_of_lt ?_ (high_mul_lt hlarge)
      gcongr
      exact (rounds_shortest hm).le_high
  · -- The two greatest values are out of reach of the bound.  Their search is evaluated from a
    -- known leading digit, since counting 309 digits would take longer than all the rest.
    have hpos : 2 < Binary64.infinity := by decide
    obtain ⟨d, hd, hshortest⟩ := shortest_eq (show 0 < m by omega)
    rw [leading_greatest hfinite (by omega)] at hd
    have hread : ((search m 308 17 1).map (strip 17)).all fun d ↦
        (Numeral.scaleByTen? (Binary64.ofNat d.integer) d.power).isSome := by
      obtain rfl | rfl : m = Binary64.infinity - 1 ∨ m = Binary64.infinity - 2 := by omega
      · decide +kernel
      · decide +kernel
    rw [hd] at hread
    rw [hshortest]
    exact hread

end Shortest

end Decimal

/-! ## Reading printed values -/

namespace Json

theorem Numeral.exists_digit_of_read {atEnd : Cause} {bs rest : Bytes} {n : Numeral}
    (h : Numeral.read atEnd bs = .ok (n, rest)) :
    ∃ b tail, bs = b :: tail ∧ Ascii.isDigit b = true := by
  obtain ⟨⟨whole, behind⟩, hwhole, -⟩ := bind_eq_ok.1 h
  cases bs with
  | nil => cases hwhole
  | cons b tail =>
      refine ⟨b, tail, rfl, ?_⟩
      rw [Numeral.readWhole] at hwhole
      split at hwhole
      · next hzero => exact hzero ▸ rfl
      · split at hwhole
        · next hdigit => exact hdigit
        · cases hwhole

/-- A written decimal is no integer of JSON: it has a point or an exponent. -/
theorem not_integer_numeral (d : Decimal) :
    ¬ (d.numeral.fraction.isEmpty = true ∧ d.numeral.exponent.isNone = true) := by
  unfold Decimal.numeral
  dsimp only
  split
  · split
    · simp [ascii]
    · split
      · simp [ascii, decimal_ne_nil]
      · next hlength =>
        have hpos := List.length_pos_of_ne_nil (decimal_ne_nil d.digits)
        simp only [ascii, List.isEmpty_iff, List.map_eq_nil_iff, List.drop_eq_nil_iff]
        omega
  · simp

/-- The decimal of a value, behind its sign. -/
theorem read_number {d : Decimal} (hd : d.digits ≠ 0 ∨ d.exponent ≤ 0) {negative : Bool}
    {x : Binary64} (hfloat : ∀ left, d.numeral.float negative left = .ok x) {rest : Bytes}
    (hrest : EndsMember rest) :
    Number.read negative (ascii d.chars ++ rest) = .ok (.float x, rest) := by
  have hread := d.reads_chars .eofInValue hd rest hrest
  have hnumber : d.numeral.number negative rest.length = .ok (.float x) := by
    unfold Numeral.number
    dsimp only
    rw [if_neg fun h ↦ not_integer_numeral d ⟨h.1, h.2.1⟩, hfloat]
    rfl
  simp only [Number.read, hread, hnumber, bind, Except.bind]
  rfl

/-- A printed value is read as its digits, scaled by their power of ten. -/
theorem reads_printFloat {x y : Binary64} (hfinite : x.isFinite = true)
    (hscale : Numeral.scaleByTen? (Binary64.ofNat (Decimal.shortest x.magnitude).integer)
      (Decimal.shortest x.magnitude).power = some y) :
    Reads readFloat (printFloat x) (Numeral.signed x.isNegative y) := by
  intro rest hrest
  obtain ⟨hd, hfits, htop⟩ := Decimal.numeral_shortest (of_decide_eq_true hfinite)
  have hread := fun negative ↦
    read_number hd ((Decimal.denotes_numeral htop).float hfits hscale negative) hrest
  rw [printFloat, if_pos hfinite, Binary64.chars]
  cases x.isNegative with
  | false =>
      obtain ⟨b, tail, htext, hdigit⟩ :=
        Numeral.exists_digit_of_read (Decimal.reads_chars .eofInValue hd rest hrest)
      have hspace : skipSpace (b :: tail) = b :: tail :=
        List.dropWhile_cons_of_neg (by simp [isSpace_of_isDigit hdigit])
      have hminus : b ≠ Ascii.minus := by
        rintro rfl
        exact absurd hdigit (by decide)
      have hnumber := hread false
      rw [htext] at hnumber
      simp only [Bool.false_eq_true, if_false, readFloat, htext, hspace, if_neg hminus, hdigit,
        if_true, hnumber, bind, Except.bind]
      rfl
  | true =>
      have htext : ascii ('-' :: (Decimal.shortest x.magnitude).chars) ++ rest =
          Ascii.minus :: (ascii (Decimal.shortest x.magnitude).chars ++ rest) := rfl
      have hspace : ∀ tail, skipSpace (Ascii.minus :: tail) = Ascii.minus :: tail := fun _ ↦ rfl
      simp only [if_true, readFloat, htext, hspace, hread true, bind, Except.bind]
      rfl

end Json

/-! ## Values that survive -/

namespace Decimal

/-- The digits of the decimal make an integer of at most 53 bits, zeros behind them aside, and its
power of ten is a value. -/
def IsExact (d : Decimal) : Prop :=
  (∃ a j, d.integer = a * 2 ^ j ∧ a < 2 * Binary64.hiddenBit) ∧ d.power.natAbs ≤ 22

theorem scale_of_isExact {m : Nat} (hfinite : m < Binary64.infinity)
    (h : (shortest m).IsExact) :
    Numeral.scaleByTen? (Binary64.ofNat (shortest m).integer) (shortest m).power =
      some (Binary64.ofMagnitude false m) := by
  rcases Nat.eq_zero_or_pos m with rfl | hm
  · rw [integer_shortest_zero, power_shortest_zero, Numeral.scaleByTen?, if_pos (by decide),
      if_neg (by decide)]
    rfl
  · obtain ⟨⟨a, j, hinteger, ha⟩, hpower⟩ := h
    have hpos : 0 < a * 2 ^ j := hinteger ▸ integer_shortest_pos hm
    have hj : j ≤ 971 := by
      have hlt : 2 ^ j < 2 ^ 64 := by
        calc 2 ^ j ≤ a * 2 ^ j := Nat.le_mul_of_pos_left _ (Nat.pos_of_mul_pos_right hpos)
          _ = (shortest m).integer := hinteger.symm
          _ < 2 ^ 64 := integer_shortest_lt hm
      have := (Nat.pow_lt_pow_iff_right (by decide)).1 hlt
      omega
    have hvalue := Binary64.value_ofNat (Nat.pos_of_mul_pos_right hpos) ha hj
    rw [← hinteger] at hvalue
    refine Numeral.scaleByTen?_eq_some hvalue hpower hm hfinite ?_
    rw [value_integer]
    exact rounds_shortest hm

/-- A whole number of at most 53 bits is written with a point and a zero behind it. -/
theorem integer_shortest_whole {m n : Nat} (hm : 0 < m) (hvalue : Binary64.value m = n)
    (hn : n < 2 * Binary64.hiddenBit) :
    (shortest m).integer = n * 10 ∧ (shortest m).power = -1 := by
  obtain ⟨hexponent, hwhole⟩ := shortest_whole hm hvalue hn
  obtain ⟨hlow, hhigh⟩ := top_spec (digits_shortest_ne_zero hm)
  rw [hwhole] at hlow hhigh
  have hpos : 0 < n := by
    have hpos : (0 : ℚ) < n := hvalue ▸ (Binary64.low_pos hm).trans (Binary64.low_lt_value m)
    exact_mod_cast hpos
  have hfew : (10 : ℚ) ^ (shortest m).top < 10 ^ (16 : Int) := by
    refine hlow.trans_lt ?_
    simp only [Binary64.hiddenBit] at hn
    exact_mod_cast (show n < 10 ^ 16 by omega)
  have hmany : (10 : ℚ) ^ (0 : Int) < 10 ^ ((shortest m).top + 1) := by
    refine lt_of_le_of_lt ?_ hhigh
    exact_mod_cast (show 1 ≤ n from hpos)
  have hpositional : (shortest m).IsPositional := by
    have hfew' := lt_of_ten_zpow_lt hfew
    have hmany' := lt_of_ten_zpow_lt hmany
    simp only [IsPositional, layout]
    omega
  have hpower : (shortest m).power = -1 := if_pos ⟨hpositional, hexponent⟩
  refine ⟨?_, hpower⟩
  have h := value_integer (shortest m)
  rw [hpower, hwhole, zpow_neg_one, ← div_eq_mul_inv, div_eq_iff (by norm_num)] at h
  exact_mod_cast h

/-- Whole numbers up to a fifth of `2 ^ 53` are exact, though the zero behind the point makes them
ten times as large and has the reader divide by ten. -/
theorem isExact_shortest_whole {n : Nat} (hn : n ≤ 1801439850948198) :
    (shortest (Binary64.ofNat n).magnitude).IsExact := by
  rcases Nat.eq_zero_or_pos n with rfl | hpos
  · rw [show (Binary64.ofNat 0).magnitude = 0 by rfl]
    refine ⟨⟨0, 0, integer_shortest_zero, by decide⟩, ?_⟩
    rw [power_shortest_zero]
    decide
  · have hlt : n < 2 * Binary64.hiddenBit := by
      simp only [Binary64.hiddenBit]
      omega
    have hvalue := Binary64.value_ofNat (j := 0) hpos hlt (Nat.zero_le _)
    rw [pow_zero, Nat.mul_one] at hvalue
    generalize (Binary64.ofNat n).magnitude = m at hvalue
    have hm : 0 < m := by
      rw [Nat.pos_iff_ne_zero]
      rintro rfl
      rw [Binary64.value_zero] at hvalue
      exact Nat.ne_of_gt hpos (by exact_mod_cast hvalue.symm)
    obtain ⟨hinteger, hpower⟩ := integer_shortest_whole hm hvalue hlt
    refine ⟨⟨5 * n, 1, by omega, ?_⟩, by rw [hpower]; decide⟩
    simp only [Binary64.hiddenBit]
    omega

end Decimal

theorem signed_ofMagnitude {x : Binary64} (hfinite : x.isFinite = true) :
    Numeral.signed x.isNegative (Binary64.ofMagnitude false x.magnitude) = x := by
  have hle : x.magnitude ≤ Binary64.infinity := (of_decide_eq_true hfinite).le
  nth_rewrite 3 [← Binary64.ofMagnitude_self x]
  cases x.isNegative with
  | false => rfl
  | true =>
      rw [Numeral.signed, if_pos rfl, Binary64.neg, Binary64.isNegative_ofMagnitude false hle,
        Binary64.magnitude_ofMagnitude false hle]
      rfl

theorem reads_printFloat_of_isExact {x : Binary64} (hfinite : x.isFinite = true)
    (h : (Decimal.shortest x.magnitude).IsExact) : Reads readFloat (printFloat x) x := by
  have hread := reads_printFloat hfinite
    (Decimal.scale_of_isExact (of_decide_eq_true hfinite) h)
  rwa [signed_ofMagnitude hfinite] at hread

/-- Every event with a finite value can be read back with the times that it shows, and with its own
value where the digits of that and their power of ten are values too.  So are whole numbers up to a
fifth of `2 ^ 53`. -/
theorem parse_json_of_finite (e : Event) (hfinite : e.value.isFinite = true) :
    (∃ v, Event.parse e.json = .ok { e.asWritten with value := v }) ∧
      ((Decimal.shortest e.value.magnitude).IsExact → Event.parse e.json = .ok e.asWritten) ∧
      (∀ n ≤ 1801439850948198, e.value.magnitude = (Binary64.ofNat n).magnitude →
        Event.parse e.json = .ok e.asWritten) ∧
      (e.timestamp.LeapOnMinute → e.timestampEnd.LeapOnMinute → e.asWritten = e) := by
  have hexact : (Decimal.shortest e.value.magnitude).IsExact →
      Event.parse e.json = .ok e.asWritten :=
    fun h ↦ parse_of_reads (Event.reads_json (reads_printFloat_of_isExact hfinite h))
  refine ⟨?_, hexact, fun n hn hwhole ↦ hexact ?_, Event.asWritten_of_leapOnMinute⟩
  · obtain ⟨y, hy⟩ := Option.isSome_iff_exists.1
      (Decimal.isSome_scale_shortest (of_decide_eq_true hfinite))
    exact ⟨_, parse_of_reads (Event.reads_json (reads_printFloat hfinite hy))⟩
  · rw [hwhole]
    exact Decimal.isExact_shortest_whole hn

theorem parse_json_of_finite_fraction_and_whole :
    (∃ e, e = { Event.escaped with value := ⟨0x400A000000000000⟩ } ∧
        e.value.isFinite = true ∧ (Decimal.shortest e.value.magnitude).IsExact ∧
          Event.parse e.json = .ok e) ∧
      ∃ e, e = { Event.escaped with value := Binary64.ofNat 1801439850948198 } ∧
        Event.parse e.json = .ok e := by
  have hfraction : (Decimal.shortest (Binary64.magnitude ⟨0x400A000000000000⟩)).IsExact :=
    ⟨⟨325, 0, by decide +kernel, by decide⟩, by decide +kernel⟩
  refine ⟨⟨_, rfl, by decide, hfraction, ?_⟩, _, rfl, ?_⟩
  · obtain ⟨-, hself, -, htimes⟩ :=
      parse_json_of_finite { Event.escaped with value := ⟨0x400A000000000000⟩ } (by decide)
    rw [hself hfraction, htimes (by decide) (by decide)]
  · obtain ⟨-, -, hself, htimes⟩ := parse_json_of_finite
      { Event.escaped with value := Binary64.ofNat 1801439850948198 } (by decide +kernel)
    rw [hself 1801439850948198 (le_refl _) rfl, htimes (by decide) (by decide)]

/-- The next whole number is written as it is and read back as another. -/
theorem not_parse_json_of_finite :
    ∃ e : Event, e.value = Binary64.ofNat 1801439850948199 ∧ e.value.isFinite = true ∧
      Event.parse e.json = .ok { e with value := ⟨0x431999999999999D⟩ } ∧
        e.value ≠ ⟨0x431999999999999D⟩ :=
  ⟨Event.escaped, by decide +kernel, by decide, by decide +kernel, by decide⟩

end HourlyUsage
