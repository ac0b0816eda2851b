import HourlyUsage.Decimal.Shortest
import HourlyUsage.Proofs.DigitRuns
import HourlyUsage.Proofs.Rounding
import Mathlib.Algebra.Order.Floor.Semifield
import Mathlib.Data.Rat.Floor

/-!
# Shortest decimals

The search for the shortest decimal ends with one of at most seventeen digits, and that
decimal rounds to the magnitude that it was searched for.
-/

namespace HourlyUsage

open Text

namespace Decimal

theorem lt_of_ten_zpow_lt {i j : Int} (h : (10 : ℚ) ^ i < 10 ^ j) : i < j :=
  (zpow_lt_zpow_iff_right₀ (by norm_num)).1 h

/-- The number that a decimal stands for. -/
def value (d : Decimal) : ℚ := d.digits * 10 ^ d.exponent

/-! ## Comparisons -/

section Compare

/-- A comparison of scaled naturals, over the denominators that both sides have in common. -/
theorem scaled_le_iff {b c : Nat} (hb : 0 < b) (hc : 0 < c) (a n : Nat) (i j : Int) :
    (a : ℚ) * b ^ i ≤ n * c ^ j ↔
      a * b ^ i.toNat * c ^ (-j).toNat ≤ n * b ^ (-i).toNat * c ^ j.toNat := by
  rw [Binary64.zpow_eq_div (b : ℚ), Binary64.zpow_eq_div (c : ℚ), mul_div_assoc', mul_div_assoc',
    div_le_div_iff₀ (by positivity) (by positivity), mul_right_comm (n : ℚ)]
  exact_mod_cast Iff.rfl

variable {a n : Nat} {i j : Int}

theorem compareScaled_eq (a : Nat) (i : Int) (n : Nat) (j : Int) :
    compareScaled a i n j =
      compare (a * 10 ^ i.toNat * 2 ^ (-j).toNat) (n * 10 ^ (-i).toNat * 2 ^ j.toNat) := by
  simp only [compareScaled, Nat.shiftLeft_eq]
  rfl

theorem isLE_compareScaled :
    (compareScaled a i n j).isLE = true ↔ (a : ℚ) * 10 ^ i ≤ n * 2 ^ j := by
  rw [compareScaled_eq, Nat.isLE_compare]
  exact (scaled_le_iff (b := 10) (c := 2) (by decide) (by decide) a n i j).symm

theorem isGE_compareScaled :
    (compareScaled a i n j).isGE = true ↔ (n : ℚ) * 2 ^ j ≤ a * 10 ^ i := by
  rw [compareScaled_eq, Nat.isGE_compare, Nat.mul_right_comm n, Nat.mul_right_comm a]
  exact (scaled_le_iff (b := 2) (c := 10) (by decide) (by decide) n a j i).symm

theorem isLT_compareScaled :
    (compareScaled a i n j).isLT = true ↔ (a : ℚ) * 10 ^ i < n * 2 ^ j := by
  rw [← not_le, ← isGE_compareScaled]
  cases compareScaled a i n j <;> decide

theorem isGT_compareScaled :
    (compareScaled a i n j).isGT = true ↔ (n : ℚ) * 2 ^ j < a * 10 ^ i := by
  rw [← not_le, ← isLE_compareScaled]
  cases compareScaled a i n j <;> decide

end Compare

/-! ## Decimals that round to a magnitude -/

section RoundsTo

variable {m : Nat}

theorem low_eq (hm : 0 < m) : Binary64.low m =
    ((if m % Binary64.hiddenBit = 0 ∧ 2 * Binary64.hiddenBit ≤ m then
      4 * Binary64.significand m - 1 else 4 * Binary64.significand m - 2 : Nat) : ℚ) *
        2 ^ (Binary64.scale m - 2) := by
  have hs := Binary64.significand_pos hm
  rw [Binary64.low, zpow_sub₀ two_ne_zero]
  split
  · rw [Nat.cast_sub (by omega)]
    push_cast
    ring
  · rw [Nat.cast_sub (by omega)]
    push_cast
    ring

theorem high_eq (m : Nat) : Binary64.high m =
    ((4 * Binary64.significand m + 2 : Nat) : ℚ) * 2 ^ (Binary64.scale m - 2) := by
  rw [Binary64.high, zpow_sub₀ two_ne_zero]
  push_cast
  ring

theorem roundsTo_iff {d : Decimal} (hm : 0 < m) :
    d.roundsTo m = true ↔ Binary64.Rounds d.value m := by
  unfold roundsTo
  dsimp only
  split
  · next heven =>
    rw [Bool.and_eq_true, isGE_compareScaled, isLE_compareScaled, ← low_eq hm, ← high_eq]
    refine ⟨fun ⟨hlow, hhigh⟩ ↦ ⟨hlow, hhigh, fun hodd ↦ ?_⟩, fun h ↦ ⟨h.low_le, h.le_high⟩⟩
    omega
  · next hodd =>
    rw [Bool.and_eq_true, isGT_compareScaled, isLT_compareScaled, ← low_eq hm, ← high_eq]
    exact ⟨fun ⟨hlow, hhigh⟩ ↦ ⟨hlow.le, hhigh.le, fun _ ↦ ⟨hlow, hhigh⟩⟩,
      fun h ↦ h.of_odd (by omega)⟩

theorem digits_ne_zero {d : Decimal} (hm : 0 < m) (h : Binary64.Rounds d.value m) :
    d.digits ≠ 0 := by
  intro hzero
  have hpos := (Binary64.low_pos hm).trans_le h.low_le
  simp [value, hzero] at hpos

end RoundsTo

/-! ## Grids -/

section Grid

variable {m : Nat} {d : Decimal} {e : Int}

/-- The quotient that is rounded down and up on a grid. -/
theorem gridQuotient_eq (m : Nat) (e : Int) :
    (((Binary64.significand m * 10 ^ (-e).toNat) <<< (Binary64.scale m).toNat : Nat) : ℚ) /
      (10 ^ e.toNat <<< (-Binary64.scale m).toNat : Nat) = Binary64.value m / 10 ^ e := by
  rw [Binary64.shift_mul, Binary64.value, Binary64.zpow_eq_div 10 e]
  push_cast
  field_simp

/-- The neighbour of a value below it, or at it, on a grid. -/
def below (m : Nat) (e : Int) : Decimal := ⟨⌊Binary64.value m / 10 ^ e⌋₊, e⟩

/-- The neighbour of a value above it on a grid. -/
def above (m : Nat) (e : Int) : Decimal := ⟨⌊Binary64.value m / 10 ^ e⌋₊ + 1, e⟩

theorem onGrid?_spec (m : Nat) (e : Int) : ∃ middle, (middle = below m e ∨ middle = above m e) ∧
    onGrid? m e =
      match (below m e).roundsTo m, (above m e).roundsTo m with
      | true, true => some middle
      | true, false => some (below m e)
      | false, true => some (above m e)
      | false, false => none := by
  let n := (Binary64.significand m * 10 ^ (-e).toNat) <<< (Binary64.scale m).toNat
  let k := 10 ^ e.toNat <<< (-Binary64.scale m).toNat
  have hfloor : ⌊Binary64.value m / 10 ^ e⌋₊ = n / k := by
    rw [← gridQuotient_eq, Nat.floor_div_eq_div]
  refine ⟨⟨Binary64.roundDiv n k, e⟩, ?_, ?_⟩
  · rcases Binary64.roundDiv_eq_or n k with h | h
    · exact .inl (by rw [h, below, hfloor])
    · exact .inr (by rw [h, above, hfloor])
  · rw [below, above, hfloor]
    rfl

/-- What is found on a grid is a neighbour of the value that rounds to it. -/
theorem onGrid?_eq_some (h : onGrid? m e = some d) :
    d.roundsTo m = true ∧ (d = below m e ∨ d = above m e) := by
  obtain ⟨middle, hmiddle, hspec⟩ := onGrid?_spec m e
  rw [hspec] at h
  split at h
  · next hbelow habove =>
    obtain rfl := Option.some.inj h
    rcases hmiddle with rfl | rfl
    · exact ⟨hbelow, .inl rfl⟩
    · exact ⟨habove, .inr rfl⟩
  · next hbelow _ =>
    obtain rfl := Option.some.inj h
    exact ⟨hbelow, .inl rfl⟩
  · next _ habove =>
    obtain rfl := Option.some.inj h
    exact ⟨habove, .inr rfl⟩
  · cases h

theorem isSome_onGrid? (h : (below m e).roundsTo m = true ∨ (above m e).roundsTo m = true) :
    (onGrid? m e).isSome = true := by
  obtain ⟨middle, -, hspec⟩ := onGrid?_spec m e
  rw [hspec]
  split
  · rfl
  · rfl
  · rfl
  · next hbelow habove => simp [hbelow, habove] at h

theorem value_below_le (m : Nat) (e : Int) : (below m e).value ≤ Binary64.value m := by
  have hvalue : 0 ≤ Binary64.value m / 10 ^ e := by
    unfold Binary64.value
    positivity
  exact (le_div_iff₀ (by positivity)).1 (Nat.floor_le hvalue)

theorem value_above (m : Nat) (e : Int) : (above m e).value = (below m e).value + 10 ^ e := by
  simp only [value, above, below]
  push_cast
  ring

theorem value_lt_above (m : Nat) (e : Int) : Binary64.value m < (above m e).value := by
  have hfloor := Nat.lt_floor_add_one (Binary64.value m / 10 ^ e)
  rw [div_lt_iff₀ (by positivity)] at hfloor
  simpa [value, above] using hfloor

/-- A grid finer than the values around a value has a neighbour that rounds to it.  Below a power
of two the one above the value does, and elsewhere the nearer one. -/
theorem isSome_onGrid?_of_fine (hm : 0 < m) (hfine : (10 : ℚ) ^ e < 2 ^ Binary64.scale m)
    (hlow : (10 : ℚ) ^ e < 2 ^ Binary64.scale m / 2 ∨
      Binary64.low m = (Binary64.significand m - 1 / 2) * 2 ^ Binary64.scale m) :
    (onGrid? m e).isSome = true := by
  have hgrid : (0 : ℚ) < 10 ^ e := by positivity
  have hbelow := value_below_le m e
  have habove := value_lt_above m e
  have hgap := value_above m e
  have hhigh : Binary64.high m = Binary64.value m + 2 ^ Binary64.scale m / 2 := by
    rw [Binary64.high, Binary64.value]
    ring
  apply isSome_onGrid?
  rw [roundsTo_iff hm, roundsTo_iff hm]
  by_cases hnear : (above m e).value < Binary64.high m
  · exact .inr (.of_lt ((Binary64.low_lt_value m).trans habove) hnear)
  · left
    rw [not_lt, hhigh] at hnear
    refine .of_lt ?_ (hbelow.trans_lt (Binary64.value_lt_high m))
    rcases hlow with hfiner | hlow
    · linarith
    · have hlow' : Binary64.low m = Binary64.value m - 2 ^ Binary64.scale m / 2 := by
        rw [hlow, Binary64.value]
        ring
      rw [hlow']
      linarith

end Grid

/-! ## The leading digit -/

theorem lt_pow_digitCount (n : Nat) : n < 10 ^ digitCount n := lt_pow_length_decimal n

theorem digitCount_pos (n : Nat) : 0 < digitCount n :=
  List.length_pos_of_ne_nil (decimal_ne_nil n)

/-- A positive number of `k + 1` digits lies between two powers of ten. -/
theorem exists_digitCount_eq {n : Nat} (hn : 0 < n) :
    ∃ k, digitCount n = k + 1 ∧ 10 ^ k ≤ n ∧ n < 10 ^ (k + 1) := by
  have hlow := pow_length_decimal_le (Nat.ne_of_gt hn)
  have hhigh := lt_pow_digitCount n
  obtain ⟨k, hk⟩ := Nat.exists_eq_succ_of_ne_zero (Nat.ne_of_gt (digitCount_pos n))
  rw [hk] at hhigh
  have hlength : (decimal n).length - 1 = k := by
    rw [← Nat.succ_sub_one k, ← hk]
    rfl
  exact ⟨k, hk, hlength ▸ hlow, hhigh⟩

/-- The greatest power of ten that a quotient reaches. -/
theorem floorLog10_spec {n d : Nat} (hn : 0 < n) (hd : 0 < d) :
    (10 : ℚ) ^ floorLog10 n d ≤ n / d ∧ (n : ℚ) / d < 10 ^ (floorLog10 n d + 1) := by
  have hnpos : (0 : ℚ) < n := by exact_mod_cast hn
  have hdpos : (0 : ℚ) < d := by exact_mod_cast hd
  unfold floorLog10
  split
  · next h =>
    obtain ⟨k, hk, hlow, hhigh⟩ := exists_digitCount_eq (Nat.div_pos h hd)
    rw [hk, Nat.cast_succ, add_sub_cancel_right]
    rw [Nat.le_div_iff_mul_le hd] at hlow
    rw [Nat.div_lt_iff_lt_mul hd] at hhigh
    rw [le_div_iff₀ hdpos, div_lt_iff₀ hdpos]
    exact ⟨by exact_mod_cast hlow, by exact_mod_cast hhigh⟩
  · next h =>
    rw [not_le] at h
    obtain ⟨k, hk, hlow, hhigh⟩ := exists_digitCount_eq (Nat.div_pos h.le hn)
    rw [Nat.le_div_iff_mul_le hn] at hlow
    rw [Nat.div_lt_iff_lt_mul hn] at hhigh
    have hlow' : (10 : ℚ) ^ k * n ≤ d := by exact_mod_cast hlow
    have hhigh' : (d : ℚ) < 10 ^ (k + 1) * n := by exact_mod_cast hhigh
    rw [hk, Nat.add_sub_cancel]
    dsimp only
    split
    · next hreach =>
      have hreach' : (d : ℚ) ≤ n * 10 ^ k := by exact_mod_cast hreach
      rw [zpow_add_one₀ (by norm_num), zpow_neg, zpow_natCast, inv_le_comm₀ (by positivity)
        (by positivity), inv_div, div_le_iff₀ hnpos, div_lt_iff₀ hdpos]
      refine ⟨by linarith, ?_⟩
      rw [inv_mul_eq_div, div_mul_eq_mul_div, lt_div_iff₀ (by positivity)]
      linarith
    · next hreach =>
      have hreach' : (n : ℚ) * 10 ^ k < d := by exact_mod_cast Nat.lt_of_not_le hreach
      have hsucc : -((k + 1 : Nat) : Int) + 1 = -(k : Int) := by
        push_cast
        ring
      rw [hsucc, zpow_neg, zpow_neg, zpow_natCast, zpow_natCast, inv_le_comm₀ (by positivity)
        (by positivity), inv_div, div_le_iff₀ hnpos, div_lt_iff₀ hdpos, inv_mul_eq_div,
        lt_div_iff₀ (by positivity)]
      exact ⟨hhigh'.le, hreach'⟩

/-- The power of ten of the leading digit of a value. -/
def leading (m : Nat) : Int :=
  floorLog10 (Binary64.significand m <<< (Binary64.scale m).toNat)
    (1 <<< (-Binary64.scale m).toNat)

theorem leading_spec {m : Nat} (hm : 0 < m) :
    (10 : ℚ) ^ leading m ≤ Binary64.value m ∧ Binary64.value m < 10 ^ (leading m + 1) := by
  have hs := Binary64.significand_pos hm
  have hshift := Binary64.shift_mul (Binary64.significand m) 1 (Binary64.scale m)
  rw [Nat.cast_one, div_one] at hshift
  rw [Binary64.value, ← hshift]
  exact floorLog10_spec (Binary64.shift_pos hs _) (Binary64.shift_pos Nat.one_pos _)

theorem leading_eq {m : Nat} (hm : 0 < m) {k : Int} (hlow : (10 : ℚ) ^ k ≤ Binary64.value m)
    (hhigh : Binary64.value m < 10 ^ (k + 1)) : leading m = k := by
  obtain ⟨hlow', hhigh'⟩ := leading_spec hm
  have hle := lt_of_ten_zpow_lt (hlow'.trans_lt hhigh)
  have hge := lt_of_ten_zpow_lt (hlow.trans_lt hhigh')
  omega

/-! ## The search -/

/-- What is found is found on the first grid that has anything. -/
theorem search_eq_some {m : Nat} {top : Int} {left digits : Nat} {d : Decimal}
    (h : search m top left digits = some d) :
    ∃ k, digits ≤ k ∧ k < digits + left ∧ onGrid? m (top + 1 - k) = some d ∧
      ∀ i : Nat, digits ≤ i → i < k → onGrid? m (top + 1 - i) = none := by
  induction left generalizing digits with
  | zero => cases h
  | succ left ih =>
      rw [search] at h
      cases hgrid : onGrid? m (top + 1 - digits) with
      | some found =>
          rw [hgrid] at h
          obtain rfl : found = d := Option.some.inj h
          exact ⟨digits, Nat.le_refl _, by omega, hgrid, fun i hle hlt ↦ by omega⟩
      | none =>
          rw [hgrid] at h
          obtain ⟨k, hle, hlt, hk, hfirst⟩ := ih h
          refine ⟨k, by omega, by omega, hk, fun i hi hik ↦ ?_⟩
          rcases Nat.lt_or_eq_of_le hi with hnext | rfl
          · exact hfirst i hnext hik
          · exact hgrid

theorem isSome_search {m : Nat} {top : Int} {left digits k : Nat} (hle : digits ≤ k)
    (hlt : k < digits + left) (h : (onGrid? m (top + 1 - k)).isSome = true) :
    (search m top left digits).isSome = true := by
  induction left generalizing digits with
  | zero => omega
  | succ left ih =>
      rw [search]
      cases hgrid : onGrid? m (top + 1 - digits) with
      | some found => rfl
      | none =>
          have hne : digits ≠ k := by
            rintro rfl
            simp [hgrid] at h
          exact ih (by omega) (by omega)

theorem value_strip (left : Nat) (d : Decimal) : (strip left d).value = d.value := by
  induction left generalizing d with
  | zero => rfl
  | succ left ih =>
      rw [strip]
      split
      · next h =>
        have hten : d.digits = d.digits / 10 * 10 := by omega
        rw [ih, value, value, zpow_add_one₀ (by norm_num)]
        nth_rewrite 2 [hten]
        push_cast
        ring
      · rfl

theorem digits_strip_le (left : Nat) (d : Decimal) : (strip left d).digits ≤ d.digits := by
  induction left generalizing d with
  | zero => exact Nat.le_refl _
  | succ left ih =>
      rw [strip]
      split
      · exact (ih _).trans (Nat.div_le_self _ _)
      · exact Nat.le_refl _

theorem exponent_le_strip (left : Nat) (d : Decimal) : d.exponent ≤ (strip left d).exponent := by
  induction left generalizing d with
  | zero => exact le_refl _
  | succ left ih =>
      rw [strip]
      split
      · exact (Int.le_add_of_nonneg_right (by decide)).trans (ih _)
      · exact le_refl _

/-! ## Seventeen digits -/

/-- Seventeen digits tell the values apart. -/
theorem isSome_onGrid?_seventeen {m : Nat} (hm : 0 < m) :
    (onGrid? m (leading m + 1 - (17 : Nat))).isSome = true := by
  have hpow : (0 : ℚ) < 2 ^ Binary64.scale m := by positivity
  have hgrid : (10 : ℚ) ^ (leading m + 1 - (17 : Nat)) ≤
      Binary64.significand m / 10 ^ 16 * 2 ^ Binary64.scale m := by
    have hexponent : leading m + 1 - (17 : Nat) = leading m - (16 : Nat) := by
      push_cast
      ring
    rw [hexponent, zpow_sub₀ (by norm_num), zpow_natCast, div_mul_eq_mul_div]
    gcongr
    exact (leading_spec hm).1
  have hs := Binary64.significand_add_one_le m
  rw [Binary64.hiddenBit_cast] at hs
  refine isSome_onGrid?_of_fine hm (hgrid.trans_lt ?_) ?_
  · exact mul_lt_of_lt_one_left hpow (by linarith)
  · by_cases hboundary : m % Binary64.hiddenBit = 0 ∧ 2 * Binary64.hiddenBit ≤ m
    · have hfull : (Binary64.significand m : ℚ) = 4503599627370496 := by
        have hnat : Binary64.significand m = 4503599627370496 := by
          unfold Binary64.significand
          split <;> (simp only [Binary64.hiddenBit] at *; omega)
        exact_mod_cast hnat
      left
      rw [hfull] at hgrid
      linarith
    · right
      rw [Binary64.low, if_neg hboundary]

theorem digits_le_of_search {m : Nat} (hm : 0 < m) {d : Decimal}
    (h : search m (leading m) 17 1 = some d) : d.digits ≤ 10 ^ 17 := by
  obtain ⟨k, -, hk, hgrid, -⟩ := search_eq_some h
  have hpow : (0 : ℚ) < 10 ^ (leading m + 1 - k) := by positivity
  have hquotient : Binary64.value m / 10 ^ (leading m + 1 - k) < (10 ^ k : Nat) := by
    rw [div_lt_iff₀ hpow]
    push_cast
    rw [← zpow_natCast, ← zpow_add₀ (by norm_num), add_sub_cancel]
    exact (leading_spec hm).2
  have hfloor : ⌊Binary64.value m / 10 ^ (leading m + 1 - k)⌋₊ < 10 ^ k :=
    Nat.floor_lt' (by positivity) |>.2 hquotient
  have hseventeen : 10 ^ k ≤ 10 ^ 17 := Nat.pow_le_pow_right (by decide) (by omega)
  rcases (onGrid?_eq_some hgrid).2 with rfl | rfl
  · simp only [below]
    omega
  · simp only [above]
    omega

theorem roundsTo_of_search {m : Nat} {d : Decimal} (h : search m (leading m) 17 1 = some d) :
    d.roundsTo m = true := by
  obtain ⟨k, -, -, hgrid, -⟩ := search_eq_some h
  exact (onGrid?_eq_some hgrid).1

/-- The search for the shortest decimal succeeds. -/
theorem shortest_eq {m : Nat} (hm : 0 < m) :
    ∃ d, search m (leading m) 17 1 = some d ∧ shortest m = strip 17 d := by
  have hseventeen : (search m (leading m) 17 1).isSome = true :=
    isSome_search (by decide : 1 ≤ 17) (by decide) (isSome_onGrid?_seventeen hm)
  obtain ⟨d, hd⟩ := Option.isSome_iff_exists.1 hseventeen
  refine ⟨d, hd, ?_⟩
  rw [shortest, if_neg (Nat.ne_of_gt hm)]
  unfold leading at hd
  simp only [hd]

/-- The shortest decimal of a magnitude rounds to it. -/
theorem rounds_shortest {m : Nat} (hm : 0 < m) : Binary64.Rounds (shortest m).value m := by
  obtain ⟨d, hd, hshortest⟩ := shortest_eq hm
  rw [hshortest, value_strip]
  exact (roundsTo_iff hm).1 (roundsTo_of_search hd)

theorem digits_shortest_le (m : Nat) : (shortest m).digits ≤ 10 ^ 17 := by
  rcases Nat.eq_zero_or_pos m with rfl | hm
  · decide
  · obtain ⟨d, hd, hshortest⟩ := shortest_eq hm
    rw [hshortest]
    exact (digits_strip_le 17 d).trans (digits_le_of_search hm hd)

theorem digits_shortest_ne_zero {m : Nat} (hm : 0 < m) : (shortest m).digits ≠ 0 :=
  digits_ne_zero hm (rounds_shortest hm)

/-! ## Whole numbers -/

section Whole

variable {m n : Nat}

/-- The values around a whole number of at most 53 bits are no further apart than one. -/
theorem scale_nonpos_of_whole (hvalue : Binary64.value m = n) (hn : n < 2 * Binary64.hiddenBit) :
    Binary64.scale m ≤ 0 := by
  rw [← not_lt]
  intro hscale
  have hleading := (Binary64.isCanonical_parts m).leading.resolve_right (by omega)
  have hge : (2 * Binary64.hiddenBit : ℚ) ≤ n := by
    calc (2 * Binary64.hiddenBit : ℚ) = Binary64.hiddenBit * 2 ^ (1 : Int) := by
          rw [zpow_one]
          ring
      _ ≤ Binary64.value m := by
          unfold Binary64.value
          gcongr
          · exact one_le_two
          · omega
      _ = n := hvalue
  have hnat : 2 * Binary64.hiddenBit ≤ n := by exact_mod_cast hge
  omega

/-- No other whole number rounds to a whole number of at most 53 bits. -/
theorem whole_eq_of_rounds (hvalue : Binary64.value m = n) (hn : n < 2 * Binary64.hiddenBit)
    {k : Nat} (h : Binary64.Rounds k m) : k = n := by
  have hpow : (2 : ℚ) ^ Binary64.scale m ≤ 1 :=
    zpow_le_one_of_nonpos₀ one_le_two (scale_nonpos_of_whole hvalue hn)
  have hlow : (n : ℚ) - 1 / 2 ≤ Binary64.low m := by
    have hgap := Binary64.half_unit_le_low m
    rw [sub_mul, ← Binary64.value, hvalue] at hgap
    linarith
  have hhigh : Binary64.high m ≤ n + 1 / 2 := by
    rw [← hvalue, Binary64.high, Binary64.value, add_mul]
    linarith
  have hbelow : (k : ℚ) < n + 1 := by linarith [h.le_high]
  have habove : (n : ℚ) < k + 1 := by linarith [h.low_le]
  have hbelow' : k < n + 1 := by exact_mod_cast hbelow
  have habove' : n < k + 1 := by exact_mod_cast habove
  omega

/-- On the grid of the whole numbers a whole number is found, if nothing else is. -/
theorem isSome_onGrid?_whole (hm : 0 < m) (hvalue : Binary64.value m = n) :
    (onGrid? m 0).isSome = true := by
  have hbelow : below m 0 = ⟨n, 0⟩ := by
    rw [below, zpow_zero, div_one, hvalue, Nat.floor_natCast]
  apply isSome_onGrid?
  left
  rw [roundsTo_iff hm, hbelow, value, zpow_zero, mul_one, ← hvalue]
  exact Binary64.rounds_value m

/-- The shortest decimal of a whole number of at most 53 bits is that number. -/
theorem shortest_whole (hm : 0 < m) (hvalue : Binary64.value m = n)
    (hn : n < 2 * Binary64.hiddenBit) :
    0 ≤ (shortest m).exponent ∧ (shortest m).value = n := by
  have hone : (1 : ℚ) ≤ n := by
    have hpos : (0 : ℚ) < n := hvalue ▸ (Binary64.low_pos hm).trans (Binary64.low_lt_value m)
    exact_mod_cast hpos
  have hleading : 0 ≤ leading m := by
    have hlt : (10 : ℚ) ^ (0 : Int) < 10 ^ (leading m + 1) := by
      rw [zpow_zero]
      exact hone.trans_lt (hvalue ▸ (leading_spec hm).2)
    have := lt_of_ten_zpow_lt hlt
    omega
  obtain ⟨d, hd, hshortest⟩ := shortest_eq hm
  obtain ⟨k, hk, -, hgrid, hfirst⟩ := search_eq_some hd
  have hself := isSome_onGrid?_whole hm hvalue
  have hexponent : 0 ≤ leading m + 1 - k := by
    by_contra hneg
    have hnone := hfirst (leading m + 1).toNat (by omega) (by omega)
    rw [Int.toNat_of_nonneg (by omega), sub_self] at hnone
    rw [hnone] at hself
    cases hself
  obtain ⟨e, he⟩ := Int.eq_ofNat_of_zero_le hexponent
  have hde : d.exponent = e := by
    rw [← he]
    rcases (onGrid?_eq_some hgrid).2 with rfl | rfl <;> rfl
  have hdvalue : d.value = (d.digits * 10 ^ e : Nat) := by
    rw [value, hde, zpow_natCast]
    push_cast
    rfl
  have hrounds := rounds_shortest hm
  rw [hshortest, value_strip, hdvalue] at hrounds
  refine ⟨?_, ?_⟩
  · rw [hshortest]
    exact le_trans (by omega) (exponent_le_strip 17 d)
  · rw [hshortest, value_strip, hdvalue, whole_eq_of_rounds hvalue hn hrounds]

end Whole

end Decimal
end HourlyUsage
