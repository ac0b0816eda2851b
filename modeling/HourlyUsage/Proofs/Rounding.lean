import HourlyUsage.Decimal.Binary64
import Mathlib.Algebra.Order.Field.Power
import Mathlib.Data.Rat.Cast.Order
import Mathlib.Tactic.FieldSimp
import Mathlib.Tactic.Linarith
import Mathlib.Tactic.NormNum
import Mathlib.Tactic.Positivity
import Mathlib.Tactic.Ring

/-!
# Rounding of quotients

A finite magnitude stands for its integral factor times a power of two.  The numbers
that round to it lie between the middles to its two neighbours, and a middle belongs
to the neighbour whose factor is even.  Rounding a quotient finds the magnitude whose
interval holds it.
-/

namespace HourlyUsage
namespace Binary64

theorem zpow_eq_div (a : ℚ) (k : Int) : a ^ k = a ^ k.toNat / a ^ (-k).toNat := by
  rcases le_total 0 k with hk | hk
  · obtain ⟨n, rfl⟩ := Int.eq_ofNat_of_zero_le hk
    simp
  · obtain ⟨n, hn⟩ := Int.eq_ofNat_of_zero_le (Int.neg_nonneg_of_nonpos hk)
    obtain rfl : k = -(n : Int) := by omega
    simp

/-! ## Integral factors -/

/-- The magnitude of an integral factor at a power of two. -/
def encode (s : Nat) (q : Int) : Nat := (q + 1074).toNat * hiddenBit + s

/-- A factor and a power of two as magnitudes have them: the leading bit is there, except at the
least power. -/
structure IsCanonical (s : Nat) (q : Int) : Prop where
  least_le : -1074 ≤ q
  lt : s < 2 * hiddenBit
  leading : hiddenBit ≤ s ∨ q = -1074

theorem isCanonical_parts (m : Nat) : IsCanonical (significand m) (scale m) := by
  unfold significand scale
  split
  · next h => exact ⟨le_refl _, by simp only [hiddenBit] at *; omega, .inr rfl⟩
  · next h =>
    refine ⟨?_, ?_, .inl (Nat.le_add_right _ _)⟩
    all_goals
      simp only [hiddenBit] at *
      omega

theorem encode_parts (m : Nat) : encode (significand m) (scale m) = m := by
  unfold encode significand scale
  split
  · simp
  · simp only [hiddenBit] at *
    omega

namespace IsCanonical

variable {s : Nat} {q : Int}

theorem significand_encode (h : IsCanonical s q) : significand (encode s q) = s := by
  obtain ⟨hq, hs, hleading⟩ := h
  unfold significand encode
  split <;> (simp only [hiddenBit] at *; omega)

theorem scale_encode (h : IsCanonical s q) : scale (encode s q) = q := by
  obtain ⟨hq, hs, hleading⟩ := h
  unfold scale encode
  split <;> (simp only [hiddenBit] at *; omega)

end IsCanonical

/-- A factor with a bit too many is the least factor of the next power of two. -/
theorem encode_carry {q : Int} (hq : -1074 ≤ q) :
    encode (2 * hiddenBit) q = encode hiddenBit (q + 1) := by
  have hnext : (q + 1 + 1074).toNat = (q + 1074).toNat + 1 := by omega
  rw [encode, encode, hnext]
  ring

theorem lt_infinity_iff {m : Nat} : m < infinity ↔ scale m ≤ 971 := by
  unfold infinity scale
  split <;> (simp only [hiddenBit] at *; omega)

/-! ## Values and intervals -/

/-- The number that a finite magnitude stands for. -/
def value (m : Nat) : ℚ := significand m * 2 ^ scale m

/-- The middle to the neighbour below, which is half as far away below a power of two. -/
def low (m : Nat) : ℚ :=
  (significand m - if m % hiddenBit = 0 ∧ 2 * hiddenBit ≤ m then 1 / 4 else 1 / 2) * 2 ^ scale m

/-- The middle to the neighbour above. -/
def high (m : Nat) : ℚ := (significand m + 1 / 2) * 2 ^ scale m

/-- The number rounds to the value of the magnitude. -/
structure Rounds (x : ℚ) (m : Nat) : Prop where
  low_le : low m ≤ x
  le_high : x ≤ high m
  of_odd : significand m % 2 = 1 → low m < x ∧ x < high m

theorem value_zero : value 0 = 0 := by norm_num [value, significand, hiddenBit]

theorem value_encode {s : Nat} {q : Int} (h : IsCanonical s q) :
    value (encode s q) = s * 2 ^ q := by
  rw [value, h.significand_encode, h.scale_encode]

theorem Rounds.of_lt {x : ℚ} {m : Nat} (hlow : low m < x) (hhigh : x < high m) : Rounds x m :=
  ⟨hlow.le, hhigh.le, fun _ ↦ ⟨hlow, hhigh⟩⟩

theorem significand_add_one_le (m : Nat) : (significand m : ℚ) + 1 ≤ 2 * hiddenBit := by
  exact_mod_cast (isCanonical_parts m).lt

theorem half_unit_le_low (m : Nat) : ((significand m : ℚ) - 1 / 2) * 2 ^ scale m ≤ low m := by
  refine mul_le_mul_of_nonneg_right ?_ (by positivity)
  split <;> linarith

theorem high_lt {m : Nat} {q : Int} (hq : scale m ≤ q) : high m < 2 * hiddenBit * 2 ^ q := by
  have hs := significand_add_one_le m
  calc high m < 2 * hiddenBit * 2 ^ scale m :=
        mul_lt_mul_of_pos_right (by linarith) (by positivity)
    _ ≤ 2 * hiddenBit * 2 ^ q := by
        gcongr
        exact one_le_two

theorem low_lt_value (m : Nat) : low m < value m := by
  unfold low value
  apply mul_lt_mul_of_pos_right _ (by positivity)
  split <;> linarith

theorem value_lt_high (m : Nat) : value m < high m :=
  mul_lt_mul_of_pos_right (by linarith) (by positivity)

theorem rounds_value (m : Nat) : Rounds (value m) m :=
  .of_lt (low_lt_value m) (value_lt_high m)

/-! ## Rounding to naturals -/

section RoundDiv

variable {n d r : Nat}

theorem roundDiv_of_bounds (hd : 0 < d) (hlow : 2 * (d * r) ≤ 2 * n + d)
    (hhigh : 2 * n ≤ 2 * (d * r) + d)
    (hodd : r % 2 = 1 → 2 * (d * r) < 2 * n + d ∧ 2 * n < 2 * (d * r) + d) :
    roundDiv n d = r := by
  have hn := Nat.div_add_mod n d
  have hmod := Nat.mod_lt n hd
  have hle : r ≤ n / d + 1 := by
    have : d * r < d * (n / d + 2) := by
      rw [Nat.mul_add]
      omega
    have := Nat.lt_of_mul_lt_mul_left this
    omega
  have hge : n / d ≤ r := by
    have : d * (n / d) < d * (r + 1) := by
      rw [Nat.mul_add]
      omega
    have := Nat.lt_of_mul_lt_mul_left this
    omega
  unfold roundDiv
  rcases Nat.lt_or_ge r (n / d + 1) with hlt | hge'
  · obtain rfl : r = n / d := by omega
    split
    · rfl
    · split
      · omega
      · by_cases hr : n / d % 2 = 1
        · have := hodd hr
          omega
        · omega
  · obtain rfl : r = n / d + 1 := by omega
    rw [Nat.mul_add] at hlow hhigh hodd
    split
    · omega
    · split
      · rfl
      · by_cases hr : (n / d + 1) % 2 = 1
        · have := hodd hr
          omega
        · omega

/-- The nearest natural number to a quotient, an even one where there are two. -/
theorem roundDiv_eq (hd : 0 < d) (hlow : (r : ℚ) - 1 / 2 ≤ n / d) (hhigh : (n : ℚ) / d ≤ r + 1 / 2)
    (hodd : r % 2 = 1 → (r : ℚ) - 1 / 2 < n / d ∧ (n : ℚ) / d < r + 1 / 2) : roundDiv n d = r := by
  have hdpos : (0 : ℚ) < d := by exact_mod_cast hd
  apply roundDiv_of_bounds hd
  · rw [le_div_iff₀ hdpos] at hlow
    have : (2 * (d * r) : ℚ) ≤ 2 * n + d := by linarith
    exact_mod_cast this
  · rw [div_le_iff₀ hdpos] at hhigh
    have : (2 * n : ℚ) ≤ 2 * (d * r) + d := by linarith
    exact_mod_cast this
  · intro hr
    obtain ⟨h₁, h₂⟩ := hodd hr
    rw [lt_div_iff₀ hdpos] at h₁
    rw [div_lt_iff₀ hdpos] at h₂
    constructor
    · have : (2 * (d * r) : ℚ) < 2 * n + d := by linarith
      exact_mod_cast this
    · have : (2 * n : ℚ) < 2 * (d * r) + d := by linarith
      exact_mod_cast this

theorem roundDiv_le (hd : 0 < d) : (roundDiv n d : ℚ) ≤ n / d + 1 / 2 := by
  have hdpos : (0 : ℚ) < d := by exact_mod_cast hd
  have hn := Nat.div_add_mod n d
  have hmod := Nat.mod_lt n hd
  have hnat : 2 * (d * roundDiv n d) ≤ 2 * n + d := by
    unfold roundDiv
    split
    · omega
    · split
      · rw [Nat.mul_add]
        omega
      · rcases Nat.mod_two_eq_zero_or_one (n / d) with heven | hodd
        · rw [heven, Nat.add_zero]
          omega
        · rw [hodd, Nat.mul_add]
          omega
  have hcast : (2 * (d * roundDiv n d) : ℚ) ≤ 2 * n + d := by exact_mod_cast hnat
  have hgoal : (roundDiv n d : ℚ) - 1 / 2 ≤ n / d := by
    rw [le_div_iff₀ hdpos]
    linarith
  linarith

theorem roundDiv_eq_or (n d : Nat) : roundDiv n d = n / d ∨ roundDiv n d = n / d + 1 := by
  unfold roundDiv
  split
  · exact .inl rfl
  · split
    · exact .inr rfl
    · omega

theorem le_roundDiv {k : Nat} (hd : 0 < d) (h : (k : ℚ) ≤ n / d) : k ≤ roundDiv n d := by
  have hdpos : (0 : ℚ) < d := by exact_mod_cast hd
  rw [le_div_iff₀ hdpos] at h
  have hfloor : k ≤ n / d := (Nat.le_div_iff_mul_le hd).2 (by exact_mod_cast h)
  rcases roundDiv_eq_or n d with heq | heq <;> omega

end RoundDiv

/-! ## Logarithms -/

theorem le_shift_iff (n d : Nat) (hd : 0 < d) (k : Int) :
    d <<< k.toNat ≤ n <<< (-k).toNat ↔ (2 : ℚ) ^ k ≤ n / d := by
  have hdpos : (0 : ℚ) < d := by exact_mod_cast hd
  rw [zpow_eq_div, div_le_div_iff₀ (by positivity) hdpos, Nat.shiftLeft_eq,
    Nat.shiftLeft_eq, mul_comm d]
  exact_mod_cast Iff.rfl

/-- The greatest power of two that a quotient reaches. -/
theorem floorLog2_spec {n d : Nat} (hn : 0 < n) (hd : 0 < d) :
    (2 : ℚ) ^ floorLog2 n d ≤ n / d ∧ (n : ℚ) / d < 2 ^ (floorLog2 n d + 1) := by
  have hdpos : (0 : ℚ) < d := by exact_mod_cast hd
  have hnlow : (2 : ℚ) ^ (n.log2 : Int) ≤ n := by
    exact_mod_cast Nat.log2_self_le (Nat.ne_of_gt hn)
  have hnhigh : (n : ℚ) < 2 ^ ((n.log2 : Int) + 1) := by exact_mod_cast Nat.lt_log2_self
  have hdlow : (2 : ℚ) ^ (d.log2 : Int) ≤ d := by
    exact_mod_cast Nat.log2_self_le (Nat.ne_of_gt hd)
  have hdhigh : (d : ℚ) < 2 ^ ((d.log2 : Int) + 1) := by exact_mod_cast Nat.lt_log2_self
  unfold floorLog2
  dsimp only
  split
  · next h =>
    rw [le_shift_iff n d hd] at h
    refine ⟨h, ?_⟩
    rw [div_lt_iff₀ hdpos]
    calc (n : ℚ) < 2 ^ ((n.log2 : Int) + 1) := hnhigh
      _ = 2 ^ ((n.log2 : Int) - d.log2 + 1) * 2 ^ (d.log2 : Int) := by
          rw [← zpow_add₀ two_ne_zero]
          congr 1
          omega
      _ ≤ _ := by gcongr
  · next h =>
    rw [le_shift_iff n d hd, not_le] at h
    refine ⟨?_, by simpa using h⟩
    rw [le_div_iff₀ hdpos]
    calc (2 : ℚ) ^ ((n.log2 : Int) - d.log2 - 1) * d
        ≤ 2 ^ ((n.log2 : Int) - d.log2 - 1) * 2 ^ ((d.log2 : Int) + 1) := by gcongr
      _ = 2 ^ (n.log2 : Int) := by
          rw [← zpow_add₀ two_ne_zero]
          congr 1
          omega
      _ ≤ n := hnlow

/-! ## Rounding to magnitudes -/

section RoundQuotient

variable {n d : Nat}

theorem shift_div (n d : Nat) (q : Int) :
    ((n <<< (-q).toNat : Nat) : ℚ) / (d <<< q.toNat : Nat) = n / d / 2 ^ q := by
  rw [Nat.shiftLeft_eq, Nat.shiftLeft_eq, zpow_eq_div]
  push_cast
  rw [div_div_div_eq, mul_comm (d : ℚ), mul_comm (n : ℚ), mul_comm (2 ^ (-q).toNat : ℚ)]

theorem shift_pos {d : Nat} (hd : 0 < d) (k : Nat) : 0 < d <<< k := by
  rw [Nat.shiftLeft_eq]
  positivity

theorem shift_mul (n d : Nat) (q : Int) :
    ((n <<< q.toNat : Nat) : ℚ) / (d <<< (-q).toNat : Nat) = n / d * 2 ^ q := by
  have h := shift_div n d (-q)
  rwa [neg_neg, zpow_neg, div_inv_eq_mul] at h

/-- The power of two in which a quotient is rounded to a natural number. -/
def unit (n d : Nat) : Int := max (floorLog2 n d - 52) (-1074)

theorem unit_eq (hn : 0 < n) (hd : 0 < d) {q : Int} (hq : -1074 ≤ q)
    (hlow : (2 : ℚ) ^ (q + 52) ≤ n / d ∨ q = -1074) (hhigh : (n : ℚ) / d < 2 ^ (q + 53)) :
    unit n d = q := by
  obtain ⟨hfloor, hceil⟩ := floorLog2_spec hn hd
  have hbelow : floorLog2 n d < q + 53 :=
    (zpow_lt_zpow_iff_right₀ one_lt_two).1 (hfloor.trans_lt hhigh)
  unfold unit
  rcases hlow with hlow | rfl
  · have habove : q + 52 < floorLog2 n d + 1 :=
      (zpow_lt_zpow_iff_right₀ one_lt_two).1 (hlow.trans_lt hceil)
    omega
  · omega

/-- A quotient in its unit, rounded to a natural number. -/
def factor (n d : Nat) : Nat := roundDiv (n <<< (-unit n d).toNat) (d <<< (unit n d).toNat)

theorem roundQuotient_of_pos (hn : 0 < n) :
    roundQuotient n d = min infinity (encode (factor n d) (unit n d)) := by
  rw [roundQuotient, if_neg (Nat.ne_of_gt hn)]
  rfl

/-- Rounding in a unit, once that is known. -/
theorem roundQuotient_of_unit (hn : 0 < n) (hd : 0 < d) {q : Int} (hunit : unit n d = q) {r : Nat}
    (hlow : ((r : ℚ) - 1 / 2) * 2 ^ q ≤ n / d) (hhigh : (n : ℚ) / d ≤ (r + 1 / 2) * 2 ^ q)
    (hodd : r % 2 = 1 →
      ((r : ℚ) - 1 / 2) * 2 ^ q < n / d ∧ (n : ℚ) / d < (r + 1 / 2) * 2 ^ q) :
    roundQuotient n d = min infinity (encode r q) := by
  have hpow : (0 : ℚ) < 2 ^ q := by positivity
  have hround : roundDiv (n <<< (-q).toNat) (d <<< q.toNat) = r := by
    apply roundDiv_eq (shift_pos hd _)
    · rwa [shift_div, le_div_iff₀ hpow]
    · rwa [shift_div, div_le_iff₀ hpow]
    · rwa [shift_div, lt_div_iff₀ hpow, div_lt_iff₀ hpow]
  rw [roundQuotient_of_pos hn, factor, hunit, hround]

theorem significand_pos {m : Nat} (hm : 0 < m) : 0 < significand m := by
  unfold significand
  split
  · exact hm
  · simp only [hiddenBit]
    omega

theorem one_le_significand {m : Nat} (hm : 0 < m) : (1 : ℚ) ≤ significand m := by
  exact_mod_cast significand_pos hm

theorem low_pos {m : Nat} (hm : 0 < m) : 0 < low m := by
  have hs := one_le_significand hm
  unfold low
  apply mul_pos _ (by positivity)
  split <;> linarith

theorem hiddenBit_cast : (hiddenBit : ℚ) = 4503599627370496 := by norm_num [hiddenBit]

theorem zpow_add_52 (q : Int) : (2 : ℚ) ^ (q + 52) = hiddenBit * 2 ^ q := by
  rw [zpow_add₀ two_ne_zero, mul_comm, hiddenBit_cast]
  norm_num

theorem zpow_add_53 (q : Int) : (2 : ℚ) ^ (q + 53) = 2 * hiddenBit * 2 ^ q := by
  rw [zpow_add₀ two_ne_zero, mul_comm, hiddenBit_cast]
  norm_num

/-- Just below a power of two the unit is half as large, and rounding carries into the power. -/
theorem roundQuotient_carry (hn : 0 < n) (hd : 0 < d) {q : Int} (hq : -1074 < q)
    (hlow : ((hiddenBit : ℚ) - 1 / 4) * 2 ^ q ≤ n / d) (hhigh : (n : ℚ) / d < hiddenBit * 2 ^ q) :
    roundQuotient n d = min infinity (encode hiddenBit q) := by
  have hpow : (0 : ℚ) < 2 ^ (q - 1) := by positivity
  have htwice : (2 : ℚ) ^ q = 2 * 2 ^ (q - 1) := by
    rw [zpow_sub_one₀ two_ne_zero]
    ring
  rw [htwice] at hlow hhigh
  have hunit : unit n d = q - 1 := by
    apply unit_eq hn hd (by omega)
    · left
      rw [zpow_add_52]
      have : (1 : ℚ) / 2 * 2 ^ (q - 1) ≤ hiddenBit * 2 ^ (q - 1) :=
        mul_le_mul_of_nonneg_right (by norm_num [hiddenBit]) hpow.le
      linarith
    · rw [zpow_add_53]
      linarith
  have hcarry := encode_carry (q := q - 1) (by omega)
  rw [sub_add_cancel] at hcarry
  rw [← hcarry]
  apply roundQuotient_of_unit hn hd hunit
  · push_cast
    linarith
  · push_cast
    linarith
  · intro hodd
    simp [Nat.mul_mod_right] at hodd

/-- A quotient in the interval of a finite magnitude is rounded to it. -/
theorem roundQuotient_eq (hd : 0 < d) {m : Nat} (hm : 0 < m) (hfinite : m < infinity)
    (hx : Rounds ((n : ℚ) / d) m) : roundQuotient n d = m := by
  obtain ⟨hlow, hhigh, hodd⟩ := hx
  obtain ⟨hleast, -, hleading⟩ := isCanonical_parts m
  have hpow : (0 : ℚ) < 2 ^ scale m := by positivity
  have hdpos : (0 : ℚ) < d := by exact_mod_cast hd
  have hn : 0 < n := by
    have hpos := (low_pos hm).trans_le hlow
    rw [lt_div_iff₀ hdpos, zero_mul] at hpos
    exact_mod_cast hpos
  have hhalf := half_unit_le_low m
  have hbelow : (n : ℚ) / d < 2 ^ (scale m + 53) := by
    rw [zpow_add_53]
    exact hhigh.trans_lt (high_lt (le_refl _))
  have hmin : min infinity (encode (significand m) (scale m)) = m := by
    rw [encode_parts]
    exact Nat.min_eq_right hfinite.le
  by_cases hunit : (2 : ℚ) ^ (scale m + 52) ≤ n / d ∨ scale m = -1074
  · rw [roundQuotient_of_unit hn hd (unit_eq hn hd hleast hunit hbelow) (hhalf.trans hlow) hhigh
      fun h ↦ ⟨hhalf.trans_lt (hodd h).1, (hodd h).2⟩, hmin]
  · obtain ⟨hsmall, hnot⟩ := not_or.1 hunit
    rw [not_le, zpow_add_52] at hsmall
    have hfull : significand m = hiddenBit := by
      have hle : (significand m : ℚ) - 1 / 2 < hiddenBit :=
        lt_of_mul_lt_mul_right ((hhalf.trans hlow).trans_lt hsmall) hpow.le
      have hnat : significand m < hiddenBit + 1 := by
        have : (significand m : ℚ) < hiddenBit + 1 := by linarith
        exact_mod_cast this
      have := hleading.resolve_right hnot
      omega
    have hboundary : m % hiddenBit = 0 ∧ 2 * hiddenBit ≤ m := by
      have hencode := encode_parts m
      rw [hfull] at hencode
      simp only [encode, hiddenBit] at hencode ⊢
      omega
    rw [low, if_pos hboundary, hfull] at hlow
    rw [roundQuotient_carry hn hd (by omega) hlow hsmall, ← hfull, hmin]

end RoundQuotient

/-! ## Bounds of rounding -/

section Bounds

variable {n d : Nat}

theorem unit_spec (hn : 0 < n) (hd : 0 < d) :
    -1074 ≤ unit n d ∧ (n : ℚ) / d < 2 ^ (unit n d + 53) ∧
      ((2 : ℚ) ^ (unit n d + 52) ≤ n / d ∨ unit n d = -1074) := by
  obtain ⟨hfloor, hceil⟩ := floorLog2_spec hn hd
  have hle : floorLog2 n d + 1 ≤ unit n d + 53 := by
    unfold unit
    omega
  refine ⟨le_max_right _ _, hceil.trans_le (zpow_le_zpow_right₀ one_le_two hle), ?_⟩
  rcases le_total (-1074) (floorLog2 n d - 52) with h | h
  · left
    rwa [unit, max_eq_left h, sub_add_cancel]
  · exact .inr (max_eq_right h)

/-- Rounding up adds half a unit at most. -/
theorem factor_mul_le (hd : 0 < d) :
    (factor n d : ℚ) * 2 ^ unit n d ≤ n / d + 2 ^ unit n d / 2 := by
  have hpow : (0 : ℚ) < 2 ^ unit n d := by positivity
  have hround := roundDiv_le (n := n <<< (-unit n d).toNat) (shift_pos hd (unit n d).toNat)
  rw [shift_div, ← sub_le_iff_le_add, le_div_iff₀ hpow] at hround
  unfold factor
  linarith

theorem factor_le (hn : 0 < n) (hd : 0 < d) : factor n d ≤ 2 * hiddenBit := by
  have hpow : (0 : ℚ) < 2 ^ unit n d := by positivity
  have habove := (unit_spec hn hd).2.1
  have hround := factor_mul_le (n := n) hd
  rw [zpow_add_53] at habove
  have hlt : (factor n d : ℚ) < 2 * hiddenBit + 1 := by
    refine lt_of_mul_lt_mul_right ?_ hpow.le
    linarith
  have hnat : factor n d < 2 * hiddenBit + 1 := by exact_mod_cast hlt
  omega

theorem le_factor (hd : 0 < d) (h : (2 : ℚ) ^ (unit n d + 52) ≤ n / d) :
    hiddenBit ≤ factor n d := by
  apply le_roundDiv (shift_pos hd _)
  rwa [shift_div, le_div_iff₀ (by positivity), ← zpow_add_52]

/-- The middle between the greatest finite value and the power of two behind it. -/
theorem high_greatest : high (infinity - 1) = (2 * hiddenBit - 1 / 2) * 2 ^ (971 : Int) := by
  have hs : significand (infinity - 1) = 2 * hiddenBit - 1 := by decide
  have hq : scale (infinity - 1) = 971 := by decide
  rw [high, hs, hq, hiddenBit_cast]
  norm_num [hiddenBit]

theorem unit_le (hn : 0 < n) (hd : 0 < d) (h : (n : ℚ) / d < high (infinity - 1)) :
    unit n d ≤ 971 := by
  rcases (unit_spec hn hd).2.2 with hreach | hleast
  · have hlt : (2 : ℚ) ^ (unit n d + 52) < 2 ^ ((971 : Int) + 53) := by
      rw [high_greatest] at h
      rw [zpow_add_53 971]
      exact (hreach.trans_lt h).trans (mul_lt_mul_of_pos_right (by linarith) (by positivity))
    have := (zpow_lt_zpow_iff_right₀ one_lt_two).1 hlt
    omega
  · omega

/-- A quotient below the upper ends of all intervals is rounded to a finite magnitude. -/
theorem roundQuotient_lt_infinity (hd : 0 < d) (h : (n : ℚ) / d < high (infinity - 1)) :
    roundQuotient n d < infinity := by
  rcases Nat.eq_zero_or_pos n with rfl | hn
  · rw [roundQuotient, if_pos rfl]
    decide
  · have hround := factor_mul_le (n := n) hd
    have hcarry := factor_le hn hd
    have hgreatest := unit_le hn hd h
    rw [roundQuotient_of_pos hn]
    refine min_lt_of_right_lt ?_
    unfold encode infinity
    rcases Int.lt_or_eq_of_le hgreatest with hlt | heq
    · simp only [hiddenBit] at hcarry ⊢
      omega
    · rw [high_greatest] at h
      rw [heq] at hround ⊢
      have hlt : (factor n d : ℚ) < 2 * hiddenBit := by
        refine lt_of_mul_lt_mul_right ?_ (show (0 : ℚ) ≤ 2 ^ (971 : Int) by positivity)
        linarith
      have hnat : factor n d < 2 * hiddenBit := by exact_mod_cast hlt
      simp only [hiddenBit] at hnat ⊢
      omega

/-- The value of a factor that may have been carried into the next power of two. -/
theorem value_encode_carry {r : Nat} {q : Int} (hq : -1074 ≤ q) (hr : hiddenBit ≤ r)
    (hr' : r ≤ 2 * hiddenBit) : value (encode r q) = r * 2 ^ q := by
  rcases Nat.lt_or_eq_of_le hr' with hlt | rfl
  · exact value_encode ⟨hq, hlt, .inl hr⟩
  · rw [encode_carry hq, value_encode ⟨by omega, by decide, .inl (le_refl _)⟩,
      zpow_add_one₀ two_ne_zero]
    push_cast
    ring

/-- Rounding adds at most one part in `2 ^ 53` to a quotient in the normal range. -/
theorem value_roundQuotient_le (hd : 0 < d) (hlow : (2 : ℚ) ^ (-1022 : Int) ≤ n / d)
    (hhigh : (n : ℚ) / d < high (infinity - 1)) :
    value (roundQuotient n d) ≤ n / d * (1 + 1 / (2 * hiddenBit)) := by
  have hdpos : (0 : ℚ) < d := by exact_mod_cast hd
  have hn : 0 < n := by
    have hpos : (0 : ℚ) < n / d := lt_of_lt_of_le (by positivity) hlow
    rw [lt_div_iff₀ hdpos, zero_mul] at hpos
    exact_mod_cast hpos
  obtain ⟨hleast, -, hreach⟩ := unit_spec hn hd
  have hreach' : (2 : ℚ) ^ (unit n d + 52) ≤ n / d := by
    rcases hreach with h | h
    · exact h
    · rwa [h]
  have hfinite := roundQuotient_lt_infinity hd hhigh
  rw [roundQuotient_of_pos hn] at hfinite ⊢
  have hencode := (min_lt_iff.1 hfinite).resolve_left (lt_irrefl _)
  rw [min_eq_right hencode.le,
    value_encode_carry hleast (le_factor hd hreach') (factor_le hn hd)]
  have hbit : (0 : ℚ) < hiddenBit := by norm_num [hiddenBit]
  rw [zpow_add_52, ← le_div_iff₀' hbit] at hreach'
  calc (factor n d : ℚ) * 2 ^ unit n d ≤ n / d + 2 ^ unit n d / 2 := factor_mul_le hd
    _ ≤ n / d + n / d / hiddenBit / 2 := by gcongr
    _ = n / d * (1 + 1 / (2 * hiddenBit)) := by
        field_simp

end Bounds

end Binary64
end HourlyUsage
