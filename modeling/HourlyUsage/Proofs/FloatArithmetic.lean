import HourlyUsage.Json.Numeral
import HourlyUsage.Proofs.Rounding

/-!
# Products, quotients and powers of ten

Products and quotients are the rounded exact ones.  Naturals of at most 53 bits and the
powers of ten up to the twenty-second are values themselves, so that scaling one by the
other rounds only once.
-/

namespace HourlyUsage
namespace Binary64

/-! ## Exact results -/

theorem roundQuotient_le (n d : Nat) : roundQuotient n d ≤ infinity := by
  unfold roundQuotient
  split
  · exact Nat.zero_le _
  · exact Nat.min_le_left _ _

section Magnitudes

variable {m : Nat}

theorem toNat_ofMagnitude (negative : Bool) (h : m ≤ infinity) :
    (ofMagnitude negative m).bits.toNat = m + if negative then signBit else 0 := by
  have hm : m < 9223372036854775808 := by
    simp only [infinity, hiddenBit] at h
    omega
  unfold ofMagnitude
  rw [UInt64.toNat_ofNat']
  apply Nat.mod_eq_of_lt
  split
  · simp only [signBit]
    omega
  · omega

@[simp] theorem magnitude_ofMagnitude (negative : Bool) (h : m ≤ infinity) :
    (ofMagnitude negative m).magnitude = m := by
  rw [magnitude, toNat_ofMagnitude negative h]
  simp only [infinity, hiddenBit, signBit] at h ⊢
  cases negative <;> (simp; omega)

@[simp] theorem isNegative_ofMagnitude (negative : Bool) (h : m ≤ infinity) :
    (ofMagnitude negative m).isNegative = negative := by
  rw [isNegative, toNat_ofMagnitude negative h]
  simp only [infinity, hiddenBit, signBit] at h ⊢
  cases negative
  · simp
    omega
  · simp

theorem isInfinite_ofMagnitude (negative : Bool) (h : m < infinity) :
    (ofMagnitude negative m).isInfinite = false := by
  rw [isInfinite, magnitude_ofMagnitude _ h.le]
  exact decide_eq_false h.ne

theorem ofMagnitude_self (x : Binary64) : ofMagnitude x.isNegative x.magnitude = x := by
  have hbits := x.bits.toNat_lt
  have hsum : x.magnitude + (if x.isNegative then signBit else 0) = x.bits.toNat := by
    by_cases h : signBit ≤ x.bits.toNat
    all_goals
      simp only [magnitude, isNegative, h, decide_true, decide_false, Bool.false_eq_true, if_true,
        if_false]
      simp only [signBit] at h ⊢
      omega
  unfold ofMagnitude
  rw [hsum, UInt64.ofNat_toNat]

theorem magnitude_ofNat (n : Nat) : (ofNat n).magnitude = roundQuotient n 1 :=
  magnitude_ofMagnitude false (roundQuotient_le n 1)

theorem isNegative_ofNat (n : Nat) : (ofNat n).isNegative = false :=
  isNegative_ofMagnitude false (roundQuotient_le n 1)

end Magnitudes

/-- A number of at most 53 bits times a power of two is a value. -/
theorem exists_value_eq {a j : Nat} (ha : 0 < a) (ha' : a < 2 * hiddenBit) (hj : j ≤ 971) :
    ∃ m, 0 < m ∧ m < infinity ∧ value m = a * 2 ^ j := by
  have hlow := Nat.log2_self_le (Nat.ne_of_gt ha)
  have hhigh := Nat.lt_log2_self (n := a)
  have hbits : a.log2 ≤ 52 := by
    have : 2 ^ a.log2 < 2 ^ 53 := hlow.trans_lt ha'
    have := (Nat.pow_lt_pow_iff_right (by decide)).1 this
    omega
  have hs : hiddenBit ≤ a * 2 ^ (52 - a.log2) := by
    calc hiddenBit = 2 ^ a.log2 * 2 ^ (52 - a.log2) := by
          rw [← Nat.pow_add, Nat.add_sub_cancel' hbits]
          rfl
      _ ≤ a * 2 ^ (52 - a.log2) := Nat.mul_le_mul_right _ hlow
  have hs' : a * 2 ^ (52 - a.log2) < 2 * hiddenBit := by
    calc a * 2 ^ (52 - a.log2) < 2 ^ (a.log2 + 1) * 2 ^ (52 - a.log2) :=
          Nat.mul_lt_mul_of_pos_right hhigh (by positivity)
      _ = 2 * hiddenBit := by
          rw [← Nat.pow_add, show a.log2 + 1 + (52 - a.log2) = 53 by omega]
          rfl
  have hcanonical : IsCanonical (a * 2 ^ (52 - a.log2)) ((j : Int) - (52 - a.log2 : Nat)) :=
    ⟨by omega, hs', .inl hs⟩
  refine ⟨encode (a * 2 ^ (52 - a.log2)) ((j : Int) - (52 - a.log2 : Nat)), ?_,
    lt_infinity_iff.2 ?_, ?_⟩
  · have : 0 < hiddenBit := by decide
    unfold encode
    omega
  · rw [hcanonical.scale_encode]
    omega
  · rw [value_encode hcanonical, zpow_sub₀ two_ne_zero]
    push_cast
    rw [zpow_natCast, zpow_natCast]
    field_simp

theorem value_ofNat {a j : Nat} (ha : 0 < a) (ha' : a < 2 * hiddenBit) (hj : j ≤ 971) :
    value (ofNat (a * 2 ^ j)).magnitude = (a * 2 ^ j : Nat) := by
  obtain ⟨m, hm, hfinite, hvalue⟩ := exists_value_eq ha ha' hj
  have hx : Rounds (((a * 2 ^ j : Nat) : ℚ) / (1 : Nat)) m := by
    have h := rounds_value m
    rw [hvalue] at h
    simpa using h
  rw [magnitude_ofNat, roundQuotient_eq Nat.one_pos hm hfinite hx, hvalue]
  push_cast
  rfl

/-- Powers of ten are values up to the twenty-second. -/
theorem value_powerOfTen {k : Nat} (hk : k ≤ 22) : value (powerOfTen k).magnitude = 10 ^ k := by
  have hfive : 5 ^ k < 2 * hiddenBit := by
    calc 5 ^ k ≤ 5 ^ 22 := Nat.pow_le_pow_right (by decide) hk
      _ < 2 * hiddenBit := by decide
  have hten : Nat.pow 10 k = 5 ^ k * 2 ^ k := by
    rw [← Nat.mul_pow]
    rfl
  rw [powerOfTen, hten, value_ofNat (by positivity) hfive (by omega), ← Nat.mul_pow]
  norm_num

/-- Rounding adds at most one part in `2 ^ 53` to a natural number. -/
theorem value_ofNat_le {n : Nat} (hn : 0 < n) (h : (n : ℚ) < high (infinity - 1)) :
    value (ofNat n).magnitude ≤ n * (1 + 1 / (2 * hiddenBit)) := by
  have hone : (n : ℚ) / (1 : Nat) = n := by rw [Nat.cast_one, div_one]
  have hle : (2 : ℚ) ^ (-1022 : Int) ≤ n := by
    calc (2 : ℚ) ^ (-1022 : Int) ≤ 1 := zpow_le_one_of_nonpos₀ one_le_two (by decide)
      _ ≤ n := by exact_mod_cast hn
  rw [magnitude_ofNat]
  have hround := value_roundQuotient_le (n := n) Nat.one_pos (by rwa [hone]) (by rwa [hone])
  rwa [hone] at hround

/-! ## Products and quotients -/

section Arithmetic

variable {x y : Binary64} {m : Nat}

/-- A product is the exact one, rounded. -/
theorem mul_spec (x y : Binary64) : ∃ n d : Nat, 0 < d ∧
    (n : ℚ) / d = value x.magnitude * value y.magnitude ∧
      x.mul y = ofMagnitude (x.isNegative != y.isNegative) (roundQuotient n d) := by
  refine ⟨_, _, shift_pos Nat.one_pos _, ?_, rfl⟩
  rw [shift_mul, value, value, zpow_add₀ two_ne_zero]
  push_cast
  ring

/-- A quotient is the exact one, rounded. -/
theorem div_spec (x : Binary64) (hy : 0 < y.magnitude) : ∃ n d : Nat, 0 < d ∧
    (n : ℚ) / d = value x.magnitude / value y.magnitude ∧
      x.div y = ofMagnitude (x.isNegative != y.isNegative) (roundQuotient n d) := by
  refine ⟨_, _, shift_pos (significand_pos hy) _, ?_, rfl⟩
  rw [shift_mul, value, value, zpow_sub₀ two_ne_zero, div_mul_div_comm]

theorem mul_eq (hm : 0 < m) (hfinite : m < infinity)
    (h : Rounds (value x.magnitude * value y.magnitude) m) :
    x.mul y = ofMagnitude (x.isNegative != y.isNegative) m := by
  obtain ⟨n, d, hd, hquotient, hmul⟩ := mul_spec x y
  rw [← hquotient] at h
  rw [hmul, roundQuotient_eq hd hm hfinite h]

theorem div_eq (hm : 0 < m) (hfinite : m < infinity) (hy : 0 < y.magnitude)
    (h : Rounds (value x.magnitude / value y.magnitude) m) :
    x.div y = ofMagnitude (x.isNegative != y.isNegative) m := by
  obtain ⟨n, d, hd, hquotient, hdiv⟩ := div_spec x hy
  rw [← hquotient] at h
  rw [hdiv, roundQuotient_eq hd hm hfinite h]

theorem isInfinite_mul (h : value x.magnitude * value y.magnitude < high (infinity - 1)) :
    (x.mul y).isInfinite = false := by
  obtain ⟨n, d, hd, hquotient, hmul⟩ := mul_spec x y
  rw [← hquotient] at h
  have hfinite := roundQuotient_lt_infinity hd h
  rw [hmul, isInfinite_ofMagnitude _ hfinite]

end Arithmetic

end Binary64

/-! ## Powers of ten -/

namespace Json
namespace Numeral

open Binary64

theorem isNegative_powerOfTen (k : Nat) : (powerOfTen k).isNegative = false := isNegative_ofNat _

theorem magnitude_powerOfTen_pos {k : Nat} (hk : k ≤ 22) : 0 < (powerOfTen k).magnitude := by
  rw [Nat.pos_iff_ne_zero]
  intro hzero
  have hvalue := value_powerOfTen hk
  rw [hzero, value_zero] at hvalue
  exact (pow_ne_zero k (by norm_num : (10 : ℚ) ≠ 0)) hvalue.symm

/-- A value is scaled by a small power of ten with one rounding. -/
theorem scaleByTen?_eq_some {s : Nat} {e : Int} {m : Nat}
    (hs : value (ofNat s).magnitude = s) (he : e.natAbs ≤ 22) (hm : 0 < m)
    (hfinite : m < infinity) (h : Rounds (s * 10 ^ e) m) :
    scaleByTen? (ofNat s) e = some (ofMagnitude false m) := by
  have hpower := value_powerOfTen he
  rw [scaleByTen?, if_pos (by omega)]
  by_cases hnonneg : 0 ≤ e
  · have hcast : (10 : ℚ) ^ e = 10 ^ e.natAbs := by
      obtain ⟨k, rfl⟩ := Int.eq_ofNat_of_zero_le hnonneg
      rw [zpow_natCast, Int.natAbs_natCast]
    have hmul := mul_eq (x := ofNat s) (y := powerOfTen e.natAbs) hm hfinite
      (by rwa [hs, hpower, ← hcast])
    rw [isNegative_ofNat, isNegative_powerOfTen, bne_self_eq_false] at hmul
    rw [if_pos hnonneg]
    simp only [hmul, isInfinite_ofMagnitude false hfinite, Bool.false_eq_true, if_false]
  · have hcast : (10 : ℚ) ^ e = (10 ^ e.natAbs)⁻¹ := by
      obtain ⟨k, hk⟩ := Int.eq_ofNat_of_zero_le (show 0 ≤ -e by omega)
      obtain rfl : e = -(k : Int) := by omega
      rw [zpow_neg, zpow_natCast, Int.natAbs_neg, Int.natAbs_natCast]
    have hdiv := div_eq (x := ofNat s) (y := powerOfTen e.natAbs) hm hfinite
      (magnitude_powerOfTen_pos he) (by rwa [hs, hpower, div_eq_mul_inv, ← hcast])
    rw [isNegative_ofNat, isNegative_powerOfTen] at hdiv
    rw [if_neg hnonneg, hdiv]
    rfl

/-- Dividing by powers of ten always comes to a value. -/
theorem isSome_scaleByTen?_of_neg (x : Binary64) {e : Int} (he : e < 0) :
    (scaleByTen? x e).isSome = true := by
  fun_induction scaleByTen? x e with
  | case1 x e hsmall hnonneg y hinfinite => omega
  | case2 x e hsmall hnonneg y hinfinite => omega
  | case3 => rfl
  | case4 => rfl
  | case5 x e hlarge hzero hnonneg => omega
  | case6 x e hlarge hzero hneg ih => exact ih (by omega)

/-- Three roundings up stay in the finite range, if the exact product is far enough below it. -/
theorem isSome_scaleByTen?_of_lt {s : Nat} {e : Int} (hs : 0 < s) (he : 0 ≤ e) (he' : e ≤ 308)
    (h : (s : ℚ) * 10 ^ e * (1 + 1 / (2 * hiddenBit)) ^ 2 < high (infinity - 1)) :
    (scaleByTen? (ofNat s) e).isSome = true := by
  obtain ⟨k, rfl⟩ := Int.eq_ofNat_of_zero_le he
  rw [zpow_natCast] at h
  have hspos : (1 : ℚ) ≤ s := by exact_mod_cast hs
  have hten : (1 : ℚ) ≤ 10 ^ k := one_le_pow₀ (by norm_num)
  have hfactor : (1 : ℚ) ≤ (1 + 1 / (2 * hiddenBit)) ^ 2 := by norm_num [hiddenBit]
  have hprod : (s : ℚ) * 10 ^ k < high (infinity - 1) := by
    refine lt_of_le_of_lt ?_ h
    exact le_mul_of_one_le_right (by positivity) hfactor
  have hsvalue := value_ofNat_le hs
    ((le_mul_of_one_le_right (by positivity) hten).trans_lt hprod)
  have hpvalue : value (powerOfTen k).magnitude ≤ 10 ^ k * (1 + 1 / (2 * hiddenBit)) := by
    have hle := value_ofNat_le (n := 10 ^ k) (by positivity)
      (by push_cast; exact (le_mul_of_one_le_left (by positivity) hspos).trans_lt hprod)
    push_cast at hle
    exact hle
  have hinfinite : ((ofNat s).mul (powerOfTen k)).isInfinite = false := by
    apply isInfinite_mul
    calc value (ofNat s).magnitude * value (powerOfTen k).magnitude
        ≤ (s * (1 + 1 / (2 * hiddenBit))) * (10 ^ k * (1 + 1 / (2 * hiddenBit))) := by
          gcongr
          unfold value
          positivity
      _ = s * 10 ^ k * (1 + 1 / (2 * hiddenBit)) ^ 2 := by ring
      _ < high (infinity - 1) := h
  rw [scaleByTen?, if_pos (by omega), if_pos he, Int.natAbs_natCast]
  simp [hinfinite]

end Numeral
end Json
end HourlyUsage
