import HourlyUsage.Text.Digits
import Mathlib.Data.List.Induction
import Mathlib.Tactic.Ring

/-!
# Runs of digits

Digits that are written can be told from what follows them, and the number can be
read off them again, whether it was written with as many digits as it needs or
with a fixed width.
-/

namespace HourlyUsage
namespace Text

/-! ## Digits as characters -/

/-- The character is a decimal digit. -/
def IsDigitChar (c : Char) : Prop := ∃ d < 10, c = digit d

theorem digitValue_digit {d : Nat} (hd : d < 10) : digitValue (digit d) = d := by
  have h : ∀ d < 10, digitValue (digit d) = d := by decide
  exact h d hd

namespace IsDigitChar

theorem of_mem_fixed {width n : Nat} {c : Char} (h : c ∈ fixed width n) : IsDigitChar c := by
  induction width generalizing n with
  | zero => cases h
  | succ width ih =>
      rcases List.mem_append.1 h with h | h
      · exact ih h
      · exact ⟨n % 10, Nat.mod_lt n (by decide), List.mem_singleton.1 h⟩

theorem of_mem_decimal {n : Nat} {c : Char} (h : c ∈ decimal n) : IsDigitChar c := by
  induction n using decimal.induct with
  | case1 n hn =>
      rw [decimal, if_pos hn] at h
      exact ⟨n, hn, List.mem_singleton.1 h⟩
  | case2 n hn ih =>
      rw [decimal, if_neg hn] at h
      rcases List.mem_append.1 h with h | h
      · exact ih h
      · exact ⟨n % 10, Nat.mod_lt n (by decide), List.mem_singleton.1 h⟩

theorem zero : IsDigitChar '0' := ⟨0, by decide, rfl⟩

theorem of_isDigit {c : Char} (h : c.isDigit = true) : IsDigitChar c := by
  have hbounds : 48 ≤ c.toNat ∧ c.toNat ≤ 57 := by
    simpa [Char.isDigit, UInt32.le_iff_toNat_le] using h
  have hnat : 48 + (c.toNat - 48) = c.toNat := by omega
  exact ⟨c.toNat - 48, by omega, by rw [digit, hnat, Char.ofNat_toNat]⟩

theorem isDigit {c : Char} (h : IsDigitChar c) : c.isDigit = true := by
  obtain ⟨d, hd, rfl⟩ := h
  have hall : ∀ d < 10, (digit d).isDigit = true := by decide
  exact hall d hd

theorem digitValue_lt {c : Char} (h : IsDigitChar c) : digitValue c < 10 := by
  obtain ⟨d, hd, rfl⟩ := h
  rwa [digitValue_digit hd]

end IsDigitChar

theorem decimal_ne_nil (n : Nat) : decimal n ≠ [] := by
  rw [decimal]
  split <;> simp

/-! ## The value of a run -/

theorem digitsValue_append (cs ds : List Char) :
    digitsValue (cs ++ ds) = digitsValue cs * 10 ^ ds.length + digitsValue ds := by
  induction ds using List.reverseRecOn with
  | nil => simp [digitsValue]
  | append_singleton ds c ih =>
      have hlast : ∀ run : List Char,
          digitsValue (run ++ [c]) = 10 * digitsValue run + digitValue c := by
        simp [digitsValue]
      rw [← List.append_assoc, hlast, hlast, ih, List.length_append, List.length_singleton]
      ring

theorem digitsValue_singleton (c : Char) : digitsValue [c] = digitValue c := by
  simp [digitsValue]

theorem digitsValue_cons (c : Char) (ds : List Char) :
    digitsValue (c :: ds) = digitValue c * 10 ^ ds.length + digitsValue ds := by
  rw [← List.singleton_append, digitsValue_append, digitsValue_singleton]

/-- The first of several digits is appended to a number, and the others behind it. -/
theorem append_digit (n : Nat) (c : Char) (ds : List Char) :
    n * 10 ^ (c :: ds).length + digitsValue (c :: ds) =
      (10 * n + digitValue c) * 10 ^ ds.length + digitsValue ds := by
  rw [digitsValue_cons, List.length_cons]
  ring

theorem lt_of_append_lt {n value limit k : Nat} (h : n * 10 ^ k + value < limit) : n < limit := by
  have hle := Nat.le_mul_of_pos_right n (Nat.pow_pos (n := k) (show 0 < 10 by decide))
  omega

theorem digitsValue_replicate (k : Nat) : digitsValue (List.replicate k '0') = 0 := by
  induction k with
  | zero => rfl
  | succ k ih => exact ih

theorem digitsValue_replicate_append (k : Nat) (cs : List Char) :
    digitsValue (List.replicate k '0' ++ cs) = digitsValue cs := by
  rw [digitsValue_append, digitsValue_replicate, Nat.zero_mul, Nat.zero_add]

theorem digitsValue_lt {ds : List Char} (h : ∀ c ∈ ds, IsDigitChar c) :
    digitsValue ds < 10 ^ ds.length := by
  induction ds using List.reverseRecOn with
  | nil => decide
  | append_singleton ds c ih =>
      obtain ⟨hds, hc⟩ := List.forall_mem_append.1 h
      have hlast := (hc c (List.mem_singleton_self c)).digitValue_lt
      have hfirst := ih hds
      rw [digitsValue_append, digitsValue_singleton, List.length_append, List.length_singleton]
      omega

/-- A number can be read off its digits. -/
theorem digitsValue_decimal (n : Nat) : digitsValue (decimal n) = n := by
  induction n using decimal.induct with
  | case1 n hn => rw [decimal, if_pos hn, digitsValue_singleton, digitValue_digit hn]
  | case2 n hn ih =>
      rw [decimal, if_neg hn, digitsValue_append, ih, digitsValue_singleton,
        digitValue_digit (Nat.mod_lt n (by decide)), List.length_singleton]
      omega

theorem digitsValue_fixed {width n : Nat} (h : n < 10 ^ width) :
    digitsValue (fixed width n) = n := by
  induction width generalizing n with
  | zero =>
      obtain rfl : n = 0 := by omega
      rfl
  | succ width ih =>
      rw [Nat.pow_succ] at h
      rw [fixed, digitsValue_append, ih (Nat.div_lt_of_lt_mul (by omega)), digitsValue_singleton,
        digitValue_digit (Nat.mod_lt n (by decide)), List.length_singleton]
      omega

/-! ## The number of digits -/

theorem lt_pow_length_decimal (n : Nat) : n < 10 ^ (decimal n).length := by
  have h := digitsValue_lt fun c hc ↦ IsDigitChar.of_mem_decimal (n := n) hc
  rwa [digitsValue_decimal] at h

theorem pow_length_decimal_le {n : Nat} (h : n ≠ 0) : 10 ^ ((decimal n).length - 1) ≤ n := by
  induction n using decimal.induct with
  | case1 n hn =>
      rw [decimal, if_pos hn]
      exact Nat.one_le_iff_ne_zero.2 h
  | case2 n hn ih =>
      have hlength : (decimal (n / 10)).length ≠ 0 := by simp [decimal_ne_nil]
      have htenth := ih (by omega)
      rw [decimal, if_neg hn, List.length_append, List.length_singleton, Nat.add_sub_cancel]
      obtain ⟨k, hk⟩ := Nat.exists_eq_succ_of_ne_zero hlength
      rw [hk, Nat.succ_sub_one] at htenth
      rw [hk, Nat.pow_succ]
      omega

/-- A number is written with at least as many digits as a smaller one. -/
theorem length_decimal_mono {m n : Nat} (h : m ≤ n) : (decimal m).length ≤ (decimal n).length := by
  rcases Nat.eq_zero_or_pos m with rfl | hm
  · rw [decimal, if_pos (by decide)]
    exact List.length_pos_iff.2 (decimal_ne_nil n)
  · have hpow : 10 ^ ((decimal m).length - 1) < 10 ^ (decimal n).length :=
      Nat.lt_of_le_of_lt (pow_length_decimal_le (Nat.ne_of_gt hm))
        (Nat.lt_of_le_of_lt h (lt_pow_length_decimal n))
    have hlt := (Nat.pow_lt_pow_iff_right (by decide : 1 < 10)).1 hpow
    omega

/-! ## Where a run ends -/

/-- Nothing follows, or something else than a digit does. -/
def EndsDigits (rest : List Char) : Prop := ∀ c ∈ rest.head?, c.isDigit = false

theorem endsDigits_cons {c : Char} (h : c.isDigit = false) (rest : List Char) :
    EndsDigits (c :: rest) := by
  rintro _ ⟨⟩
  exact h

theorem takeWhile_digits {ds rest : List Char} (hds : ∀ c ∈ ds, IsDigitChar c)
    (hrest : EndsDigits rest) : (ds ++ rest).takeWhile Char.isDigit = ds := by
  have hend : rest.takeWhile Char.isDigit = [] := by
    cases rest with
    | nil => rfl
    | cons c rest => rw [List.takeWhile_cons_of_neg (by simp [hrest c rfl])]
  rw [List.takeWhile_append_of_pos fun c hc ↦ (hds c hc).isDigit, hend, List.append_nil]

theorem dropWhile_digits {ds rest : List Char} (hds : ∀ c ∈ ds, IsDigitChar c)
    (hrest : EndsDigits rest) : (ds ++ rest).dropWhile Char.isDigit = rest := by
  have hend : rest.dropWhile Char.isDigit = rest := by
    cases rest with
    | nil => rfl
    | cons c rest => rw [List.dropWhile_cons_of_neg (by simp [hrest c rfl])]
  rw [List.dropWhile_append_of_pos fun c hc ↦ (hds c hc).isDigit, hend]

end Text
end HourlyUsage
