import HourlyUsage.Text.Digits
import HourlyUsage.Text.Utf8
import Mathlib.Algebra.Group.Nat.Defs

/-!
# Byte order of rendered text

Keys are compared byte by byte.  A common beginning cancels, and where the
beginnings differ and have one length nothing behind them matters.  A run of
digits of a fixed width compares as the number it shows.
-/

namespace HourlyUsage
namespace Text

/-! ## Lexicographic order of byte lists -/

theorem append_lt_append_left_iff (p a b : Bytes) : p ++ a < p ++ b ↔ a < b := by
  induction p with
  | nil => rfl
  | cons x p ih => simpa [List.cons_lt_cons_iff] using ih

/-- Beginnings of one length decide, and only where they agree the rest is looked at. -/
theorem append_lt_append_iff {a b : Bytes} (h : a.length = b.length) (c d : Bytes) :
    a ++ c < b ++ d ↔ a < b ∨ a = b ∧ c < d := by
  induction a generalizing b with
  | nil =>
      have hb : b = [] := List.eq_nil_of_length_eq_zero h.symm
      simp [hb]
  | cons x a ih =>
      cases b with
      | nil => simp at h
      | cons y b =>
          have hab : a.length = b.length := by simpa using h
          rw [List.cons_append, List.cons_append, List.cons_lt_cons_iff, List.cons_lt_cons_iff,
            ih hab, List.cons.injEq]
          constructor
          · rintro (hxy | ⟨rfl, hlt | ⟨rfl, hcd⟩⟩)
            · exact .inl (.inl hxy)
            · exact .inl (.inr ⟨rfl, hlt⟩)
            · exact .inr ⟨⟨rfl, rfl⟩, hcd⟩
          · rintro ((hxy | ⟨rfl, hlt⟩) | ⟨⟨rfl, rfl⟩, hcd⟩)
            · exact .inl hxy
            · exact .inr ⟨rfl, .inl hlt⟩
            · exact .inr ⟨rfl, .inr ⟨rfl, hcd⟩⟩

/-- What follows a text does not move it across a bound of its length. -/
theorem append_lt_iff {a b : Bytes} (h : a.length = b.length) (c : Bytes) :
    a ++ c < b ↔ a < b := by
  have := append_lt_append_iff h c []
  simpa using this

theorem append_inj_of_length {a b c d : Bytes} (h : a.length = b.length) :
    a ++ c = b ++ d ↔ a = b ∧ c = d := by
  constructor
  · intro he
    exact List.append_inj he h
  · rintro ⟨rfl, rfl⟩
    rfl

/-- What lies between two texts that begin alike begins as they do. -/
theorem prefix_of_between {p a b k : Bytes} (hlow : ¬ k < p ++ a) (hhigh : k < p ++ b) :
    p <+: k := by
  induction p generalizing k with
  | nil => exact List.nil_prefix
  | cons x p ih =>
      cases k with
      | nil => exact absurd (List.nil_lt_cons x (p ++ a)) hlow
      | cons y k =>
          rw [List.cons_append, List.cons_lt_cons_iff] at hlow hhigh
          obtain ⟨hyx, hrest⟩ := not_or.1 hlow
          rcases hhigh with hlt | ⟨rfl, hlt⟩
          · exact absurd hlt hyx
          · exact List.cons_prefix_cons.2 ⟨rfl, ih (fun h ↦ hrest ⟨rfl, h⟩) hlt⟩

/-! ## Text -/

theorem prefix_iff {s t : String} : utf8 s <+: utf8 t ↔ ∃ rest, t = s ++ rest := by
  constructor
  · rintro ⟨bytes, h⟩
    have hencoded : s.toList.utf8Encode ++ ⟨bytes.toArray⟩ = t.toList.utf8Encode := by
      rw [String.utf8Encode_toList, String.utf8Encode_toList]
      apply ByteArray.ext
      apply Array.ext'
      simpa [utf8] using h
    obtain ⟨rest, hrest⟩ := List.isPrefix_of_utf8Encode_append_eq_utf8Encode _ hencoded
    refine ⟨String.ofList rest, ?_⟩
    apply String.toList_inj.1
    rw [String.toList_append, String.toList_ofList, hrest]
  · rintro ⟨rest, rfl⟩
    rw [utf8_append]
    exact List.prefix_append _ _

theorem byteLt_iff {s t : String} : byteLt s t = true ↔ utf8 s < utf8 t := by
  simp [byteLt]

def charBytes (cs : List Char) : Bytes := utf8 (String.ofList cs)

@[simp] theorem utf8_ofList (cs : List Char) : utf8 (String.ofList cs) = charBytes cs := rfl

@[simp] theorem charBytes_append (cs ds : List Char) :
    charBytes (cs ++ ds) = charBytes cs ++ charBytes ds := by
  simp only [charBytes, String.ofList_append, utf8_append]

theorem charBytes_cons (c : Char) (cs : List Char) :
    charBytes (c :: cs) = charBytes [c] ++ charBytes cs :=
  charBytes_append [c] cs

/-! ## Digits -/

theorem charBytes_digit {d : Nat} (hd : d < 10) : charBytes [digit d] = [UInt8.ofNat (48 + d)] := by
  have h : ∀ d < 10, charBytes [digit d] = [UInt8.ofNat (48 + d)] := by decide
  exact h d hd

@[simp] theorem length_charBytes_fixed (width n : Nat) :
    (charBytes (fixed width n)).length = width := by
  induction width generalizing n with
  | zero => rfl
  | succ width ih =>
      have hd := charBytes_digit (Nat.mod_lt n (by omega : 0 < 10))
      simp [fixed, ih, hd]

theorem digitByte_lt_iff {a b : Nat} (ha : a < 10) (hb : b < 10) :
    ([UInt8.ofNat (48 + a)] : Bytes) < [UInt8.ofNat (48 + b)] ↔ a < b := by
  simp [List.cons_lt_cons_iff, UInt8.lt_iff_toNat_lt]
  omega

theorem digitByte_eq_iff {a b : Nat} (ha : a < 10) (hb : b < 10) :
    ([UInt8.ofNat (48 + a)] : Bytes) = [UInt8.ofNat (48 + b)] ↔ a = b := by
  simp [← UInt8.toNat_inj]
  omega

theorem fixed_eq_iff {width m n : Nat} (hm : m < 10 ^ width) (hn : n < 10 ^ width) :
    charBytes (fixed width m) = charBytes (fixed width n) ↔ m = n := by
  induction width generalizing m n with
  | zero => simp_all
  | succ width ih =>
      rw [Nat.pow_succ] at hm hn
      have h := ih (Nat.div_lt_of_lt_mul (by omega)) (Nat.div_lt_of_lt_mul (by omega))
        (m := m / 10) (n := n / 10)
      have hm' := Nat.mod_lt m (by omega : 0 < 10)
      have hn' := Nat.mod_lt n (by omega : 0 < 10)
      simp only [fixed, charBytes_append, charBytes_digit hm', charBytes_digit hn']
      rw [append_inj_of_length (by simp), h, digitByte_eq_iff hm' hn']
      omega

/-- Numbers of one width compare as their digits do. -/
theorem fixed_lt_iff {width m n : Nat} (hm : m < 10 ^ width) (hn : n < 10 ^ width) :
    charBytes (fixed width m) < charBytes (fixed width n) ↔ m < n := by
  induction width generalizing m n with
  | zero => simp_all [fixed]
  | succ width ih =>
      rw [Nat.pow_succ] at hm hn
      have hmq : m / 10 < 10 ^ width := Nat.div_lt_of_lt_mul (by omega)
      have hnq : n / 10 < 10 ^ width := Nat.div_lt_of_lt_mul (by omega)
      have hm' := Nat.mod_lt m (by omega : 0 < 10)
      have hn' := Nat.mod_lt n (by omega : 0 < 10)
      simp only [fixed, charBytes_append, charBytes_digit hm', charBytes_digit hn']
      rw [append_lt_append_iff (by simp), ih hmq hnq, fixed_eq_iff hmq hnq,
        digitByte_lt_iff hm' hn']
      omega

end Text
end HourlyUsage
