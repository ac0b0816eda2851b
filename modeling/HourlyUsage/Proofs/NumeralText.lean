import HourlyUsage.Json.Record
import HourlyUsage.Proofs.RecordText

/-!
# Reading written decimals

The text of a decimal is one numeral, whatever its layout, and ends in front of the
end of its member.  Its digits give back the digits of the decimal, and its point and
exponent the power of ten.
-/

namespace HourlyUsage
namespace Json

open Text

/-! ## Runs of digits -/

theorem isDigit_ascii {c : Char} (h : IsDigitChar c) : Ascii.isDigit c.toUInt8 = true := by
  obtain ⟨d, hd, rfl⟩ := h
  have hall : ∀ d < 10, Ascii.isDigit (digit d).toUInt8 = true := by decide
  exact hall d hd

theorem digitValue_ascii {c : Char} (h : IsDigitChar c) :
    Ascii.digitValue c.toUInt8 = digitValue c := by
  obtain ⟨d, hd, rfl⟩ := h
  have hall : ∀ d < 10, Ascii.digitValue (digit d).toUInt8 = digitValue (digit d) := by
    decide
  exact hall d hd

theorem isDigit_of_mem_ascii {ds : List Char} (hds : ∀ c ∈ ds, IsDigitChar c) :
    ∀ b ∈ ascii ds, Ascii.isDigit b = true := by
  intro b hb
  obtain ⟨c, hc, rfl⟩ := List.mem_map.1 hb
  exact isDigit_ascii (hds c hc)

theorem endsRun_point (rest : Bytes) : EndsRun (Ascii.point :: rest) := by
  rintro _ ⟨⟩
  decide

theorem endsRun_lowerE (rest : Bytes) : EndsRun (Ascii.lowerE :: rest) := by
  rintro _ ⟨⟩
  decide

theorem takeWhile_ascii {ds : List Char} (hds : ∀ c ∈ ds, IsDigitChar c) {rest : Bytes}
    (hrest : EndsRun rest) : (ascii ds ++ rest).takeWhile Ascii.isDigit = ascii ds := by
  rw [(takeWhile_isDigit_append (ascii ds) hrest).1]
  exact List.takeWhile_eq_self_iff.2 (isDigit_of_mem_ascii hds)

theorem dropWhile_ascii {ds : List Char} (hds : ∀ c ∈ ds, IsDigitChar c) {rest : Bytes}
    (hrest : EndsRun rest) : (ascii ds ++ rest).dropWhile Ascii.isDigit = rest := by
  rw [(takeWhile_isDigit_append (ascii ds) hrest).2,
    List.dropWhile_eq_nil_iff.2 (isDigit_of_mem_ascii hds), List.nil_append]

theorem ascii_append (cs ds : List Char) : ascii (cs ++ ds) = ascii cs ++ ascii ds :=
  List.map_append

theorem ascii_eq_nil {cs : List Char} : ascii cs = [] ↔ cs = [] := List.map_eq_nil_iff

theorem EndsMember.head_spec {rest : Bytes} (h : EndsMember rest) :
    ∀ b ∈ rest.head?, Ascii.isDigit b = false ∧ b ≠ Ascii.point ∧ b ≠ Ascii.lowerE ∧
      b ≠ Ascii.upperE := by
  intro b hb
  rcases h b hb with rfl | rfl <;> decide

theorem EndsMember.endsRun {rest : Bytes} (h : EndsMember rest) : EndsRun rest :=
  fun b hb ↦ (h.head_spec b hb).1

namespace Numeral

/-! ## Parts of numerals -/

/-- Digits that may stand before the point: a zero alone, or none in front. -/
def IsWhole (ds : List Char) : Prop :=
  (∀ c ∈ ds, IsDigitChar c) ∧ ds ≠ [] ∧ (ds = ['0'] ∨ ds.head? ≠ some '0')

theorem toUInt8_digit_eq_zero {c : Char} (h : IsDigitChar c) :
    c.toUInt8 = Ascii.zero ↔ c = '0' := by
  obtain ⟨d, hd, rfl⟩ := h
  have hall : ∀ d < 10, (digit d).toUInt8 = Ascii.zero ↔ digit d = '0' := by decide
  exact hall d hd

theorem readWhole_ascii (atEnd : Cause) {ds : List Char} (h : IsWhole ds) {rest : Bytes}
    (hrest : EndsRun rest) : readWhole atEnd (ascii ds ++ rest) = .ok (ascii ds, rest) := by
  obtain ⟨hds, hne, hzero⟩ := h
  rcases hzero with rfl | hfirst
  · have hhead : ¬ rest.head?.any Ascii.isDigit = true := by
      cases rest with
      | nil => simp
      | cons b rest => simp [hrest b rfl]
    change readWhole atEnd (Ascii.zero :: rest) = _
    rw [readWhole, if_pos rfl, if_neg hhead]
    rfl
  · cases ds with
    | nil => exact absurd rfl hne
    | cons c ds =>
        obtain ⟨hc, htail⟩ := List.forall_mem_cons.1 hds
        have hnot : ¬ c.toUInt8 = Ascii.zero := by
          rw [toUInt8_digit_eq_zero hc]
          rintro rfl
          exact hfirst rfl
        change readWhole atEnd (c.toUInt8 :: (ascii ds ++ rest)) = _
        rw [readWhole, if_neg hnot, if_pos (isDigit_ascii hc), takeWhile_ascii htail hrest,
          dropWhile_ascii htail hrest]
        rfl

theorem readFraction_ascii (atEnd : Cause) {ds : List Char} (hds : ∀ c ∈ ds, IsDigitChar c)
    (hne : ds ≠ []) {rest : Bytes} (hrest : EndsRun rest) :
    readFraction atEnd (Ascii.point :: (ascii ds ++ rest)) = .ok (ascii ds, rest) := by
  have hnonempty : ¬ (ascii ds).isEmpty = true := by
    rwa [List.isEmpty_iff, ascii_eq_nil]
  have hpoint : ∀ bs, readFraction atEnd (Ascii.point :: bs) =
      if (bs.takeWhile Ascii.isDigit).isEmpty then
        Fault.next (if bs.isEmpty then atEnd else .invalidNumber) bs
      else .ok (bs.takeWhile Ascii.isDigit, bs.dropWhile Ascii.isDigit) := fun _ ↦ rfl
  rw [hpoint, takeWhile_ascii hds hrest, dropWhile_ascii hds hrest, if_neg hnonempty]

theorem readFraction_none (atEnd : Cause) {rest : Bytes}
    (h : ∀ b ∈ rest.head?, b ≠ Ascii.point) : readFraction atEnd rest = .ok ([], rest) := by
  unfold readFraction
  split
  · next tail => exact absurd rfl (h Ascii.point rfl)
  · rfl

theorem readExponent_ascii (atEnd : Cause) (negative : Bool) {ds : List Char}
    (hds : ∀ c ∈ ds, IsDigitChar c) (hne : ds ≠ []) {rest : Bytes} (hrest : EndsRun rest) :
    readExponent atEnd (Ascii.lowerE :: (if negative then Ascii.minus else Ascii.plus) ::
      (ascii ds ++ rest)) = .ok (some (negative, ascii ds), rest) := by
  cases ds with
  | nil => exact absurd rfl hne
  | cons c ds =>
      obtain ⟨hc, htail⟩ := List.forall_mem_cons.1 hds
      have hsign : splitSign ((if negative then Ascii.minus else Ascii.plus) ::
          (ascii (c :: ds) ++ rest)) = (negative, c.toUInt8 :: (ascii ds ++ rest)) := by
        cases negative <;> rfl
      rw [readExponent, if_pos (.inl rfl)]
      simp only [readExponentDigits, hsign, if_pos (isDigit_ascii hc), takeWhile_ascii htail hrest,
        dropWhile_ascii htail hrest, bind, Except.bind]
      rfl

theorem readExponent_none (atEnd : Cause) {rest : Bytes} (h : EndsMember rest) :
    readExponent atEnd rest = .ok (none, rest) := by
  cases rest with
  | nil => rfl
  | cons b rest =>
      obtain ⟨-, -, hlower, hupper⟩ := h.head_spec b rfl
      rw [readExponent, if_neg (not_or.2 ⟨hlower, hupper⟩)]

/-- A numeral with a fraction and no exponent. -/
theorem reads_pointed (atEnd : Cause) {whole fraction : List Char} (hwhole : IsWhole whole)
    (hfraction : ∀ c ∈ fraction, IsDigitChar c) (hne : fraction ≠ []) :
    Reads (read atEnd) (ascii (whole ++ '.' :: fraction))
      ⟨ascii whole, ascii fraction, none⟩ := by
  intro rest hrest
  have htext : ascii (whole ++ '.' :: fraction) ++ rest =
      ascii whole ++ Ascii.point :: (ascii fraction ++ rest) := by
    rw [ascii_append, List.append_assoc]
    rfl
  simp only [read, htext, readWhole_ascii atEnd hwhole (endsRun_point _),
    readFraction_ascii atEnd hfraction hne hrest.endsRun, readExponent_none atEnd hrest, bind,
    Except.bind]
  rfl

/-- A numeral with an exponent, and with a fraction unless that is empty. -/
theorem reads_exponential (atEnd : Cause) {whole fraction exponent : List Char} (negative : Bool)
    (hwhole : IsWhole whole) (hfraction : ∀ c ∈ fraction, IsDigitChar c)
    (hexponent : ∀ c ∈ exponent, IsDigitChar c) (hne : exponent ≠ []) :
    Reads (read atEnd)
      (ascii (whole ++ (if fraction = [] then [] else '.' :: fraction) ++
        'e' :: (if negative then '-' else '+') :: exponent))
      ⟨ascii whole, ascii fraction, some (negative, ascii exponent)⟩ := by
  intro rest hrest
  let tail := Ascii.lowerE :: (if negative then Ascii.minus else Ascii.plus) ::
    (ascii exponent ++ rest)
  have htail : EndsRun tail := endsRun_lowerE _
  have hread : readExponent atEnd tail = .ok (some (negative, ascii exponent), rest) :=
    readExponent_ascii atEnd negative hexponent hne hrest.endsRun
  have hexp : ascii ('e' :: (if negative then '-' else '+') :: exponent) ++ rest = tail := by
    cases negative <;> rfl
  rw [ascii_append, ascii_append, List.append_assoc, List.append_assoc, hexp]
  by_cases hempty : fraction = []
  · have hnone : readFraction atEnd tail = .ok ([], tail) := by
      apply readFraction_none
      rintro _ ⟨⟩
      decide
    rw [if_pos hempty, hempty]
    change read atEnd (ascii whole ++ tail) = _
    simp only [read, readWhole_ascii atEnd hwhole htail, hnone, hread, bind, Except.bind]
    rfl
  · rw [if_neg hempty]
    change read atEnd (ascii whole ++ Ascii.point :: (ascii fraction ++ tail)) = _
    simp only [read, readWhole_ascii atEnd hwhole (endsRun_point _),
      readFraction_ascii atEnd hfraction hempty htail, hread, bind, Except.bind]
    rfl

end Numeral

/-! ## The numeral of a decimal -/

theorem head?_decimal {n : Nat} (h : n ≠ 0) : (decimal n).head? ≠ some '0' := by
  induction n using decimal.induct with
  | case1 n hn =>
      have hall : ∀ n < 10, n ≠ 0 → digit n ≠ '0' := by decide
      rw [decimal, if_pos hn]
      simpa using hall n hn h
  | case2 n hn ih =>
      rw [decimal, if_neg hn, List.head?_append_of_ne_nil _ (decimal_ne_nil _)]
      exact ih (by omega)

theorem decimal_zero : decimal 0 = ['0'] := by
  rw [decimal, if_pos (by decide)]
  rfl

namespace Numeral

theorem IsWhole.take_decimal (n : Nat) {k : Nat} (hk : 0 < k) : IsWhole ((decimal n).take k) := by
  have hne : (decimal n).take k ≠ [] := by simp [decimal_ne_nil, Nat.ne_of_gt hk]
  refine ⟨fun c hc ↦ .of_mem_decimal (List.mem_of_mem_take hc), hne, ?_⟩
  by_cases hn : n = 0
  · left
    rw [hn, decimal_zero]
    exact List.take_of_length_le hk
  · right
    rw [List.head?_take, if_neg (Nat.ne_of_gt hk)]
    exact head?_decimal hn

theorem IsWhole.decimal_append {n k : Nat} (h : n ≠ 0 ∨ k = 0) :
    IsWhole (decimal n ++ List.replicate k '0') := by
  refine ⟨?_, List.append_ne_nil_of_left_ne_nil (decimal_ne_nil n) _, ?_⟩
  · refine List.forall_mem_append.2 ⟨fun c hc ↦ .of_mem_decimal hc, fun c hc ↦ ?_⟩
    exact List.eq_of_mem_replicate hc ▸ .zero
  · by_cases hn : n = 0
    · have hk := h.resolve_left (not_not.2 hn)
      left
      rw [hn, hk, decimal_zero]
      rfl
    · right
      rw [List.head?_append_of_ne_nil _ (decimal_ne_nil n)]
      exact head?_decimal hn

theorem IsWhole.zero : IsWhole ['0'] :=
  ⟨List.forall_mem_singleton.2 .zero, List.cons_ne_nil _ _, .inl rfl⟩

end Numeral

end Json

open Json Text

namespace Decimal

/-- The power of ten of the leading digit. -/
def top (d : Decimal) : Int := d.exponent + (decimal d.digits).length - 1

/-- Is the decimal written out in full? -/
def IsPositional (d : Decimal) : Prop := layout.least ≤ d.top ∧ d.top ≤ layout.greatest

instance (d : Decimal) : Decidable d.IsPositional :=
  inferInstanceAs (Decidable (layout.least ≤ d.top ∧ d.top ≤ layout.greatest))

/-- The parts that a decimal is written with. -/
def numeral (d : Decimal) : Numeral :=
  let ds := decimal d.digits
  let places := (-d.exponent).toNat
  if d.IsPositional then
    if 0 ≤ d.exponent then
      ⟨ascii (ds ++ List.replicate d.exponent.toNat '0'), ascii ['0'], none⟩
    else if ds.length ≤ places then
      ⟨ascii ['0'], ascii (List.replicate (places - ds.length) '0' ++ ds), none⟩
    else ⟨ascii (ds.take (ds.length - places)), ascii (ds.drop (ds.length - places)), none⟩
  else
    ⟨ascii (ds.take 1), ascii (ds.drop 1), some (decide (d.top < 0), ascii (decimal d.top.natAbs))⟩

/-- A written decimal is one numeral.  A zero may not raise the power of ten, as it would stand in
front of other digits then. -/
theorem reads_chars (atEnd : Cause) {d : Decimal} (h : d.digits ≠ 0 ∨ d.exponent ≤ 0) :
    Reads (Numeral.read atEnd) (ascii d.chars) d.numeral := by
  have hds : ∀ c ∈ decimal d.digits, IsDigitChar c := fun c hc ↦ .of_mem_decimal hc
  have hzeros : ∀ k, ∀ c ∈ List.replicate k '0', IsDigitChar c :=
    fun k c hc ↦ List.eq_of_mem_replicate hc ▸ .zero
  unfold chars numeral
  dsimp only
  by_cases hpositional : d.IsPositional
  · rw [if_pos hpositional]
    have hlayout : layout.least ≤ d.exponent + (decimal d.digits).length - 1 ∧
        d.exponent + (decimal d.digits).length - 1 ≤ layout.greatest := hpositional
    rw [if_pos hlayout, positional]
    split
    · next hexponent =>
      have hwhole : Numeral.IsWhole (decimal d.digits ++ List.replicate d.exponent.toNat '0') :=
        .decimal_append (h.imp_right fun hle ↦ by omega)
      exact Numeral.reads_pointed atEnd hwhole (List.forall_mem_singleton.2 .zero)
        (List.cons_ne_nil _ _)
    · next hexponent =>
      dsimp only
      split
      · have hne : List.replicate ((-d.exponent).toNat - (decimal d.digits).length) '0' ++
            decimal d.digits ≠ [] := List.append_ne_nil_of_right_ne_nil _ (decimal_ne_nil _)
        exact Numeral.reads_pointed atEnd .zero (List.forall_mem_append.2 ⟨hzeros _, hds⟩) hne
      · next hlength =>
        refine Numeral.reads_pointed atEnd (.take_decimal _ (by omega)) ?_ ?_
        · exact fun c hc ↦ hds c (List.mem_of_mem_drop hc)
        · refine List.ne_nil_of_length_pos ?_
          rw [List.length_drop]
          omega
  · rw [if_neg hpositional]
    have hlayout : ¬ (layout.least ≤ d.exponent + (decimal d.digits).length - 1 ∧
        d.exponent + (decimal d.digits).length - 1 ≤ layout.greatest) := hpositional
    rw [if_neg hlayout, scientific]
    have hdrop : ∀ c ∈ (decimal d.digits).drop 1, IsDigitChar c :=
      fun c hc ↦ hds c (List.mem_of_mem_drop hc)
    have hread := Numeral.reads_exponential atEnd (decide (d.top < 0))
      (Numeral.IsWhole.take_decimal d.digits Nat.one_pos) hdrop
      (fun c hc ↦ .of_mem_decimal hc) (decimal_ne_nil d.top.natAbs)
    simp only [List.drop_eq_nil_iff, decide_eq_true_eq] at hread
    exact hread

end Decimal

/-! ## The value of a numeral -/

namespace Json
namespace Numeral

/-- Digits that fit into 64 bits behind a number are gathered with it. -/
theorem gather_ascii {ds : List Char} (hds : ∀ c ∈ ds, IsDigitChar c) {n : Nat}
    (h : n * 10 ^ ds.length + digitsValue ds < wordLimit) :
    gather n (ascii ds) = (n * 10 ^ ds.length + digitsValue ds, 0) := by
  induction ds generalizing n with
  | nil => simp [ascii, gather, digitsValue]
  | cons c ds ih =>
      obtain ⟨hc, htail⟩ := List.forall_mem_cons.1 hds
      rw [append_digit] at h
      rw [append_digit, ← ih htail h]
      change gather n (c.toUInt8 :: ascii ds) = _
      rw [gather, digitValue_ascii hc, if_pos (lt_of_append_lt h)]

theorem gatherExponent_ascii {ds : List Char} (hds : ∀ c ∈ ds, IsDigitChar c) {n : Nat}
    (h : n * 10 ^ ds.length + digitsValue ds < exponentLimit) :
    gatherExponent n (ascii ds) = .ok (n * 10 ^ ds.length + digitsValue ds) := by
  induction ds generalizing n with
  | nil => simp [ascii, gatherExponent, digitsValue]
  | cons c ds ih =>
      obtain ⟨hc, htail⟩ := List.forall_mem_cons.1 hds
      rw [append_digit] at h
      rw [append_digit, ← ih htail h]
      change gatherExponent n (c.toUInt8 :: ascii ds) = _
      rw [gatherExponent, digitValue_ascii hc, if_pos (lt_of_append_lt h)]

/-- The numeral is written with digits that make this integer, and stands for it times this power
of ten. -/
inductive Denotes (s : Nat) (e : Int) : Numeral → Prop
  | pointed {whole fraction : List Char} (hwhole : ∀ c ∈ whole, IsDigitChar c)
      (hfraction : ∀ c ∈ fraction, IsDigitChar c) (hs : digitsValue (whole ++ fraction) = s)
      (he : -(fraction.length : Int) = e) : Denotes s e ⟨ascii whole, ascii fraction, none⟩
  | exponential {whole fraction : List Char} {k : Int} (hwhole : ∀ c ∈ whole, IsDigitChar c)
      (hfraction : ∀ c ∈ fraction, IsDigitChar c) (hs : digitsValue (whole ++ fraction) = s)
      (hk : k.natAbs < exponentLimit) (he : k - fraction.length = e) :
      Denotes s e
        ⟨ascii whole, ascii fraction, some (decide (k < 0), ascii (decimal k.natAbs))⟩

/-- The digits of a numeral make one integer, as long as 64 bits hold it. -/
theorem gather_parts {whole fraction : List Char} (hwhole : ∀ c ∈ whole, IsDigitChar c)
    (hfraction : ∀ c ∈ fraction, IsDigitChar c)
    (hfits : digitsValue (whole ++ fraction) < wordLimit) :
    gather 0 (ascii whole) = (digitsValue whole, 0) ∧
      gather (digitsValue whole) (ascii fraction) = (digitsValue (whole ++ fraction), 0) := by
  rw [digitsValue_append] at hfits ⊢
  have hgather := gather_ascii (n := 0) hwhole (by
    rw [Nat.zero_mul, Nat.zero_add]
    exact lt_of_append_lt hfits)
  rw [Nat.zero_mul, Nat.zero_add] at hgather
  exact ⟨hgather, gather_ascii hfraction hfits⟩

theorem gatherExponent_decimal {k : Nat} (hk : k < exponentLimit) :
    gatherExponent 0 (ascii (decimal k)) = .ok k := by
  have h := gatherExponent_ascii (n := 0) (fun c hc ↦ .of_mem_decimal (n := k) hc)
  rw [Nat.zero_mul, Nat.zero_add, digitsValue_decimal] at h
  exact h hk

/-- The value of a numeral is its integer, scaled by its power of ten. -/
theorem Denotes.float {s : Nat} {e : Int} {n : Numeral} (h : n.Denotes s e) (hfits : s < wordLimit)
    {x : Binary64} (hscale : scaleByTen? (Binary64.ofNat s) e = some x) (negative : Bool)
    (left : Nat) : n.float negative left = .ok (signed negative x) := by
  cases h with
  | @pointed whole fraction hwhole hfraction hs he =>
      obtain ⟨hgather, hgather'⟩ := gather_parts hwhole hfraction (hs.symm ▸ hfits)
      have hlength : (ascii fraction).length = fraction.length := List.length_map _
      simp only [Numeral.float, hgather, hgather', hlength, Nat.cast_zero, Nat.sub_zero,
        Int.zero_sub, hs, he, hscale]
  | @exponential whole fraction k hwhole hfraction hs hk he =>
      obtain ⟨hgather, hgather'⟩ := gather_parts hwhole hfraction (hs.symm ▸ hfits)
      have hlength : (ascii fraction).length = fraction.length := List.length_map _
      have hpower : (if decide (k < 0) = true then -(fraction.length : Int) - k.natAbs
          else -(fraction.length : Int) + k.natAbs) = e := by
        by_cases hneg : k < 0
        · rw [if_pos (decide_eq_true hneg)]
          omega
        · rw [if_neg (by simpa using hneg)]
          omega
      simp only [Numeral.float, hgather, hgather', hlength, Nat.cast_zero, Nat.sub_zero,
        Int.zero_sub, gatherExponent_decimal hk, hs, hpower, hscale]

end Numeral
end Json

namespace Decimal

/-- The integer that the digits of a written decimal make, whatever its point and exponent. -/
def integer (d : Decimal) : Nat :=
  if d.IsPositional ∧ 0 ≤ d.exponent then d.digits * 10 ^ (d.exponent.toNat + 1) else d.digits

/-- The power of ten that goes with the integer of a written decimal. -/
def power (d : Decimal) : Int := if d.IsPositional ∧ 0 ≤ d.exponent then -1 else d.exponent

theorem denotes_numeral {d : Decimal} (htop : d.top.natAbs < Numeral.exponentLimit) :
    d.numeral.Denotes d.integer d.power := by
  have hds : ∀ c ∈ decimal d.digits, IsDigitChar c := fun c hc ↦ .of_mem_decimal hc
  have hzeros : ∀ k, ∀ c ∈ List.replicate k '0', IsDigitChar c :=
    fun k c hc ↦ List.eq_of_mem_replicate hc ▸ .zero
  have htake : ∀ k, ∀ c ∈ (decimal d.digits).take k, IsDigitChar c :=
    fun k c hc ↦ hds c (List.mem_of_mem_take hc)
  have hdrop : ∀ k, ∀ c ∈ (decimal d.digits).drop k, IsDigitChar c :=
    fun k c hc ↦ hds c (List.mem_of_mem_drop hc)
  have hparts : ∀ k, digitsValue ((decimal d.digits).take k ++ (decimal d.digits).drop k) =
      d.digits := by
    intro k
    rw [List.take_append_drop, digitsValue_decimal]
  unfold numeral integer power
  dsimp only
  by_cases hpositional : d.IsPositional
  · rw [if_pos hpositional]
    by_cases hexponent : 0 ≤ d.exponent
    · rw [if_pos hexponent, if_pos ⟨hpositional, hexponent⟩, if_pos ⟨hpositional, hexponent⟩]
      refine .pointed (List.forall_mem_append.2 ⟨hds, hzeros _⟩)
        (List.forall_mem_singleton.2 .zero) ?_ rfl
      rw [List.append_assoc, ← List.replicate_succ', digitsValue_append, digitsValue_replicate,
        digitsValue_decimal, List.length_replicate, Nat.add_zero]
    · rw [if_neg hexponent, if_neg fun h ↦ hexponent h.2, if_neg fun h ↦ hexponent h.2]
      split
      · next hplaces =>
        refine .pointed (List.forall_mem_singleton.2 .zero)
          (List.forall_mem_append.2 ⟨hzeros _, hds⟩) ?_ ?_
        · rw [← List.append_assoc, ← List.replicate_one, List.replicate_append_replicate,
            digitsValue_replicate_append, digitsValue_decimal]
        · rw [List.length_append, List.length_replicate]
          omega
      · next hplaces =>
        refine .pointed (htake _) (hdrop _) (hparts _) ?_
        rw [List.length_drop]
        omega
  · rw [if_neg hpositional, if_neg fun h ↦ hpositional h.1, if_neg fun h ↦ hpositional h.1]
    refine .exponential (htake 1) (hdrop 1) (hparts 1) htop ?_
    have hlength := List.length_pos_of_ne_nil (decimal_ne_nil d.digits)
    rw [List.length_drop, top]
    omega

end Decimal
end HourlyUsage
