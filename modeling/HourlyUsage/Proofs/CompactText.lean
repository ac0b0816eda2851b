import HourlyUsage.Event
import HourlyUsage.Proofs.DigitRuns
import HourlyUsage.Proofs.LexemeFraming

/-!
# Compact text

Compact JSON has no white space between its tokens, and its strings escape the
control characters.  So it has no byte below the space, and stays on one line.
All values and all events print as compact text, and events with an object
inside an object and no more.
-/

namespace HourlyUsage
namespace Json

open Text

inductive CompactText : Bytes → Prop
  | null : CompactText (ascii ['n', 'u', 'l', 'l'])
  | bool (b : Bool) :
      CompactText (ascii (if b then ['t', 'r', 'u', 'e'] else ['f', 'a', 'l', 's', 'e']))
  | number {text : Bytes} (hne : text ≠ []) (h : ∀ b ∈ text, IsNumeric b) : CompactText text
  | string (raw : Bytes) : CompactText (Ascii.quote :: (raw.flatMap printByte ++ [Ascii.quote]))
  | array {items : List Bytes} (h : ∀ item ∈ items, CompactText item) :
      CompactText (compactArray items)
  | object {members : List (String × Bytes)} (h : ∀ m ∈ members, CompactText m.2) :
      CompactText (compactObject members)

/-- What holds of all items and of the separator, and of texts put together if it holds of each,
holds of the items with separators between them. -/
theorem separate_of_append {P : Bytes → Prop} (hnil : P [])
    (happend : ∀ {a b : Bytes}, P a → P b → P (a ++ b)) {separator : Bytes}
    (hseparator : P separator) {items : List Bytes} (h : ∀ item ∈ items, P item) :
    P (separate separator items) := by
  induction items with
  | nil => exact hnil
  | cons item items ih =>
      have hfirst := h item (List.mem_cons_self ..)
      have hrest := ih fun item hitem ↦ h item (List.mem_cons_of_mem _ hitem)
      cases items with
      | nil => exact hfirst
      | cons next items => exact happend (happend hfirst hseparator) hrest

/-! ## Control characters -/

/-- No byte of the text is a control character. -/
def HasNoControl (text : Bytes) : Prop := ∀ b ∈ text, 0x20 ≤ b

namespace HasNoControl

theorem of_all {text : Bytes} (h : (text.all fun b ↦ decide (0x20 ≤ b)) = true) :
    HasNoControl text := forall_mem_of_all h

@[simp] theorem cons_iff {b : UInt8} {text : Bytes} :
    HasNoControl (b :: text) ↔ 0x20 ≤ b ∧ HasNoControl text := List.forall_mem_cons

@[simp] theorem append_iff {text more : Bytes} :
    HasNoControl (text ++ more) ↔ HasNoControl text ∧ HasNoControl more := List.forall_mem_append

theorem enclose {first last : UInt8} {text : Bytes} (hfirst : 0x20 ≤ first) (hlast : 0x20 ≤ last)
    (h : HasNoControl text) : HasNoControl (first :: (text ++ [last])) := by
  rw [cons_iff, append_iff]
  exact ⟨hfirst, h, fun b hb ↦ List.mem_singleton.1 hb ▸ hlast⟩

theorem separate {items : List Bytes} (h : ∀ item ∈ items, HasNoControl item) :
    HasNoControl (separate [Ascii.comma] items) :=
  separate_of_append nofun (fun ha hb ↦ append_iff.2 ⟨ha, hb⟩) (of_all rfl) h

theorem printByte (b : UInt8) : HasNoControl (printByte b) := by
  have h : ∀ n < 256,
      ((Json.printByte (UInt8.ofNat n)).all fun b ↦ decide (0x20 ≤ b)) = true := by decide +kernel
  have hb := of_all (h b.toNat b.toNat_lt)
  rwa [UInt8.ofNat_toNat] at hb

theorem quoted (raw : Bytes) :
    HasNoControl (Ascii.quote :: (raw.flatMap Json.printByte ++ [Ascii.quote])) := by
  apply enclose (by decide) (by decide)
  intro c hc
  obtain ⟨b, -, hb⟩ := List.mem_flatMap.1 hc
  exact printByte b c hb

theorem of_isNumeric {text : Bytes} (h : ∀ b ∈ text, IsNumeric b) : HasNoControl text := by
  intro b hb
  rcases h b hb with hdigit | rfl | rfl | rfl | rfl | rfl
  · simp only [Ascii.isDigit, Bool.and_eq_true, decide_eq_true_eq] at hdigit
    have hspace : (0x20 : UInt8) ≤ Ascii.zero := by decide
    exact UInt8.le_trans hspace hdigit.1
  all_goals decide

end HasNoControl

namespace CompactText

theorem hasNoControl {text : Bytes} (h : CompactText text) : HasNoControl text := by
  induction h with
  | null => exact .of_all rfl
  | bool b => cases b <;> exact .of_all rfl
  | number hne h => exact .of_isNumeric h
  | string raw => exact .quoted raw
  | array _ ih => exact .enclose (by decide) (by decide) (.separate ih)
  | @object members _ ih =>
      apply HasNoControl.enclose (by decide) (by decide)
      apply HasNoControl.separate
      intro item hitem
      obtain ⟨m, hm, rfl⟩ := List.mem_map.1 hitem
      have hcolon : (0x20 : UInt8) ≤ Ascii.colon := by decide
      exact HasNoControl.append_iff.2 ⟨.quoted _, HasNoControl.cons_iff.2 ⟨hcolon, ih m hm⟩⟩

/-- Compact text stays on one line. -/
theorem newline_notMem {text : Bytes} (h : CompactText text) : Ascii.newline ∉ text := by
  intro hmem
  exact absurd (h.hasNoControl _ hmem) (by decide)

end CompactText

/-! ## Printed characters -/

/-- The character stands for itself between quotes. -/
def IsUnescaped (c : Char) : Prop := printByte c.toUInt8 = [c.toUInt8]

theorem flatMap_printByte {cs : List Char} (h : ∀ c ∈ cs, IsUnescaped c) :
    (ascii cs).flatMap printByte = ascii cs := by
  induction cs with
  | nil => rfl
  | cons c cs ih =>
      have hc := h c (List.mem_cons_self ..)
      have hcs := ih fun d hd ↦ h d (List.mem_cons_of_mem _ hd)
      rw [ascii, List.map_cons, List.flatMap_cons, hc, ← ascii, hcs]
      rfl

theorem compactText_numeral {cs : List Char} (hne : cs ≠ [])
    (h : ∀ c ∈ cs, IsNumeric c.toUInt8) : CompactText (ascii cs) := by
  apply CompactText.number
  · simpa [ascii] using hne
  · intro b hb
    obtain ⟨c, hc, rfl⟩ := List.mem_map.1 hb
    exact h c hc

theorem isUnescaped_digit {c : Char} (h : IsDigitChar c) : IsUnescaped c := by
  obtain ⟨d, hd, rfl⟩ := h
  have hall : ∀ d < 10, printByte (digit d).toUInt8 = [(digit d).toUInt8] := by decide
  exact hall d hd

theorem isNumeric_digit {c : Char} (h : IsDigitChar c) : IsNumeric c.toUInt8 := by
  obtain ⟨d, hd, rfl⟩ := h
  have hall : ∀ d < 10, Ascii.isDigit (digit d).toUInt8 = true := by decide
  exact .inl (hall d hd)

/-- The character belongs to a written number. -/
def IsNumeralChar (c : Char) : Prop := IsDigitChar c ∨ c ∈ ['-', '+', '.', 'e']

instance (b : UInt8) : Decidable (IsNumeric b) :=
  inferInstanceAs (Decidable (Ascii.isDigit b = true ∨ b = Ascii.minus ∨ b = Ascii.plus ∨
    b = Ascii.point ∨ b = Ascii.lowerE ∨ b = Ascii.upperE))

theorem IsNumeralChar.isNumeric {c : Char} (h : IsNumeralChar c) : IsNumeric c.toUInt8 := by
  rcases h with h | h
  · exact isNumeric_digit h
  · have hall : ∀ c ∈ ['-', '+', '.', 'e'], IsNumeric c.toUInt8 := forall_mem_of_all rfl
    exact hall c h

/-- The character belongs to a written timestamp. -/
def IsTimestampChar (c : Char) : Prop := IsDigitChar c ∨ c ∈ ['-', '+', ':', '.', 'T', 'Z']

theorem IsTimestampChar.isUnescaped {c : Char} (h : IsTimestampChar c) : IsUnescaped c := by
  rcases h with h | h
  · exact isUnescaped_digit h
  · have hall : ∀ c ∈ ['-', '+', ':', '.', 'T', 'Z'], printByte c.toUInt8 = [c.toUInt8] :=
      forall_mem_of_all (by decide)
    exact hall c h

/-! ## Numbers and timestamps -/

theorem isNumeralChar_signedDecimal (n : Int) : ∀ c ∈ signedDecimal n, IsNumeralChar c := by
  have hdecimal : ∀ c ∈ decimal n.natAbs, IsNumeralChar c := fun c hc ↦ .inl (.of_mem_decimal hc)
  unfold signedDecimal
  split
  · exact List.forall_mem_cons.2 ⟨.inr (by decide), hdecimal⟩
  · exact hdecimal

theorem signedDecimal_ne_nil (n : Int) : signedDecimal n ≠ [] := by
  unfold signedDecimal
  split
  · exact List.cons_ne_nil _ _
  · exact decimal_ne_nil _

theorem compactText_printInt (n : Int) : CompactText (printInt n) := by
  have hnumeral := isNumeralChar_signedDecimal n
  exact compactText_numeral (signedDecimal_ne_nil n) fun c hc ↦ (hnumeral c hc).isNumeric

section Floats

variable {ds : List Char} (h : ∀ c ∈ ds, IsDigitChar c)

include h

theorem isNumeralChar_positional (exponent : Int) :
    ∀ c ∈ Decimal.positional ds exponent, IsNumeralChar c := by
  have hds : ∀ c ∈ ds, IsNumeralChar c := fun c hc ↦ .inl (h c hc)
  have hzeros : ∀ n, ∀ c ∈ List.replicate n '0', IsNumeralChar c := by
    intro n c hc
    exact .inl (List.eq_of_mem_replicate hc ▸ .zero)
  unfold Decimal.positional
  split
  · have hend : ∀ c ∈ ['.', '0'], IsNumeralChar c :=
      List.forall_mem_cons.2 ⟨.inr (by decide), hzeros 1⟩
    exact List.forall_mem_append.2 ⟨List.forall_mem_append.2 ⟨hds, hzeros _⟩, hend⟩
  · dsimp only
    split
    · have hfront : ∀ c ∈ ['0', '.'], IsNumeralChar c :=
        List.forall_mem_cons.2 ⟨.inl .zero, List.forall_mem_singleton.2 (.inr (by decide))⟩
      exact List.forall_mem_append.2 ⟨List.forall_mem_append.2 ⟨hfront, hzeros _⟩, hds⟩
    · refine List.forall_mem_append.2 ⟨?_, List.forall_mem_cons.2 ⟨.inr (by decide), ?_⟩⟩
      · exact fun c hc ↦ hds c (List.mem_of_mem_take hc)
      · exact fun c hc ↦ hds c (List.mem_of_mem_drop hc)

theorem isNumeralChar_scientific (top : Int) :
    ∀ c ∈ Decimal.scientific ds top, IsNumeralChar c := by
  have hds : ∀ c ∈ ds, IsNumeralChar c := fun c hc ↦ .inl (h c hc)
  have hfraction : ∀ c ∈ if ds.length ≤ 1 then [] else '.' :: ds.drop 1, IsNumeralChar c := by
    split
    · exact nofun
    · refine List.forall_mem_cons.2 ⟨.inr (by decide), ?_⟩
      exact fun c hc ↦ hds c (List.mem_of_mem_drop hc)
  have hsign : IsNumeralChar (if top < 0 then '-' else '+') := by
    split <;> exact .inr (by decide)
  unfold Decimal.scientific
  refine List.forall_mem_append.2 ⟨List.forall_mem_append.2 ⟨?_, hfraction⟩,
    List.forall_mem_cons.2 ⟨.inr (by decide), List.forall_mem_cons.2 ⟨hsign, ?_⟩⟩⟩
  · exact fun c hc ↦ hds c (List.mem_of_mem_take hc)
  · exact fun c hc ↦ .inl (.of_mem_decimal hc)

end Floats

theorem isNumeralChar_chars (d : Decimal) : ∀ c ∈ d.chars, IsNumeralChar c := by
  have hdigits : ∀ c ∈ decimal d.digits, IsDigitChar c := fun c hc ↦ .of_mem_decimal hc
  unfold Decimal.chars
  dsimp only
  split
  · exact isNumeralChar_positional hdigits _
  · exact isNumeralChar_scientific hdigits _

theorem chars_ne_nil (d : Decimal) : d.chars ≠ [] := by
  unfold Decimal.chars Decimal.positional Decimal.scientific
  dsimp only
  repeat' split
  all_goals simp

theorem isNumeralChar_binary64 (x : Binary64) : ∀ c ∈ x.chars, IsNumeralChar c := by
  have hmagnitude := isNumeralChar_chars (Decimal.shortest x.magnitude)
  unfold Binary64.chars
  split
  · exact List.forall_mem_cons.2 ⟨.inr (by decide), hmagnitude⟩
  · exact hmagnitude

theorem binary64_chars_ne_nil (x : Binary64) : x.chars ≠ [] := by
  unfold Binary64.chars
  split
  · exact List.cons_ne_nil _ _
  · exact chars_ne_nil _

theorem compactText_printFloat (x : Binary64) : CompactText (printFloat x) := by
  unfold printFloat
  split
  · have hnumeral := isNumeralChar_binary64 x
    exact compactText_numeral (binary64_chars_ne_nil x) fun c hc ↦ (hnumeral c hc).isNumeric
  · exact .null

theorem isTimestampChar_yearChars (y : Int) : ∀ c ∈ yearChars y, IsTimestampChar c := by
  unfold yearChars
  split
  · exact fun c hc ↦ .inl (.of_mem_fixed hc)
  · have hsign : IsTimestampChar (if y < 0 then '-' else '+') := by
      split <;> exact .inr (by decide)
    refine List.forall_mem_cons.2 ⟨hsign, ?_⟩
    split
    · exact fun c hc ↦ .inl (.of_mem_fixed hc)
    · exact fun c hc ↦ .inl (.of_mem_decimal hc)

theorem isTimestampChar_fractionChars (nanos : Nat) :
    ∀ c ∈ Instant.fractionChars nanos, IsTimestampChar c := by
  unfold Instant.fractionChars
  split
  · exact nofun
  · repeat' split
    all_goals
      exact List.forall_mem_cons.2 ⟨.inr (by decide), fun _ hc ↦ .inl (.of_mem_fixed hc)⟩

theorem isTimestampChar_cons_fixed {mark : Char} (h : IsTimestampChar mark) (width n : Nat) :
    ∀ c ∈ mark :: fixed width n, IsTimestampChar c :=
  List.forall_mem_cons.2 ⟨h, fun _ hc ↦ .inl (.of_mem_fixed hc)⟩

theorem isTimestampChar_date (d : Date) : ∀ c ∈ d.chars, IsTimestampChar c := by
  have hminus : IsTimestampChar '-' := .inr (by decide)
  refine List.forall_mem_append.2 ⟨List.forall_mem_append.2 ⟨isTimestampChar_yearChars _, ?_⟩, ?_⟩
  · exact isTimestampChar_cons_fixed hminus 2 d.month
  · exact isTimestampChar_cons_fixed hminus 2 d.day

theorem isTimestampChar_clock (t : Instant) : ∀ c ∈ t.clockChars, IsTimestampChar c := by
  have hcolon : IsTimestampChar ':' := .inr (by decide)
  refine List.forall_mem_append.2 ⟨List.forall_mem_append.2
    ⟨List.forall_mem_append.2 ⟨isTimestampChar_date _, ?_⟩, ?_⟩, ?_⟩
  · exact isTimestampChar_cons_fixed (.inr (by decide)) 2 t.hour
  · exact isTimestampChar_cons_fixed hcolon 2 t.minute
  · exact isTimestampChar_cons_fixed hcolon 2 t.writtenSecond

theorem isTimestampChar_chars (t : Instant) : ∀ c ∈ t.chars, IsTimestampChar c := by
  refine List.forall_mem_append.2 ⟨List.forall_mem_append.2 ⟨isTimestampChar_clock t, ?_⟩, ?_⟩
  · exact isTimestampChar_fractionChars _
  · exact List.forall_mem_singleton.2 (.inr (by decide))

theorem printInstant_eq (t : Instant) :
    printInstant t = Ascii.quote :: ((ascii t.chars).flatMap printByte ++ [Ascii.quote]) := by
  rw [printInstant, flatMap_printByte fun c hc ↦ (isTimestampChar_chars t c hc).isUnescaped]

theorem compactText_printInstant (t : Instant) : CompactText (printInstant t) := by
  rw [printInstant_eq]
  exact .string _

/-! ## Values and events -/

mutual

theorem compactText_print : ∀ v : Value, CompactText v.print
  | .null => .null
  | .bool b => .bool b
  | .number (.int n) => compactText_printInt n
  | .number (.float x) => compactText_printFloat x
  | .string s => .string (utf8 s)
  | .array items => .array (compactText_printItems items)
  | .object members => .object (compactText_printMembers members)

theorem compactText_printItems : ∀ (vs : List Value), ∀ item ∈ printItems vs, CompactText item
  | [] => nofun
  | v :: vs => List.forall_mem_cons.2 ⟨compactText_print v, compactText_printItems vs⟩

theorem compactText_printMembers :
    ∀ (ms : List (String × Value)), ∀ m ∈ printMembers ms, CompactText m.2
  | [] => nofun
  | (_, v) :: ms => List.forall_mem_cons.2 ⟨compactText_print v, compactText_printMembers ms⟩

end

/-! ## Brackets -/

/-- The text opens at most so many brackets within each other, and closes all that it opens. -/
def OpensAtMost (depth : Nat) (text : Bytes) : Prop :=
  ∀ level rest, nestingFrom .outside level (text ++ rest) ≤
    max (level + depth) (nestingFrom .outside level rest)

namespace OpensAtMost

variable {depth : Nat} {text more : Bytes}

theorem append (h : OpensAtMost depth text) (hmore : OpensAtMost depth more) :
    OpensAtMost depth (text ++ more) := by
  intro level rest
  have := h level (more ++ rest)
  have := hmore level rest
  rw [List.append_assoc]
  omega

theorem of_isPlain (h : ∀ b ∈ text, IsPlain b) : OpensAtMost depth text := by
  intro level rest
  rw [nestingFrom_plain_append h]
  exact Nat.le_max_right _ _

theorem enclose (h : OpensAtMost depth text) {first last : UInt8}
    (hfirst : first = Ascii.openBracket ∨ first = Ascii.openBrace)
    (hlast : last = Ascii.closeBracket ∨ last = Ascii.closeBrace) :
    OpensAtMost (depth + 1) (first :: (text ++ [last])) := by
  intro level rest
  have htext := h (level + 1) (last :: rest)
  rw [nestingFrom_close_cons hlast, Nat.add_sub_cancel] at htext
  rw [List.cons_append, nestingFrom_open_cons hfirst, List.append_assoc, List.singleton_append]
  omega

theorem separate {items : List Bytes} (h : ∀ item ∈ items, OpensAtMost depth item) :
    OpensAtMost depth (separate [Ascii.comma] items) :=
  separate_of_append (of_isPlain nofun) append (of_isPlain (forall_mem_of_all rfl)) h

theorem printByte (b : UInt8) (level : Nat) (rest : Bytes) :
    nestingFrom .quoted level (printByte b ++ rest) = nestingFrom .quoted level rest := by
  have hhex : ∀ n < 16, Ascii.hexByte n ≠ Ascii.quote ∧ Ascii.hexByte n ≠ Ascii.backslash := by
    decide
  have hb := b.toNat_lt
  obtain ⟨hhigh, hhigh'⟩ := hhex (b.toNat / 16) (by omega)
  obtain ⟨hlow, hlow'⟩ := hhex (b.toNat % 16) (by omega)
  have hzero : Ascii.zero ≠ Ascii.quote ∧ Ascii.zero ≠ Ascii.backslash := by decide
  unfold Json.printByte
  split
  · rfl
  · next hplain =>
    obtain ⟨hquote, hbackslash⟩ := not_or.1 hplain
    iterate 5
      split
      · rfl
    split
    · calc nestingFrom .quoted level ([Ascii.backslash, Ascii.lowerU, Ascii.zero, Ascii.zero,
            Ascii.hexByte (b.toNat / 16), Ascii.hexByte (b.toNat % 16)] ++ rest)
          = nestingFrom .quoted level (Ascii.zero :: Ascii.zero ::
              Ascii.hexByte (b.toNat / 16) :: Ascii.hexByte (b.toNat % 16) :: rest) := rfl
        _ = nestingFrom .quoted level rest := by
          rw [nestingFrom_quoted_cons hzero.1 hzero.2, nestingFrom_quoted_cons hzero.1 hzero.2,
            nestingFrom_quoted_cons hhigh hhigh', nestingFrom_quoted_cons hlow hlow']
    · exact nestingFrom_quoted_cons hquote hbackslash level rest

theorem quoted (raw : Bytes) :
    OpensAtMost depth (Ascii.quote :: (raw.flatMap Json.printByte ++ [Ascii.quote])) := by
  intro level rest
  have hraw : nestingFrom .quoted level (raw.flatMap Json.printByte ++ [Ascii.quote] ++ rest) =
      nestingFrom .outside level rest := by
    induction raw with
    | nil => rfl
    | cons b raw ih => rw [List.flatMap_cons, List.append_assoc, List.append_assoc, printByte,
        ← List.append_assoc, ih]
  rw [List.cons_append, nestingFrom_quote_cons, hraw]
  exact Nat.le_max_right _ _

theorem compactObject {members : List (String × Bytes)}
    (h : ∀ m ∈ members, OpensAtMost depth m.2) :
    OpensAtMost (depth + 1) (compactObject members) := by
  apply enclose _ (.inr rfl) (.inr rfl)
  apply separate
  intro item hitem
  obtain ⟨m, hm, rfl⟩ := List.mem_map.1 hitem
  have hcolon : OpensAtMost depth [Ascii.colon] := of_isPlain (forall_mem_of_all rfl)
  exact (quoted _).append (hcolon.append (h m hm))

theorem printFloat (x : Binary64) : OpensAtMost depth (printFloat x) := by
  apply of_isPlain
  unfold Json.printFloat
  split
  · intro b hb
    obtain ⟨c, hc, rfl⟩ := List.mem_map.1 hb
    exact isPlain_of_isNumeric (isNumeralChar_binary64 x c hc).isNumeric
  · exact forall_mem_of_all rfl

theorem printInstant (t : Instant) : OpensAtMost depth (printInstant t) := by
  rw [printInstant_eq]
  exact quoted _

end OpensAtMost

end Json

open Json Text

theorem compactText_tagsJson (t : Tags) : CompactText t.json := by
  apply CompactText.object
  simp only [List.forall_mem_cons]
  exact ⟨.string _, .string _, .string _, .string _, .string _, nofun⟩

/-- Every event is printed as compact text. -/
theorem compactText_eventJson (e : Event) : CompactText e.json := by
  apply CompactText.object
  simp only [List.forall_mem_cons]
  exact ⟨.string _, compactText_tagsJson e.tags, compactText_printInstant _,
    compactText_printInstant _, compactText_printFloat _, nofun⟩

theorem opensAtMost_tagsJson (t : Tags) : OpensAtMost 1 t.json := by
  apply OpensAtMost.compactObject
  simp only [List.forall_mem_cons]
  exact ⟨.quoted _, .quoted _, .quoted _, .quoted _, .quoted _, nofun⟩

/-- An event opens an object for itself, and one for its tags. -/
theorem nesting_eventJson_le (e : Event) : nesting e.json ≤ 2 := by
  have hevent : OpensAtMost 2 e.json := by
    apply OpensAtMost.compactObject
    simp only [List.forall_mem_cons]
    exact ⟨.quoted _, opensAtMost_tagsJson e.tags, .printInstant _, .printInstant _,
      .printFloat _, nofun⟩
  have h := hevent 0 []
  rw [List.append_nil] at h
  exact h

end HourlyUsage
