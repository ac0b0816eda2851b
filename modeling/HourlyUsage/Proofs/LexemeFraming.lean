import HourlyUsage.Json.Value
import Mathlib.Data.List.DropRight

/-!
# Numbers and strings inside longer texts

A reader that succeeds looks only at the bytes that it takes, up to one behind a
number.  So what is read from a text of its own is read just as well in front of
a comma or of white space.  Brackets within strings open nothing, and numbers
and words hold none.
-/

namespace HourlyUsage
namespace Json

open Text

/-! ## Open brackets -/

/-- Where a byte stands: outside of strings, in one, or behind a backslash in one. -/
inductive Place where
  | outside
  | quoted
  | escaped

/-- The greatest number of arrays and objects that are open at once, when `level` of them are open
in front of the text. -/
def nestingFrom : Place → (level : Nat) → Bytes → Nat
  | _, level, [] => level
  | .outside, level, b :: bs =>
    if b = Ascii.quote then nestingFrom .quoted level bs
    else if b = Ascii.openBracket ∨ b = Ascii.openBrace then nestingFrom .outside (level + 1) bs
    else if b = Ascii.closeBracket ∨ b = Ascii.closeBrace then
      max level (nestingFrom .outside (level - 1) bs)
    else nestingFrom .outside level bs
  | .quoted, level, b :: bs =>
    if b = Ascii.quote then nestingFrom .outside level bs
    else if b = Ascii.backslash then nestingFrom .escaped level bs
    else nestingFrom .quoted level bs
  | .escaped, level, _ :: bs => nestingFrom .quoted level bs

/-- The greatest number of arrays and objects of a text that are open at once. -/
def nesting (text : Bytes) : Nat := nestingFrom .outside 0 text

theorem le_nestingFrom (p : Place) (level : Nat) (bs : Bytes) : level ≤ nestingFrom p level bs := by
  induction bs generalizing p level with
  | nil => simp [nestingFrom]
  | cons b bs ih =>
      cases p with
      | outside =>
          rw [nestingFrom]
          split
          · exact ih .quoted level
          · split
            · exact Nat.le_of_succ_le (ih .outside (level + 1))
            · split
              · exact Nat.le_max_left _ _
              · exact ih .outside level
      | quoted =>
          rw [nestingFrom]
          split
          · exact ih .outside level
          · split
            · exact ih .escaped level
            · exact ih .quoted level
      | escaped => exact ih .quoted level

/-- What is checked of each item of a list holds of them all.  Deciding the second directly may try
all bytes or all characters there are. -/
theorem forall_mem_of_all {α : Type} {p : α → Prop} [DecidablePred p] {l : List α}
    (h : (l.all fun a ↦ decide (p a)) = true) : ∀ a ∈ l, p a := by
  simpa using h

/-- Is the byte neither a bracket nor a quote? -/
def IsPlain (b : UInt8) : Prop :=
  b ≠ Ascii.quote ∧ b ≠ Ascii.openBracket ∧ b ≠ Ascii.openBrace ∧ b ≠ Ascii.closeBracket ∧
    b ≠ Ascii.closeBrace

instance (b : UInt8) : Decidable (IsPlain b) :=
  inferInstanceAs (Decidable (b ≠ Ascii.quote ∧ b ≠ Ascii.openBracket ∧ b ≠ Ascii.openBrace ∧
    b ≠ Ascii.closeBracket ∧ b ≠ Ascii.closeBrace))

theorem nestingFrom_plain_cons {b : UInt8} (h : IsPlain b) (level : Nat) (bs : Bytes) :
    nestingFrom .outside level (b :: bs) = nestingFrom .outside level bs := by
  obtain ⟨h₁, h₂, h₃, h₄, h₅⟩ := h
  rw [nestingFrom, if_neg h₁, if_neg (not_or.2 ⟨h₂, h₃⟩), if_neg (not_or.2 ⟨h₄, h₅⟩)]

theorem nestingFrom_plain_append {front : Bytes} (h : ∀ b ∈ front, IsPlain b) (level : Nat)
    (bs : Bytes) : nestingFrom .outside level (front ++ bs) = nestingFrom .outside level bs := by
  induction front with
  | nil => rfl
  | cons b front ih =>
      rw [List.cons_append, nestingFrom_plain_cons (h b (List.mem_cons_self ..)),
        ih fun c hc ↦ h c (List.mem_cons_of_mem b hc)]

theorem nestingFrom_quote_cons (level : Nat) (bs : Bytes) :
    nestingFrom .outside level (Ascii.quote :: bs) = nestingFrom .quoted level bs := rfl

theorem nestingFrom_open_cons {b : UInt8} (h : b = Ascii.openBracket ∨ b = Ascii.openBrace)
    (level : Nat) (bs : Bytes) :
    nestingFrom .outside level (b :: bs) = nestingFrom .outside (level + 1) bs := by
  rcases h with rfl | rfl <;> rfl

theorem nestingFrom_close_cons {b : UInt8} (h : b = Ascii.closeBracket ∨ b = Ascii.closeBrace)
    (level : Nat) (bs : Bytes) :
    nestingFrom .outside level (b :: bs) = max level (nestingFrom .outside (level - 1) bs) := by
  rcases h with rfl | rfl <;> rfl

/-! ## White space -/

theorem isPlain_of_isSpace {b : UInt8} (h : isSpace b = true) : IsPlain b := by
  simp only [isSpace, Bool.or_eq_true, beq_iff_eq] at h
  rcases h with ((rfl | rfl) | rfl) | rfl <;> decide

theorem isSpace_of_isDigit {b : UInt8} (h : Ascii.isDigit b = true) : isSpace b = false := by
  rw [Bool.eq_false_iff]
  intro hspace
  simp only [isSpace, Bool.or_eq_true, beq_iff_eq] at hspace
  rcases hspace with ((rfl | rfl) | rfl) | rfl <;> exact absurd h (by decide)

theorem nestingFrom_skipSpace (level : Nat) (bs : Bytes) :
    nestingFrom .outside level bs = nestingFrom .outside level (skipSpace bs) := by
  have hspace : ∀ b ∈ bs.takeWhile isSpace, IsPlain b := fun b hb ↦
    isPlain_of_isSpace (List.mem_takeWhile_imp hb)
  have h := nestingFrom_plain_append hspace level (bs.dropWhile isSpace)
  rwa [List.takeWhile_append_dropWhile] at h

@[simp] theorem skipSpace_skipSpace (bs : Bytes) : skipSpace (skipSpace bs) = skipSpace bs :=
  List.dropWhile_idempotent isSpace bs

theorem skipSpace_append_of_cons {bs rest : Bytes} {b : UInt8} (h : skipSpace bs = b :: rest)
    (suffix : Bytes) : skipSpace (bs ++ suffix) = b :: (rest ++ suffix) := by
  simp only [skipSpace] at h ⊢
  rw [List.dropWhile_append, h]
  rfl

theorem skipSpace_append_of_nil {bs : Bytes} (h : skipSpace bs = []) (suffix : Bytes) :
    skipSpace (bs ++ suffix) = skipSpace suffix := by
  simp only [skipSpace] at h ⊢
  rw [List.dropWhile_append, h]
  rfl

/-! ## What may follow a value -/

/-- Nothing follows, or a comma or white space does. -/
def EndsValue (suffix : Bytes) : Prop :=
  ∀ b ∈ suffix.head?, isSpace b = true ∨ b = Ascii.comma

theorem endsValue_nil : EndsValue [] := by
  intro b hb
  cases hb

theorem EndsValue.head_spec {suffix : Bytes} (h : EndsValue suffix) :
    ∀ b ∈ suffix.head?, Ascii.isDigit b = false ∧ b ≠ Ascii.point ∧ b ≠ Ascii.lowerE ∧
      b ≠ Ascii.upperE := by
  intro b hb
  have hb := h b hb
  simp only [isSpace, Bool.or_eq_true, beq_iff_eq] at hb
  rcases hb with (((rfl | rfl) | rfl) | rfl) | rfl <;> decide

/-! ## Numbers -/

/-- The bytes that numbers are written with. -/
def IsNumeric (b : UInt8) : Prop :=
  Ascii.isDigit b = true ∨ b = Ascii.minus ∨ b = Ascii.plus ∨ b = Ascii.point ∨ b = Ascii.lowerE ∨
    b = Ascii.upperE

theorem isPlain_of_isNumeric {b : UInt8} (h : IsNumeric b) : IsPlain b := by
  rcases h with h | rfl | rfl | rfl | rfl | rfl
  · refine ⟨?_, ?_, ?_, ?_, ?_⟩
    all_goals
      rintro rfl
      revert h
      decide
  all_goals decide

theorem bind_eq_ok {ε α β : Type} {x : Except ε α} {f : α → Except ε β} {b : β} :
    x >>= f = .ok b ↔ ∃ a, x = .ok a ∧ f a = .ok b := by
  cases x with
  | error e => exact ⟨nofun, nofun⟩
  | ok a => exact ⟨fun h ↦ ⟨a, rfl, h⟩, fun ⟨_, ha, h⟩ ↦ Except.ok.inj ha ▸ h⟩

theorem map_eq_ok {ε α β : Type} {x : Except ε α} {f : α → β} {b : β} (h : x.map f = .ok b) :
    ∃ a, x = .ok a ∧ f a = b := by
  cases x with
  | error e => cases h
  | ok a => exact ⟨a, rfl, Except.ok.inj h⟩

/-- Nothing follows, or something else than a digit does. -/
def EndsRun (suffix : Bytes) : Prop := ∀ b ∈ suffix.head?, Ascii.isDigit b = false

theorem EndsValue.endsRun {suffix : Bytes} (h : EndsValue suffix) : EndsRun suffix :=
  fun b hb ↦ (h.head_spec b hb).1

theorem takeWhile_isDigit_append (bs : Bytes) {suffix : Bytes} (h : EndsRun suffix) :
    (bs ++ suffix).takeWhile Ascii.isDigit = bs.takeWhile Ascii.isDigit ∧
      (bs ++ suffix).dropWhile Ascii.isDigit = bs.dropWhile Ascii.isDigit ++ suffix := by
  induction bs with
  | nil =>
      cases suffix with
      | nil => simp
      | cons b suffix => simp [h b rfl]
  | cons b bs ih => by_cases hb : Ascii.isDigit b = true <;> simp [hb, ih]

namespace Numeral

/-- What a reader of a part of a number does with the bytes behind that part. -/
def IsLocal {α : Type} (read : Reader α) : Prop :=
  ∀ {bs rest : Bytes} {a : α}, read bs = .ok (a, rest) →
    (∃ used, bs = used ++ rest ∧ ∀ b ∈ used, IsNumeric b) ∧
      ∀ suffix, EndsValue suffix → read (bs ++ suffix) = .ok (a, rest ++ suffix)

theorem isNumeric_of_mem_takeWhile {b : UInt8} {bs : Bytes}
    (h : b ∈ bs.takeWhile Ascii.isDigit) : IsNumeric b := .inl (List.mem_takeWhile_imp h)

theorem isLocal_readWhole (atEnd : Cause) : IsLocal (readWhole atEnd) := by
  intro bs rest whole h
  cases bs with
  | nil => cases h
  | cons b bs =>
      rw [readWhole] at h
      split at h
      · next hzero =>
        split at h
        · cases h
        · next hhead =>
          obtain ⟨rfl, rfl⟩ := Prod.mk.inj (Except.ok.inj h)
          refine ⟨⟨[b], rfl, ?_⟩, fun suffix hsuffix ↦ ?_⟩
          · intro c hc
            obtain rfl := List.mem_singleton.1 hc
            exact .inl (hzero ▸ by decide)
          · have hhead' : ¬ (bs ++ suffix).head?.any Ascii.isDigit = true := by
              cases bs with
              | cons c bs => exact hhead
              | nil =>
                  cases suffix with
                  | nil => simp
                  | cons c suffix => simp [(hsuffix.head_spec c rfl).1]
            rw [List.cons_append, readWhole, if_pos hzero, if_neg hhead']
      · next hzero =>
        split at h
        · next hdigit =>
          obtain ⟨rfl, rfl⟩ := Prod.mk.inj (Except.ok.inj h)
          refine ⟨⟨b :: bs.takeWhile Ascii.isDigit, ?_, ?_⟩, fun suffix hsuffix ↦ ?_⟩
          · rw [List.cons_append, List.takeWhile_append_dropWhile]
          · intro c hc
            rcases List.mem_cons.1 hc with rfl | hc
            · exact .inl hdigit
            · exact isNumeric_of_mem_takeWhile hc
          · obtain ⟨htake, hdrop⟩ := takeWhile_isDigit_append bs hsuffix.endsRun
            rw [List.cons_append, readWhole, if_neg hzero, if_pos hdigit, htake, hdrop]
        · cases h

theorem isLocal_readFraction (atEnd : Cause) : IsLocal (readFraction atEnd) := by
  intro bs rest fraction h
  unfold readFraction at h
  split at h
  · next bs =>
    by_cases hempty : (bs.takeWhile Ascii.isDigit).isEmpty = true
    · simp only [if_pos hempty] at h
      cases h
    · simp only [if_neg hempty] at h
      obtain ⟨rfl, rfl⟩ := Prod.mk.inj (Except.ok.inj h)
      refine ⟨⟨Ascii.point :: bs.takeWhile Ascii.isDigit, ?_, ?_⟩, fun suffix hsuffix ↦ ?_⟩
      · rw [List.cons_append, List.takeWhile_append_dropWhile]
        rfl
      · intro c hc
        rcases List.mem_cons.1 hc with rfl | hc
        · exact .inr (.inr (.inr (.inl rfl)))
        · exact isNumeric_of_mem_takeWhile hc
      · obtain ⟨htake, hdrop⟩ := takeWhile_isDigit_append bs hsuffix.endsRun
        rw [List.cons_append]
        simp only [readFraction, htake, hdrop, if_neg hempty]
  · next hpoint =>
    obtain ⟨rfl, rfl⟩ := Prod.mk.inj (Except.ok.inj h)
    refine ⟨⟨[], rfl, nofun⟩, fun suffix hsuffix ↦ ?_⟩
    unfold readFraction
    split
    · next rest heq =>
      cases bs with
      | cons b bs =>
          obtain rfl : b = Ascii.point := (List.cons.inj heq).1
          exact (hpoint bs rfl).elim
      | nil => exact ((hsuffix.head_spec Ascii.point (by simp_all)).2.1 rfl).elim
    · rfl

theorem splitSign_append {bs rest : Bytes} {negative : Bool} {d : UInt8}
    (h : splitSign bs = (negative, d :: rest)) :
    (∃ used, bs = used ++ d :: rest ∧ ∀ b ∈ used, IsNumeric b) ∧
      ∀ suffix, splitSign (bs ++ suffix) = (negative, d :: (rest ++ suffix)) := by
  unfold splitSign at h
  split at h
  · obtain ⟨rfl, rfl⟩ := Prod.mk.inj h
    refine ⟨⟨[Ascii.plus], rfl, ?_⟩, fun suffix ↦ rfl⟩
    intro c hc
    obtain rfl := List.mem_singleton.1 hc
    exact .inr (.inr (.inl rfl))
  · obtain ⟨rfl, rfl⟩ := Prod.mk.inj h
    refine ⟨⟨[Ascii.minus], rfl, ?_⟩, fun suffix ↦ rfl⟩
    intro c hc
    obtain rfl := List.mem_singleton.1 hc
    exact .inr (.inl rfl)
  · next hplus hminus =>
    obtain ⟨rfl, rfl⟩ := Prod.mk.inj h
    refine ⟨⟨[], rfl, nofun⟩, fun suffix ↦ ?_⟩
    unfold splitSign
    split
    · next heq =>
      obtain ⟨rfl, -⟩ := List.cons.inj heq
      exact (hplus rest rfl).elim
    · next heq =>
      obtain ⟨rfl, -⟩ := List.cons.inj heq
      exact (hminus rest rfl).elim
    · rfl

theorem isLocal_readExponentDigits (atEnd : Cause) : IsLocal (readExponentDigits atEnd) := by
  intro bs rest exponent h
  unfold readExponentDigits at h
  split at h
  · cases h
  · next negative d tail hsign =>
    obtain ⟨⟨sign, hbs, hnumeric⟩, hsuffixes⟩ := splitSign_append hsign
    split at h
    · next hdigit =>
      obtain ⟨rfl, rfl⟩ := Prod.mk.inj (Except.ok.inj h)
      refine ⟨⟨sign ++ d :: tail.takeWhile Ascii.isDigit, ?_, ?_⟩, fun suffix hsuffix ↦ ?_⟩
      · rw [List.append_assoc, List.cons_append, List.takeWhile_append_dropWhile, ← hbs]
      · intro c hc
        rcases List.mem_append.1 hc with hc | hc
        · exact hnumeric c hc
        · rcases List.mem_cons.1 hc with rfl | hc
          · exact .inl hdigit
          · exact isNumeric_of_mem_takeWhile hc
      · obtain ⟨htake, hdrop⟩ := takeWhile_isDigit_append tail hsuffix.endsRun
        simp only [readExponentDigits, hsuffixes, htake, hdrop, if_pos hdigit]
    · cases h

theorem isLocal_readExponent (atEnd : Cause) : IsLocal (readExponent atEnd) := by
  intro bs rest exponent h
  cases bs with
  | nil =>
      obtain ⟨rfl, rfl⟩ := Prod.mk.inj (Except.ok.inj h)
      refine ⟨⟨[], rfl, nofun⟩, fun suffix hsuffix ↦ ?_⟩
      cases suffix with
      | nil => rfl
      | cons b suffix =>
          obtain ⟨-, -, hlower, hupper⟩ := hsuffix.head_spec b rfl
          rw [List.nil_append, readExponent, if_neg (not_or.2 ⟨hlower, hupper⟩)]
  | cons b bs =>
      rw [readExponent] at h
      split at h
      · next hmark =>
        obtain ⟨⟨e, tail⟩, hdigits, h⟩ := bind_eq_ok.1 h
        obtain ⟨rfl, rfl⟩ := Prod.mk.inj (Except.ok.inj h)
        obtain ⟨⟨used, rfl, hnumeric⟩, hsuffixes⟩ := isLocal_readExponentDigits atEnd hdigits
        refine ⟨⟨b :: used, rfl, ?_⟩, fun suffix hsuffix ↦ ?_⟩
        · intro c hc
          rcases List.mem_cons.1 hc with rfl | hc
          · exact .inr (.inr (.inr (.inr hmark)))
          · exact hnumeric c hc
        · rw [List.cons_append, readExponent, if_pos hmark, hsuffixes suffix hsuffix]
          rfl
      · next hmark =>
        obtain ⟨rfl, rfl⟩ := Prod.mk.inj (Except.ok.inj h)
        refine ⟨⟨[], rfl, nofun⟩, fun suffix hsuffix ↦ ?_⟩
        rw [List.cons_append, readExponent, if_neg hmark]

theorem isLocal_read (atEnd : Cause) : IsLocal (read atEnd) := by
  intro bs rest n h
  obtain ⟨⟨whole, bs₁⟩, hwhole, h⟩ := bind_eq_ok.1 h
  obtain ⟨⟨fraction, bs₂⟩, hfraction, h⟩ := bind_eq_ok.1 h
  obtain ⟨⟨exponent, bs₃⟩, hexponent, h⟩ := bind_eq_ok.1 h
  obtain ⟨rfl, rfl⟩ := Prod.mk.inj (Except.ok.inj h)
  obtain ⟨⟨used₁, rfl, hnumeric₁⟩, hsuffixes₁⟩ := isLocal_readWhole atEnd hwhole
  obtain ⟨⟨used₂, rfl, hnumeric₂⟩, hsuffixes₂⟩ := isLocal_readFraction atEnd hfraction
  obtain ⟨⟨used₃, rfl, hnumeric₃⟩, hsuffixes₃⟩ := isLocal_readExponent atEnd hexponent
  refine ⟨⟨used₁ ++ (used₂ ++ used₃), by simp only [List.append_assoc], ?_⟩,
    fun suffix hsuffix ↦ ?_⟩
  · intro b hb
    rcases List.mem_append.1 hb with hb | hb
    · exact hnumeric₁ b hb
    · rcases List.mem_append.1 hb with hb | hb
      · exact hnumeric₂ b hb
      · exact hnumeric₃ b hb
  · unfold read
    rw [hsuffixes₁ suffix hsuffix]
    simp only [bind, Except.bind]
    rw [hsuffixes₂ suffix hsuffix]
    simp only
    rw [hsuffixes₃ suffix hsuffix]
    rfl

theorem float_eq_ok {n : Numeral} {negative : Bool} {left : Nat} {x : Binary64}
    (h : n.float negative left = .ok x) (left' : Nat) : n.float negative left' = .ok x := by
  unfold float at h ⊢
  cases hexponent : n.exponent with
  | none =>
      simp only [hexponent] at h ⊢
      split at h
      · next hscale => simpa only [hscale] using h
      · cases h
  | some e =>
      obtain ⟨below, ds⟩ := e
      simp only [hexponent] at h ⊢
      cases hgather : gatherExponent 0 ds with
      | ok e =>
          simp only [hgather] at h ⊢
          split at h
          · next hscale => simpa only [hscale] using h
          · cases h
      | error behind =>
          simp only [hgather] at h ⊢
          split at h
          · next hzero => rwa [if_pos hzero]
          · cases h

/-- Only a fault depends on what stands behind a number. -/
theorem number_eq_ok {n : Numeral} {negative : Bool} {left : Nat} {x : Number}
    (h : n.number negative left = .ok x) (left' : Nat) : n.number negative left' = .ok x := by
  unfold number at h ⊢
  simp only at h ⊢
  split at h
  · next hint => rwa [if_pos hint]
  · next hint =>
    rw [if_neg hint]
    cases hfloat : n.float negative left with
    | error e =>
        rw [hfloat] at h
        cases h
    | ok y =>
        rw [hfloat] at h
        rwa [float_eq_ok hfloat left']

end Numeral

theorem number_framing {negative : Bool} {bs rest : Bytes} {x : Number}
    (h : Number.read negative bs = .ok (x, rest)) :
    (∀ level, nestingFrom .outside level bs = nestingFrom .outside level rest) ∧
      ∀ suffix, EndsValue suffix →
        Number.read negative (bs ++ suffix) = .ok (x, rest ++ suffix) := by
  obtain ⟨⟨n, tail⟩, hread, h⟩ := bind_eq_ok.1 h
  obtain ⟨y, hnumber, h⟩ := bind_eq_ok.1 h
  obtain ⟨rfl, rfl⟩ := Prod.mk.inj (Except.ok.inj h)
  obtain ⟨⟨used, rfl, hnumeric⟩, hsuffixes⟩ := Numeral.isLocal_read .eofInValue hread
  refine ⟨fun level ↦ ?_, fun suffix hsuffix ↦ ?_⟩
  · exact nestingFrom_plain_append (fun b hb ↦ isPlain_of_isNumeric (hnumeric b hb)) level tail
  · unfold Number.read
    rw [hsuffixes suffix hsuffix]
    simp only [bind, Except.bind]
    rw [Numeral.number_eq_ok hnumber]
    rfl

/-! ## Words and strings -/

/-- What a reader takes leads from one place to another and opens nothing, and is read just as well
in front of whatever may follow. -/
def IsFramed {α : Type} (p q : Place) (read : Reader α) : Prop :=
  ∀ {bs rest : Bytes} {a : α}, read bs = .ok (a, rest) →
    (∀ level, nestingFrom p level bs = nestingFrom q level rest) ∧
      ∀ suffix, read (bs ++ suffix) = .ok (a, rest ++ suffix)

theorem word_eq_ok {letters bs rest : Bytes} (h : word letters bs = .ok rest) :
    bs = letters ++ rest := by
  induction letters generalizing bs with
  | nil => exact Except.ok.inj h
  | cons e letters ih =>
      cases bs with
      | nil => cases h
      | cons b bs =>
          rw [word] at h
          split at h
          · next hb => rw [hb, ih h, List.cons_append]
          · cases h

theorem word_append (letters rest : Bytes) : word letters (letters ++ rest) = .ok rest := by
  induction letters with
  | nil => rfl
  | cons e letters ih => rw [List.cons_append, word, if_pos rfl, ih]

theorem word_framing {letters bs rest : Bytes} (hletters : ∀ b ∈ letters, IsPlain b)
    (h : word letters bs = .ok rest) :
    (∀ level, nestingFrom .outside level bs = nestingFrom .outside level rest) ∧
      ∀ suffix, word letters (bs ++ suffix) = .ok (rest ++ suffix) := by
  obtain rfl := word_eq_ok h
  refine ⟨fun level ↦ by rw [nestingFrom_plain_append hletters], fun suffix ↦ ?_⟩
  rw [List.append_assoc, word_append]

theorem nestingFrom_quoted_cons {b : UInt8} (hquote : b ≠ Ascii.quote)
    (hbackslash : b ≠ Ascii.backslash) (level : Nat) (bs : Bytes) :
    nestingFrom .quoted level (b :: bs) = nestingFrom .quoted level bs := by
  rw [nestingFrom, if_neg hquote, if_neg hbackslash]

theorem ne_of_hexValue? {b : UInt8} {n : Nat} (h : Ascii.hexValue? b = some n) :
    b ≠ Ascii.quote ∧ b ≠ Ascii.backslash := by
  constructor
  · rintro rfl
    cases h
  · rintro rfl
    cases h

theorem isFramed_codeUnit : IsFramed .quoted .quoted codeUnit := by
  intro bs rest n h
  unfold codeUnit at h
  split at h
  · next a b c d tail =>
    split at h
    · next n' hhex =>
      obtain ⟨rfl, rfl⟩ := Prod.mk.inj (Except.ok.inj h)
      refine ⟨fun level ↦ ?_, fun suffix ↦ ?_⟩
      · obtain ⟨va, ha, hhex⟩ := Option.bind_eq_some_iff.1 hhex
        obtain ⟨vb, hb, hhex⟩ := Option.bind_eq_some_iff.1 hhex
        obtain ⟨vc, hc, hhex⟩ := Option.bind_eq_some_iff.1 hhex
        obtain ⟨vd, hd, -⟩ := Option.bind_eq_some_iff.1 hhex
        have ha := ne_of_hexValue? ha
        have hb := ne_of_hexValue? hb
        have hc := ne_of_hexValue? hc
        have hd := ne_of_hexValue? hd
        rw [nestingFrom_quoted_cons ha.1 ha.2, nestingFrom_quoted_cons hb.1 hb.2,
          nestingFrom_quoted_cons hc.1 hc.2, nestingFrom_quoted_cons hd.1 hd.2]
      · simp only [List.cons_append, codeUnit, hhex]
    · cases h
  · cases h

theorem pairMark_eq_ok {mark : UInt8} {bs rest : Bytes} (h : pairMark mark bs = .ok rest) :
    bs = mark :: rest := by
  cases bs with
  | nil => cases h
  | cons b bs =>
      rw [pairMark] at h
      split at h
      · next hb => rw [hb, Except.ok.inj h]
      · cases h

theorem isFramed_numericEscape : IsFramed .quoted .quoted numericEscape := by
  intro bs rest c h
  obtain ⟨⟨n, bs₁⟩, hunit, h⟩ := bind_eq_ok.1 h
  obtain ⟨hnesting, hsuffixes⟩ := isFramed_codeUnit hunit
  by_cases hlow : 0xDC00 ≤ n ∧ n ≤ 0xDFFF
  · simp only [if_pos hlow] at h
    cases h
  simp only [if_neg hlow] at h
  by_cases hhigh : 0xD800 ≤ n ∧ n ≤ 0xDBFF
  · simp only [if_pos hhigh] at h
    obtain ⟨bs₂, hslash, hrest⟩ := bind_eq_ok.1 h
    obtain ⟨bs₃, hletter, hrest⟩ := bind_eq_ok.1 hrest
    obtain ⟨⟨low, bs₄⟩, hunit', hlast⟩ := bind_eq_ok.1 hrest
    obtain rfl := pairMark_eq_ok hslash
    obtain rfl := pairMark_eq_ok hletter
    obtain ⟨hnesting', hsuffixes'⟩ := isFramed_codeUnit hunit'
    by_cases hpair : 0xDC00 ≤ low ∧ low ≤ 0xDFFF
    · simp only [if_pos hpair] at hlast
      obtain ⟨rfl, rfl⟩ := Prod.mk.inj (Except.ok.inj hlast)
      refine ⟨fun level ↦ ?_, fun suffix ↦ ?_⟩
      · rw [hnesting, ← hnesting']
        rfl
      · unfold numericEscape
        rw [hsuffixes]
        simp only [bind, Except.bind, if_neg hlow, if_pos hhigh, List.cons_append, pairMark,
          if_true, hsuffixes', if_pos hpair]
        rfl
    · simp only [if_neg hpair] at hlast
      cases hlast
  · simp only [if_neg hhigh] at h
    obtain ⟨rfl, rfl⟩ := Prod.mk.inj (Except.ok.inj h)
    refine ⟨hnesting, fun suffix ↦ ?_⟩
    unfold numericEscape
    rw [hsuffixes]
    simp only [bind, Except.bind, if_neg hlow, if_neg hhigh]
    rfl

theorem isFramed_escape : IsFramed .escaped .quoted escape := by
  intro bs rest e h
  cases bs with
  | nil => cases h
  | cons b bs =>
      rw [escape] at h
      split at h
      · next hb =>
        obtain ⟨⟨c, tail⟩, hnumeric, h⟩ := bind_eq_ok.1 h
        obtain ⟨rfl, rfl⟩ := Prod.mk.inj (Except.ok.inj h)
        obtain ⟨hnesting, hsuffixes⟩ := isFramed_numericEscape hnumeric
        refine ⟨hnesting, fun suffix ↦ ?_⟩
        rw [List.cons_append, escape, if_pos hb, hsuffixes]
        rfl
      · next hb =>
        split at h
        · next e' hplain =>
          obtain ⟨rfl, rfl⟩ := Prod.mk.inj (Except.ok.inj h)
          refine ⟨fun level ↦ rfl, fun suffix ↦ ?_⟩
          rw [List.cons_append, escape, if_neg hb]
          simp only [hplain]
        · cases h

theorem stringBytes_eq_ok {fuel : Nat} {bs rest s : Bytes}
    (h : stringBytes fuel bs = .ok (s, rest)) :
    (∀ level, nestingFrom .quoted level bs = nestingFrom .outside level rest) ∧
      ∀ suffix more, fuel ≤ more → stringBytes more (bs ++ suffix) = .ok (s, rest ++ suffix) := by
  induction fuel generalizing bs s with
  | zero => cases h
  | succ fuel ih =>
      cases bs with
      | nil => cases h
      | cons b bs =>
          -- as much fuel as before is there for the bytes behind the first
          have hfuel : ∀ {more : Nat}, fuel + 1 ≤ more → ∃ n, more = n + 1 ∧ fuel ≤ n :=
            fun {more} hmore ↦ ⟨more - 1, by omega, by omega⟩
          rw [stringBytes] at h
          split at h
          · next hquote =>
            obtain ⟨rfl, rfl⟩ := Prod.mk.inj (Except.ok.inj h)
            refine ⟨fun level ↦ by rw [nestingFrom, if_pos hquote], fun suffix more hmore ↦ ?_⟩
            obtain ⟨n, rfl, -⟩ := hfuel hmore
            rw [List.cons_append, stringBytes, if_pos hquote]
          · next hquote =>
            split at h
            · next hbackslash =>
              obtain ⟨⟨e, tail⟩, hescape, h⟩ := bind_eq_ok.1 h
              obtain ⟨⟨s', rest'⟩, hrest, h⟩ := bind_eq_ok.1 h
              obtain ⟨rfl, rfl⟩ := Prod.mk.inj (Except.ok.inj h)
              obtain ⟨hnesting, hsuffixes⟩ := isFramed_escape hescape
              obtain ⟨hnesting', hsuffixes'⟩ := ih hrest
              refine ⟨fun level ↦ ?_, fun suffix more hmore ↦ ?_⟩
              · rw [nestingFrom, if_neg hquote, if_pos hbackslash, hnesting, hnesting']
              · obtain ⟨n, rfl, hn⟩ := hfuel hmore
                rw [List.cons_append, stringBytes, if_neg hquote, if_pos hbackslash, hsuffixes]
                simp only [bind, Except.bind]
                rw [hsuffixes' suffix n hn]
                rfl
            · next hbackslash =>
              split at h
              · cases h
              · next hcontrol =>
                obtain ⟨⟨s', rest'⟩, hrest, h⟩ := bind_eq_ok.1 h
                obtain ⟨rfl, rfl⟩ := Prod.mk.inj (Except.ok.inj h)
                obtain ⟨hnesting, hsuffixes⟩ := ih hrest
                refine ⟨fun level ↦ ?_, fun suffix more hmore ↦ ?_⟩
                · rw [nestingFrom_quoted_cons hquote hbackslash, hnesting]
                · obtain ⟨n, rfl, hn⟩ := hfuel hmore
                  rw [List.cons_append, stringBytes, if_neg hquote, if_neg hbackslash,
                    if_neg hcontrol, hsuffixes suffix n hn]
                  rfl

theorem isFramed_string : IsFramed .quoted .outside string := by
  intro bs rest s h
  obtain ⟨⟨raw, tail⟩, hraw, h⟩ := bind_eq_ok.1 h
  obtain ⟨hnesting, hsuffixes⟩ := stringBytes_eq_ok hraw
  simp only at h
  split at h
  · next s' hs' =>
    obtain ⟨rfl, rfl⟩ := Prod.mk.inj (Except.ok.inj h)
    refine ⟨hnesting, fun suffix ↦ ?_⟩
    unfold string
    rw [hsuffixes suffix _ (by simp)]
    simp only [bind, Except.bind, hs']
    rfl
  · cases h

end Json
end HourlyUsage
