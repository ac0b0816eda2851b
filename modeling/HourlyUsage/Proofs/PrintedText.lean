import HourlyUsage.Proofs.EventText

/-!
# Printed events are text

The bytes of a character are one byte below `0x80` or all above it, and printing a string changes
only the former, into others of their kind.  So the JSON of every event is the UTF-8 text of some
string, and as it begins with a brace it is not white space.
-/

namespace HourlyUsage

open Text Json

/-! ## Bytes of one character -/

namespace Text

theorem utf8_eq_charBytes (s : String) : utf8 s = charBytes s.toList := by
  rw [charBytes, String.ofList_toList]

theorem charBytes_singleton (c : Char) : charBytes [c] = String.utf8EncodeChar c := by
  simp [charBytes, utf8, List.utf8Encode]

theorem charBytes_low {c : Char} (h : c.toNat < 0x80) : charBytes [c] = [UInt8.ofNat c.toNat] := by
  have hlow : c.val.toNat ≤ 0x7F := Nat.le_of_lt_succ h
  rw [charBytes_singleton]
  simp only [String.utf8EncodeChar, if_pos hlow]
  rfl

theorem charBytes_high {c : Char} (h : 0x80 ≤ c.toNat) :
    charBytes [c] ≠ [] ∧ ∀ b ∈ charBytes [c], 0x80 ≤ b := by
  have hmark : ∀ n m, 0x80 ≤ m ∧ n + m < 0x100 → (0x80 : UInt8) ≤ UInt8.ofNat (n + m) := by
    intro n m hm
    rw [UInt8.le_iff_toNat_le, UInt8.toNat_ofNat', Nat.mod_eq_of_lt hm.2]
    exact Nat.le_trans hm.1 (Nat.le_add_left m n)
  have hhigh : ¬ c.val.toNat ≤ 0x7F := Nat.not_le.2 h
  rw [charBytes_singleton]
  simp only [String.utf8EncodeChar, if_neg hhigh]
  split
  · simp only [List.forall_mem_cons]
    exact ⟨nofun, hmark _ _ (by omega), hmark _ _ (by omega), nofun⟩
  · split
    · simp only [List.forall_mem_cons]
      exact ⟨nofun, hmark _ _ (by omega), hmark _ _ (by omega), hmark _ _ (by omega), nofun⟩
    · simp only [List.forall_mem_cons]
      exact ⟨nofun, hmark _ _ (by omega), hmark _ _ (by omega), hmark _ _ (by omega),
        hmark _ _ (by omega), nofun⟩

/-- A character below `0x80` is found among the bytes of a text where it is among its characters. -/
theorem mem_charBytes_iff {c : Char} (hc : c.toNat < 0x80) {cs : List Char} :
    UInt8.ofNat c.toNat ∈ charBytes cs ↔ c ∈ cs := by
  have hcode : (UInt8.ofNat c.toNat).toNat = c.toNat := by
    rw [UInt8.toNat_ofNat', Nat.mod_eq_of_lt (by omega)]
  induction cs with
  | nil => simp [charBytes, utf8]
  | cons d cs ih =>
      have hd : UInt8.ofNat c.toNat ∈ charBytes [d] ↔ c = d := by
        constructor
        · intro hmem
          rcases Nat.lt_or_ge d.toNat 0x80 with hlow | hhigh
          · rw [charBytes_low hlow, List.mem_singleton] at hmem
            have hcodes := congrArg UInt8.toNat hmem
            rw [hcode, UInt8.toNat_ofNat', Nat.mod_eq_of_lt (by omega)] at hcodes
            exact Char.toNat_inj.1 hcodes
          · have hle := UInt8.le_iff_toNat_le.1 ((charBytes_high hhigh).2 _ hmem)
            rw [hcode] at hle
            exact absurd hle (Nat.not_le.2 hc)
        · rintro rfl
          rw [charBytes_low hc]
          exact List.mem_singleton_self _
      rw [charBytes_cons, List.mem_append, List.mem_cons, hd]
      exact or_congr_right ih

/-! ## Bytes that are text -/

def IsText (bytes : Bytes) : Prop := ∃ s : String, utf8 s = bytes

namespace IsText

theorem append {a b : Bytes} : IsText a → IsText b → IsText (a ++ b) := by
  rintro ⟨s, rfl⟩ ⟨t, rfl⟩
  exact ⟨s ++ t, utf8_append s t⟩

theorem of_lt {bytes : Bytes} (h : ∀ b ∈ bytes, b < 0x80) : IsText bytes := by
  induction bytes with
  | nil => exact ⟨"", rfl⟩
  | cons b bytes ih =>
      obtain ⟨hb, hbytes⟩ := List.forall_mem_cons.1 h
      have hchar : ∀ n < 128, utf8 (String.ofList [Char.ofNat n]) = [UInt8.ofNat n] := by
        decide
      have hfirst := hchar b.toNat (UInt8.lt_iff_toNat_lt.1 hb)
      rw [UInt8.ofNat_toNat] at hfirst
      exact append ⟨_, hfirst⟩ (ih hbytes)

theorem of_all {bytes : Bytes} (h : (bytes.all fun b ↦ decide (b < 0x80)) = true) :
    IsText bytes := of_lt (forall_mem_of_all h)

theorem flatMap_printByte (s : String) : IsText ((utf8 s).flatMap printByte) := by
  rw [utf8_eq_charBytes]
  induction s.toList with
  | nil => exact ⟨"", rfl⟩
  | cons c cs ih =>
      rw [charBytes_cons, List.flatMap_append]
      apply append _ ih
      rcases Nat.lt_or_ge c.toNat 0x80 with hlow | hhigh
      · have hescape : ∀ n < 128,
            ((printByte (UInt8.ofNat n)).all fun b ↦ decide (b < 0x80)) = true := by decide
        rw [charBytes_low hlow, List.flatMap_singleton]
        exact of_all (hescape _ hlow)
      · have hplain : ∀ b ∈ charBytes [c], printByte b = [b] := by
          intro b hb
          have hcopy : ∀ n < 128, printByte (UInt8.ofNat (n + 128)) = [UInt8.ofNat (n + 128)] := by
            decide
          have hlarge := UInt8.le_iff_toNat_le.1 ((charBytes_high hhigh).2 b hb)
          rw [UInt8.toNat_ofNat] at hlarge
          have hb := hcopy (b.toNat - 128) (Nat.sub_lt_left_of_lt_add hlarge b.toNat_lt)
          rwa [Nat.sub_add_cancel hlarge, UInt8.ofNat_toNat] at hb
        rw [List.flatMap_congr hplain, List.flatMap_singleton']
        exact ⟨_, rfl⟩

/-- In front of an ASCII character of a text stands text. -/
theorem of_append_cons {cs : List Char} {front rest : Bytes} {b : UInt8} (hb : b < 0x80)
    (h : charBytes cs = front ++ b :: rest) : IsText front := by
  induction cs generalizing front with
  | nil => simp [charBytes, utf8] at h
  | cons c cs ih =>
      rw [charBytes_cons, List.append_eq_append_iff] at h
      rcases h with ⟨more, rfl, hcs⟩ | ⟨tail, hc, htail⟩
      · exact append ⟨_, rfl⟩ (ih hcs)
      · cases tail with
        | nil =>
            rw [List.append_nil] at hc
            exact ⟨_, hc⟩
        | cons d tail =>
            obtain ⟨rfl, -⟩ := List.cons.inj htail
            have hmem : b ∈ charBytes [c] := hc ▸ List.mem_append_right _ (List.mem_cons_self ..)
            rcases Nat.lt_or_ge c.toNat 0x80 with hlow | hhigh
            · rw [charBytes_low hlow] at hc
              cases front with
              | nil => exact ⟨"", rfl⟩
              | cons _ front => simp at hc
            · exact absurd hb (UInt8.not_lt.2 ((charBytes_high hhigh).2 b hmem))

end IsText
end Text

/-! ## Printed events are text -/

namespace Json

theorem isText_printString (s : String) : IsText (printString s) := by
  have hquote : IsText [Ascii.quote] := .of_all rfl
  exact hquote.append ((IsText.flatMap_printByte s).append hquote)

theorem isText_printInstant (t : Instant) : IsText (printInstant t) := by
  rw [printInstant_eq_printString]
  exact isText_printString _

theorem isText_numeral {cs : List Char} (h : ∀ c ∈ cs, IsNumeralChar c) : IsText (ascii cs) := by
  apply IsText.of_lt
  intro b hb
  obtain ⟨c, hc, rfl⟩ := List.mem_map.1 hb
  rcases (h c hc).isNumeric with hdigit | h | h | h | h | h
  · simp only [Ascii.isDigit, Bool.and_eq_true, decide_eq_true_eq] at hdigit
    exact UInt8.lt_of_le_of_lt hdigit.2 (by decide)
  all_goals
    rw [h]
    decide

theorem isText_printInt (n : Int) : IsText (printInt n) :=
  isText_numeral (isNumeralChar_signedDecimal n)

theorem isText_printFloat (x : Binary64) : IsText (printFloat x) := by
  unfold printFloat
  split
  · exact isText_numeral (isNumeralChar_binary64 x)
  · exact .of_all rfl

theorem isText_compactObject {members : List (String × Bytes)} (h : ∀ m ∈ members, IsText m.2) :
    IsText (compactObject members) := by
  have hopen : IsText [Ascii.openBrace] := .of_all rfl
  have hclose : IsText [Ascii.closeBrace] := .of_all rfl
  have hcolon : IsText [Ascii.colon] := .of_all rfl
  refine hopen.append (.append ?_ hclose)
  apply separate_of_append (.of_all rfl) IsText.append (.of_all rfl)
  intro item hitem
  obtain ⟨m, hm, rfl⟩ := List.mem_map.1 hitem
  exact (isText_printString m.1).append (hcolon.append (h m hm))

theorem isText_freshLine (level : Nat) : IsText (freshLine level) := by
  have hspaces : IsText (List.replicate (2 * level) Ascii.space) := by
    apply IsText.of_lt
    intro b hb
    rw [List.eq_of_mem_replicate hb]
    decide
  have hnewline : IsText [Ascii.newline] := .of_all rfl
  exact hnewline.append hspaces

/-- Texts on lines of their own between two marks. -/
theorem isText_lines (level : Nat) {first last : UInt8} (hfirst : first < 0x80)
    (hlast : last < 0x80) {items : List Bytes} (h : ∀ item ∈ items, IsText item) :
    IsText (first :: freshLine (level + 1) ++
      separate (Ascii.comma :: freshLine (level + 1)) items ++ freshLine level ++ [last]) := by
  have hline := isText_freshLine (level + 1)
  have hopen : IsText [first] := .of_lt (List.forall_mem_singleton.2 hfirst)
  have hclose : IsText [last] := .of_lt (List.forall_mem_singleton.2 hlast)
  have hcomma : IsText [Ascii.comma] := .of_all rfl
  have hitems : IsText (separate (Ascii.comma :: freshLine (level + 1)) items) :=
    separate_of_append (.of_all rfl) IsText.append (hcomma.append hline) h
  exact (((hopen.append hline).append hitems).append (isText_freshLine level)).append hclose

theorem isText_indentedArray (level : Nat) {items : List Bytes} (h : ∀ item ∈ items, IsText item) :
    IsText (indentedArray level items) := by
  unfold indentedArray
  split
  · exact .of_all rfl
  · exact isText_lines level (by decide) (by decide) h

theorem isText_indentedObject (level : Nat) {members : List (String × Bytes)}
    (h : ∀ m ∈ members, IsText m.2) : IsText (indentedObject level members) := by
  unfold indentedObject
  split
  · exact .of_all rfl
  · apply isText_lines level (by decide) (by decide)
    intro item hitem
    obtain ⟨m, hm, rfl⟩ := List.mem_map.1 hitem
    have hcolon : IsText [Ascii.colon, Ascii.space] := .of_all rfl
    exact (isText_printString m.1).append (hcolon.append (h m hm))

end Json

theorem isText_tagsJson (t : Tags) : IsText t.json := by
  apply isText_compactObject
  simp only [List.forall_mem_cons]
  exact ⟨isText_printString _, isText_printString _, isText_printString _, isText_printString _,
    isText_printString _, nofun⟩

theorem isText_eventJson (e : Event) : IsText e.json := by
  apply isText_compactObject
  simp only [List.forall_mem_cons]
  exact ⟨isText_printString _, isText_tagsJson e.tags, isText_printInstant _,
    isText_printInstant _, isText_printFloat _, nofun⟩

/-- The brace in front keeps the JSON of an event from being white space. -/
theorem not_isBlankText_eventJson {e : Event} {text : String} (h : utf8 text = e.json) :
    isBlankText text = false := by
  have hbrace : utf8 "\x7b" <+: utf8 text := h ▸ ⟨_, rfl⟩
  obtain ⟨rest, rfl⟩ := prefix_iff.1 hbrace
  have hchar : isBlank '{' = false := by decide
  have hchars : "\x7b".toList = ['{'] := rfl
  rw [isBlankText, String.toList_append, hchars, List.singleton_append, List.all_cons, hchar,
    Bool.false_and]

end HourlyUsage
