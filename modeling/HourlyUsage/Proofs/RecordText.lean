import HourlyUsage.Json.Record
import HourlyUsage.Proofs.ByteOrder
import HourlyUsage.Proofs.CompactText
import HourlyUsage.Proofs.TimestampText
import HourlyUsage.Query

/-!
# Reading printed records

A printed string, timestamp or object is read back as what it was printed from, in
front of anything that may follow a member of an object.  A record takes the members
of its printed object one by one, each by the field of that name.
-/

namespace HourlyUsage
namespace Json

open Text

/-- Nothing follows, or the end of a member does. -/
def EndsMember (rest : Bytes) : Prop := ∀ b ∈ rest.head?, b = Ascii.comma ∨ b = Ascii.closeBrace

theorem endsMember_comma (rest : Bytes) : EndsMember (Ascii.comma :: rest) := by
  rintro _ ⟨⟩
  exact .inl rfl

theorem endsMember_closeBrace (rest : Bytes) : EndsMember (Ascii.closeBrace :: rest) := by
  rintro _ ⟨⟩
  exact .inr rfl

theorem endsMember_nil : EndsMember [] := nofun

/-- The text is read as this, and nothing behind it is touched. -/
def Reads {α : Type} (read : Reader α) (text : Bytes) (a : α) : Prop :=
  ∀ rest, EndsMember rest → read (text ++ rest) = .ok (a, rest)

/-! ## Strings -/

theorem hexValue?_hexByte {n : Nat} (h : n < 16) : Ascii.hexValue? (Ascii.hexByte n) = some n := by
  have hall : ∀ n < 16, Ascii.hexValue? (Ascii.hexByte n) = some n := by decide
  exact hall n h

theorem utf8EncodeChar_control {b : UInt8} (h : b < 0x20) :
    String.utf8EncodeChar (Char.ofNat b.toNat) = [b] := by
  have hall : ∀ n < 32, String.utf8EncodeChar (Char.ofNat n) = [UInt8.ofNat n] := by decide
  have hb := hall b.toNat (UInt8.lt_iff_toNat_lt.1 h)
  rwa [UInt8.ofNat_toNat] at hb

/-- A control character is read off the four digits of its escape. -/
theorem escape_control {b : UInt8} (h : b < 0x20) (rest : Bytes) :
    escape (Ascii.lowerU :: Ascii.zero :: Ascii.zero :: Ascii.hexByte (b.toNat / 16) ::
      Ascii.hexByte (b.toNat % 16) :: rest) = .ok ([b], rest) := by
  have hn : b.toNat < 32 := UInt8.lt_iff_toNat_lt.1 h
  have hzero : Ascii.hexValue? Ascii.zero = some 0 := by decide
  have hcode : hex4? Ascii.zero Ascii.zero (Ascii.hexByte (b.toNat / 16))
      (Ascii.hexByte (b.toNat % 16)) = some b.toNat := by
    have hvalue : ((0 * 16 + 0) * 16 + b.toNat / 16) * 16 + b.toNat % 16 = b.toNat := by omega
    simp only [hex4?, hzero, hexValue?_hexByte (show b.toNat / 16 < 16 by omega),
      hexValue?_hexByte (show b.toNat % 16 < 16 by omega), Option.bind_eq_bind, Option.bind_some,
      hvalue]
    rfl
  have hlow : ¬ (0xDC00 ≤ b.toNat ∧ b.toNat ≤ 0xDFFF) := by omega
  have hhigh : ¬ (0xD800 ≤ b.toNat ∧ b.toNat ≤ 0xDBFF) := by omega
  simp only [escape, if_true, numericEscape, codeUnit, hcode, bind, Except.bind, if_neg hlow,
    if_neg hhigh, pure, Except.pure, utf8EncodeChar_control h]

theorem stringBytes_printByte (fuel : Nat) (b : UInt8) (tail : Bytes) :
    stringBytes (fuel + 1) (printByte b ++ tail) =
      (stringBytes fuel tail).map fun p ↦ (b :: p.1, p.2) := by
  have hescape : ∀ code, escape (code ++ tail) = .ok ([b], tail) →
      stringBytes (fuel + 1) (Ascii.backslash :: (code ++ tail)) =
        (stringBytes fuel tail).map fun p ↦ (b :: p.1, p.2) := by
    intro code hcode
    rw [stringBytes, if_neg (by decide), if_pos rfl, hcode]
    simp only [bind, Except.bind]
    cases stringBytes fuel tail <;> rfl
  unfold printByte
  split
  · next h =>
    refine hescape [b] ?_
    rcases h with rfl | rfl <;> rfl
  · next hplain =>
    obtain ⟨hquote, hbackslash⟩ := not_or.1 hplain
    iterate 5
      split
      · next h => exact hescape [_] (by rw [h]; rfl)
    split
    · next h => exact hescape [_, _, _, _, _] (escape_control h tail)
    · next h =>
      rw [List.cons_append, List.nil_append, stringBytes, if_neg hquote, if_neg hbackslash,
        if_neg h]
      simp only [bind, Except.bind]
      cases stringBytes fuel tail <;> rfl

theorem stringBytes_printed (raw rest : Bytes) {fuel : Nat} (h : raw.length < fuel) :
    stringBytes fuel (raw.flatMap printByte ++ Ascii.quote :: rest) = .ok (raw, rest) := by
  induction raw generalizing fuel with
  | nil =>
      obtain ⟨n, rfl⟩ : ∃ n, fuel = n + 1 := ⟨fuel - 1, by simp at h; omega⟩
      rfl
  | cons b raw ih =>
      obtain ⟨n, rfl⟩ : ∃ n, fuel = n + 1 := ⟨fuel - 1, by omega⟩
      rw [List.flatMap_cons, List.append_assoc, stringBytes_printByte, ih (by simpa using h)]
      rfl

theorem length_le_flatMap_printByte (raw : Bytes) :
    raw.length ≤ (raw.flatMap printByte).length := by
  induction raw with
  | nil => exact Nat.le_refl 0
  | cons b raw ih =>
      have hb : 0 < (printByte b).length := by
        unfold printByte
        repeat' split
        all_goals simp
      rw [List.flatMap_cons, List.length_append, List.length_cons]
      omega

/-- The text of a string behind its opening quote. -/
def closedText (s : String) : Bytes := (utf8 s).flatMap printByte ++ [Ascii.quote]

theorem printString_eq (s : String) : printString s = Ascii.quote :: closedText s := rfl

theorem string_closedText (s : String) (rest : Bytes) :
    string (closedText s ++ rest) = .ok (s, rest) := by
  have hfuel : (utf8 s).length < (closedText s ++ rest).length + 1 := by
    have := length_le_flatMap_printByte (utf8 s)
    simp only [closedText, List.length_append]
    omega
  have htext : closedText s ++ rest = (utf8 s).flatMap printByte ++ Ascii.quote :: rest := by
    rw [closedText, List.append_assoc, List.singleton_append]
  have hbytes : stringBytes ((closedText s ++ rest).length + 1) (closedText s ++ rest) =
      .ok (utf8 s, rest) := by
    rw [← stringBytes_printed (utf8 s) rest hfuel, htext]
  simp only [string, hbytes, bind, Except.bind, ofUtf8?_utf8]
  rfl

theorem reads_readStringAs (expected s : String) :
    Reads (readStringAs expected) (printString s) s := by
  intro rest _
  have hquote : skipSpace (printString s ++ rest) = Ascii.quote :: (closedText s ++ rest) := rfl
  simp only [readStringAs, hquote, if_true]
  exact string_closedText s rest

theorem reads_readString (s : String) : Reads readString (printString s) s :=
  reads_readStringAs "a string" s

/-! ## Timestamps -/

theorem charBytes_timestamp {cs : List Char} (h : ∀ c ∈ cs, IsTimestampChar c) :
    charBytes cs = ascii cs := by
  have hdigit : ∀ d < 10, charBytes [digit d] = [(digit d).toUInt8] := by decide
  have hmark : ∀ c ∈ ['-', '+', ':', '.', 'T', 'Z'], charBytes [c] = [c.toUInt8] :=
    forall_mem_of_all (by decide)
  induction cs with
  | nil => rfl
  | cons c cs ih =>
      obtain ⟨hc, hcs⟩ := List.forall_mem_cons.1 h
      have hbyte : charBytes [c] = [c.toUInt8] := by
        rcases hc with ⟨d, hd, rfl⟩ | hc
        · exact hdigit d hd
        · exact hmark c hc
      rw [charBytes_cons, hbyte, ih hcs]
      rfl

theorem printInstant_eq_printString (t : Instant) : printInstant t = printString t.text := by
  have htext : utf8 t.text = ascii t.chars := charBytes_timestamp (isTimestampChar_chars t)
  rw [printInstant_eq, printString, htext]

theorem reads_readInstant (t : Instant) : Reads readInstant (printInstant t) t.asWritten := by
  intro rest hrest
  have htext : t.text.toList = t.chars := String.toList_ofList
  rw [printInstant_eq_printString]
  simp only [readInstant, reads_readStringAs _ t.text rest hrest, bind, Except.bind, htext,
    t.read_chars]
  rfl

/-! ## Members of objects -/

def memberText (m : String × Bytes) : Bytes := printString m.1 ++ Ascii.colon :: m.2

theorem separate_cons (separator first : Bytes) (items : List Bytes) :
    separate separator (first :: items) = first ++ items.flatMap fun item ↦ separator ++ item := by
  induction items generalizing first with
  | nil => simp [separate]
  | cons next items ih => simp [separate, ih]

namespace Record

variable {δ α : Type} {r : Record δ α}

/-- A member is read by the field of its name, which takes the draft from one state to another. -/
def Takes (r : Record δ α) (d : δ) (m : String × Bytes) (d' : δ) : Prop :=
  ∃ f, (r.fields.find? fun f ↦ f.name = m.1) = some f ∧ f.isSet d = false ∧
    Reads (f.read d) m.2 d'

inductive TakesAll (r : Record δ α) : δ → List (String × Bytes) → δ → Prop
  | nil (d : δ) : TakesAll r d [] d
  | cons {d mid d' : δ} {m : String × Bytes} {ms : List (String × Bytes)}
      (first : r.Takes d m mid) (rest : TakesAll r mid ms d') : TakesAll r d (m :: ms) d'

theorem TakesAll.append {d mid d' : δ} {ms ms' : List (String × Bytes)} (h : r.TakesAll d ms mid)
    (h' : r.TakesAll mid ms' d') : r.TakesAll d (ms ++ ms') d' := by
  induction h with
  | nil d => exact h'
  | cons first _ ih => exact .cons first (ih h')

/-- One member, once its key has been come to. -/
theorem readMembers_member {d d' : δ} {m : String × Bytes} (h : r.Takes d m d') {first : Bool}
    {bs rest : Bytes}
    (hnext : nextMember first bs = .ok (true, closedText m.1 ++ Ascii.colon :: (m.2 ++ rest)))
    (hrest : EndsMember rest) (fuel : Nat) :
    r.readMembers (fuel + 1) first d bs = r.readMembers fuel false d' rest := by
  obtain ⟨f, hfind, hset, hread⟩ := h
  have hcolon : colon (Ascii.colon :: (m.2 ++ rest)) = .ok (m.2 ++ rest) := rfl
  simp only [readMembers, hnext, bind, Except.bind, if_true, string_closedText, hfind, hset,
    Bool.false_eq_true, if_false, hcolon, hread rest hrest]

theorem readMembers_append {d d' : δ} {ms : List (String × Bytes)} (h : r.TakesAll d ms d')
    {rest : Bytes} (hrest : EndsMember rest) (fuel : Nat) :
    r.readMembers (fuel + ms.length) false d
        ((ms.flatMap fun m ↦ Ascii.comma :: memberText m) ++ rest) =
      r.readMembers fuel false d' rest := by
  induction h with
  | nil d => rfl
  | @cons d mid d' m ms hfirst htail ih =>
      have hends : EndsMember ((ms.flatMap fun m ↦ Ascii.comma :: memberText m) ++ rest) := by
        cases ms with
        | nil => exact hrest
        | cons next ms => exact endsMember_comma _
      have hnext : nextMember false
          (((m :: ms).flatMap fun m ↦ Ascii.comma :: memberText m) ++ rest) =
            .ok (true, closedText m.1 ++ Ascii.colon ::
              (m.2 ++ ((ms.flatMap fun m ↦ Ascii.comma :: memberText m) ++ rest))) := by
        simp only [List.flatMap_cons, memberText, printString_eq, List.append_assoc,
          List.cons_append]
        rfl
      rw [List.length_cons, ← Nat.add_assoc, readMembers_member hfirst hnext hends, ih]

/-- What every field that is not set yet preserves is preserved by all members: a set field is not
read again. -/
theorem readMembers_preserves {P : δ → Prop}
    (hfield : ∀ f ∈ r.fields, ∀ d bs d' rest, f.isSet d = false → f.read d bs = .ok (d', rest) →
      P d → P d')
    {fuel : Nat} {first : Bool} {d d' : δ} {bs rest : Bytes} (hP : P d)
    (hread : r.readMembers fuel first d bs = .ok (d', rest)) : P d' := by
  induction fuel generalizing first d bs with
  | zero => simp [readMembers, Fault.next] at hread
  | succ fuel ih =>
      rw [readMembers] at hread
      obtain ⟨⟨more, bs₁⟩, -, hread⟩ := bind_eq_ok.1 hread
      cases more with
      | false =>
          obtain ⟨rfl, -⟩ : d = d' ∧ bs₁ = rest := by simpa [pure, Except.pure] using hread
          exact hP
      | true =>
          obtain ⟨⟨key, bs₂⟩, -, hread⟩ := bind_eq_ok.1 hread
          dsimp only at hread
          split at hread
          · next f hfind =>
            split at hread
            · simp [Fault.here] at hread
            · next hset =>
              obtain ⟨bs₃, -, hread⟩ := bind_eq_ok.1 hread
              obtain ⟨⟨mid, bs₄⟩, hmid, hread⟩ := bind_eq_ok.1 hread
              have hmem := List.mem_of_find?_eq_some hfind
              exact ih (hfield f hmem d bs₃ mid bs₄ (by simpa using hset) hmid hP) hread
          · obtain ⟨bs₃, -, hread⟩ := bind_eq_ok.1 hread
            obtain ⟨bs₄, -, hread⟩ := bind_eq_ok.1 hread
            exact ih hP hread

/-- What the members of an object come to, behind its closing brace. -/
def conclude (r : Record δ α) (members : Except Fault (δ × Bytes)) : Except Fault (α × Bytes) := do
  let (d, rest) ← members
  let rest ← endObject rest
  match r.build d with
  | some a => return (a, rest)
  | none => Fault.here (.missingField (r.firstMissing d)) rest

theorem length_le_flatMap_memberText (ms : List (String × Bytes)) :
    ms.length ≤ (ms.flatMap fun m ↦ Ascii.comma :: memberText m).length := by
  induction ms with
  | nil => exact Nat.le_refl 0
  | cons m ms ih =>
      rw [List.flatMap_cons, List.length_append, List.length_cons, List.length_cons]
      omega

/-- The first members of an object are taken, and reading goes on behind them. -/
theorem read_object {d : δ} {m : String × Bytes} {ms : List (String × Bytes)}
    (h : r.TakesAll r.empty (m :: ms) d) {behind : Bytes} (hbehind : EndsMember behind) :
    ∃ fuel, r.read (Ascii.openBrace ::
        (memberText m ++ ((ms.flatMap fun m ↦ Ascii.comma :: memberText m) ++ behind))) =
      r.conclude (r.readMembers (fuel + 1) false d behind) := by
  obtain ⟨mid, hfirst, hrest⟩ : ∃ mid, r.Takes r.empty m mid ∧ r.TakesAll mid ms d := by
    cases h with
    | cons first rest => exact ⟨_, first, rest⟩
  let tail := (ms.flatMap fun m ↦ Ascii.comma :: memberText m) ++ behind
  have hends : EndsMember tail := by
    cases ms with
    | nil => exact hbehind
    | cons next ms => exact endsMember_comma _
  have hnext : nextMember true (memberText m ++ tail) =
      .ok (true, closedText m.1 ++ Ascii.colon :: (m.2 ++ tail)) := by
    simp only [memberText, printString_eq, List.append_assoc, List.cons_append]
    rfl
  -- every member takes a byte at least, so the text bounds their number
  have hfuel : ∃ fuel, (memberText m ++ tail).length + 1 = fuel + 1 + ms.length + 1 := by
    have hms := length_le_flatMap_memberText ms
    have hm : (memberText m).length = (closedText m.1 ++ Ascii.colon :: m.2).length + 1 := rfl
    refine ⟨(memberText m ++ tail).length - ms.length - 1, ?_⟩
    simp only [tail, List.length_append] at hm ⊢
    omega
  obtain ⟨fuel, hfuel⟩ := hfuel
  refine ⟨fuel, ?_⟩
  have hmembers := (readMembers_member hfirst hnext hends (fuel + 1 + ms.length)).trans
    (readMembers_append hrest hbehind (fuel + 1))
  rw [← hmembers, ← hfuel]
  rfl

/-- A printed object is read as the record that its members build. -/
theorem reads_compactObject {d : δ} {a : α} {m : String × Bytes} {ms : List (String × Bytes)}
    (h : r.TakesAll r.empty (m :: ms) d) (hbuild : r.build d = some a) :
    Reads r.read (compactObject (m :: ms)) a := by
  intro rest _
  obtain ⟨fuel, hread⟩ := read_object h (endsMember_closeBrace rest)
  have htext : compactObject (m :: ms) ++ rest = Ascii.openBrace ::
      (memberText m ++ ((ms.flatMap fun m ↦ Ascii.comma :: memberText m) ++
        Ascii.closeBrace :: rest)) := by
    simp only [compactObject, List.map_cons, separate_cons, List.flatMap_map, memberText,
      List.append_assoc, List.cons_append, List.nil_append]
  have hmembers : r.readMembers (fuel + 1) false d (Ascii.closeBrace :: rest) =
      .ok (d, Ascii.closeBrace :: rest) := rfl
  have hend : endObject (Ascii.closeBrace :: rest) = .ok rest := rfl
  rw [htext, hread, hmembers]
  simp only [conclude, hend, hbuild, bind, Except.bind]
  rfl

end Record

theorem parse_of_reads {α : Type} {read : Reader α} {text : Bytes} {a : α}
    (h : Reads read text a) : parse read text = .ok a := by
  have hread := h [] endsMember_nil
  rw [List.append_nil] at hread
  simp only [parse, toEnd, hread, bind, Except.bind]
  rfl

theorem read_of_parse {α : Type} {read : Reader α} {text : Bytes} {a : α}
    (h : parse read text = .ok a) : ∃ rest, read text = .ok (a, rest) := by
  cases hread : read text with
  | error f =>
      simp only [parse, toEnd, hread, bind, Except.bind] at h
      cases h
  | ok p =>
      obtain ⟨x, rest⟩ := p
      simp only [parse, toEnd, hread, bind, Except.bind] at h
      split at h
      · obtain rfl : x = a := Except.ok.inj h
        exact ⟨rest, rfl⟩
      · cases h

theorem reads_optionField {δ β : Type} {name : String} {get : δ → Option β} {set : δ → β → δ}
    {read : Reader β} {text : Bytes} {b : β} (h : Reads read text b) (d : δ) :
    Reads ((optionField name get set read).read d) text (set d b) := by
  intro rest hrest
  simp only [optionField, h rest hrest, bind, Except.bind]
  rfl

end Json
end HourlyUsage
