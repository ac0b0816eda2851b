import HourlyUsage.Proofs.NumeralText
import HourlyUsage.Proofs.ValueFraming

/-!
# Reading indented documents

An array or object that is laid out over several lines is read as what its items or
members are read as.  Each of these stands on a line of its own, behind a comma unless
it is the first, and the spaces in front of it belong to nothing.
-/

namespace HourlyUsage
namespace Json

open Text

/-- The text is that of a value, with white space behind it at most.  It is read in front of
whatever may follow a value, under any limit that leaves room for `depth` brackets within each
other. -/
def ReadsValue (depth : Nat) (text : Bytes) (v : Value) : Prop :=
  ∃ trail, skipSpace trail = [] ∧ ∀ limit rest, depth < limit → EndsValue rest →
    readValue limit (text ++ rest) = .ok (v, trail ++ rest)

theorem ReadsValue.mono {depth depth' : Nat} {text : Bytes} {v : Value}
    (h : ReadsValue depth text v) (hle : depth ≤ depth') : ReadsValue depth' text v := by
  obtain ⟨trail, htrail, hread⟩ := h
  exact ⟨trail, htrail, fun limit rest hlimit ↦ hread limit rest (Nat.lt_of_le_of_lt hle hlimit)⟩

/-! ## Strings and integers -/

theorem IsScalar.skipSpace_eq {text rest : Bytes} {v : Value} (h : IsScalar text v rest) :
    skipSpace text = text := by
  cases h with
  | null _ => rfl
  | bool b _ => cases b <;> rfl
  | negative _ => rfl
  | number hb _ => exact List.dropWhile_cons_of_neg (by simp [isSpace_of_isDigit hb])
  | string _ => rfl

theorem IsScalar.readsValue {text : Bytes} {v : Value} (h : IsScalar text v []) :
    ReadsValue 0 text v := by
  have hscalar := h.scalar?
  rw [← h.skipSpace_eq] at hscalar
  exact ⟨[], rfl, (readValue_scalar hscalar).2⟩

theorem readsValue_printString (s : String) : ReadsValue 0 (printString s) (.string s) := by
  apply IsScalar.readsValue
  have hread := string_closedText s []
  rw [List.append_nil] at hread
  exact .string hread

/-- Digits that 64 bits hold are an integer, with a sign in front if it is no zero and 63 bits
hold it. -/
theorem Number.read_decimal {negative : Bool} {n : Nat} (hfits : n < wordLimit)
    (hsign : negative = true → 0 < n ∧ 2 * n ≤ wordLimit) :
    Number.read negative (ascii (decimal n)) =
      .ok (.int (if negative then -(n : Int) else n), []) := by
  have hdigits : ∀ c ∈ decimal n, IsDigitChar c := fun c hc ↦ .of_mem_decimal hc
  have hwhole : Numeral.IsWhole (decimal n) := by
    simpa using Numeral.IsWhole.decimal_append (n := n) (k := 0) (.inr rfl)
  have hread := Numeral.readWhole_ascii .eofInValue hwhole endsMember_nil.endsRun
  have hnumeral : Numeral.read .eofInValue (ascii (decimal n)) =
      .ok (⟨ascii (decimal n), [], none⟩, []) := by
    rw [List.append_nil] at hread
    simp only [Numeral.read, hread, bind, Except.bind]
    rfl
  have hgather := Numeral.gather_ascii (n := 0) hdigits
  rw [digitsValue_decimal, Nat.zero_mul, Nat.zero_add] at hgather
  have hnumber : (⟨ascii (decimal n), [], none⟩ : Numeral).number negative 0 =
      .ok (.int (if negative then -(n : Int) else n)) := by
    unfold Numeral.number
    rw [hgather hfits]
    exact if_pos ⟨rfl, rfl, rfl, hsign⟩
  simp only [Number.read, hnumeral, bind, Except.bind, List.length_nil, hnumber]
  rfl

/-- An integer of 64 bits, with or without a sign. -/
theorem readsValue_printInt {n : Int} (hlow : -9223372036854775808 ≤ n) (hhigh : n < wordLimit) :
    ReadsValue 0 (printInt n) (.number (.int n)) := by
  have hlimit : wordLimit = 18446744073709551616 := rfl
  apply IsScalar.readsValue
  unfold printInt signedDecimal
  by_cases hn : n < 0
  · have hread := @Number.read_decimal true n.natAbs (by omega) fun _ ↦ by omega
    have hvalue : -(n.natAbs : Int) = n := by omega
    rw [if_pos rfl, hvalue] at hread
    rw [if_pos hn]
    exact .negative hread
  · have hread := @Number.read_decimal false n.natAbs (by omega) nofun
    have hvalue : (n.natAbs : Int) = n := by omega
    rw [if_neg Bool.false_ne_true, hvalue] at hread
    rw [if_neg hn]
    cases hdecimal : decimal n.natAbs with
    | nil => exact absurd hdecimal (decimal_ne_nil _)
    | cons c cs =>
        have hc : c ∈ decimal n.natAbs := hdecimal ▸ List.mem_cons_self ..
        rw [hdecimal] at hread
        exact .number (isDigit_ascii (.of_mem_decimal hc)) hread

/-! ## Lines -/

theorem skipSpace_freshLine (level : Nat) (bs : Bytes) :
    skipSpace (freshLine level ++ bs) = skipSpace bs := by
  apply skipSpace_append_of_nil
  apply List.dropWhile_eq_nil_iff.2
  intro b hb
  rcases List.mem_cons.1 hb with rfl | hb
  · rfl
  · rw [List.eq_of_mem_replicate hb]
    rfl

theorem endsValue_comma (bs : Bytes) : EndsValue (Ascii.comma :: bs) := by
  rintro _ ⟨⟩
  exact .inr rfl

theorem endsValue_freshLine (level : Nat) (bs : Bytes) : EndsValue (freshLine level ++ bs) := by
  rintro _ ⟨⟩
  exact .inl rfl

/-- Texts on fresh lines of one level, each behind a comma unless it is the first. -/
def linesOf (level : Nat) : (first : Bool) → List Bytes → Bytes
  | _, [] => []
  | first, item :: items =>
    (if first then [] else [Ascii.comma]) ++
      (freshLine level ++ (item ++ linesOf level false items))

theorem linesOf_false (level : Nat) (items : List Bytes) :
    linesOf level false items =
      items.flatMap fun item ↦ Ascii.comma :: freshLine level ++ item := by
  induction items with
  | nil => rfl
  | cons item items ih => simp [linesOf, ih]

theorem freshLine_append_separate (level : Nat) {items : List Bytes} (hne : items ≠ []) :
    freshLine level ++ separate (Ascii.comma :: freshLine level) items =
      linesOf level true items := by
  cases items with
  | nil => exact absurd rfl hne
  | cons item items => simp [linesOf, separate_cons, linesOf_false]

theorem length_le_length_linesOf (level : Nat) (first : Bool) (items : List Bytes) :
    items.length ≤ (linesOf level first items).length := by
  induction items generalizing first with
  | nil => exact Nat.le_refl 0
  | cons item items ih =>
      have hrest := ih false
      simp only [linesOf, freshLine, List.length_append, List.length_cons]
      omega

/-- Every line takes a byte at least, so the text bounds their number. -/
theorem length_lt_of_linesOf (level : Nat) (first : Bool) (items : List Bytes) (rest : Bytes) :
    items.length < (linesOf level first items ++ rest).length + 1 := by
  have hlines := length_le_length_linesOf level first items
  rw [List.length_append]
  omega

theorem endsValue_linesOf (level outer : Nat) (items : List Bytes) (rest : Bytes) :
    EndsValue (linesOf level false items ++ (freshLine outer ++ rest)) := by
  cases items with
  | nil => exact endsValue_freshLine outer rest
  | cons item items => exact endsValue_comma _

/-! ## Arrays -/

theorem indentedArray_eq (level : Nat) {items : List Bytes} (hne : items ≠ []) :
    indentedArray level items = Ascii.openBracket ::
      (linesOf (level + 1) true items ++ (freshLine level ++ [Ascii.closeBracket])) := by
  rw [indentedArray, if_neg (by simpa using hne), ← freshLine_append_separate (level + 1) hne]
  simp only [List.cons_append, List.append_assoc]

/-- The next item begins where the text of its value does. -/
theorem nextItem_line {first : Bool} (level : Nat) {bs tail : Bytes} {b : UInt8}
    (hspace : skipSpace bs = b :: tail) (hb : b ≠ Ascii.closeBracket) :
    nextItem first ((if first then [] else [Ascii.comma]) ++ (freshLine level ++ bs)) =
      .ok (true, b :: tail) := by
  have hline : skipSpace (freshLine level ++ bs) = b :: tail :=
    (skipSpace_freshLine level bs).trans hspace
  cases first with
  | true => simp only [if_true, List.nil_append, nextItem, hline, if_neg hb]
  | false =>
      have hcomma : skipSpace (Ascii.comma :: (freshLine level ++ bs)) =
          Ascii.comma :: (freshLine level ++ bs) := rfl
      have hne : Ascii.comma ≠ Ascii.closeBracket := by decide
      simp only [Bool.false_eq_true, if_false, List.singleton_append, nextItem, hcomma,
        if_neg hne, if_true, hline, if_neg hb]

theorem readItems_linesOf {depth : Nat} {items : List Bytes} {vs : List Value}
    (h : List.Forall₂ (ReadsValue depth) items vs) {limit : Nat} (hlimit : depth < limit)
    (level outer : Nat) {first : Bool} {rest bs : Bytes}
    (hbs : skipSpace bs =
      skipSpace (linesOf level first items ++ (freshLine outer ++ Ascii.closeBracket :: rest)))
    {fuel : Nat} (hfuel : items.length < fuel) :
    readItems (readValue limit) fuel first bs = .ok (vs, Ascii.closeBracket :: rest) := by
  induction h generalizing first bs fuel with
  | nil =>
      obtain ⟨n, rfl⟩ : ∃ n, fuel = n + 1 := ⟨fuel - 1, by omega⟩
      have hclose : skipSpace bs = skipSpace (Ascii.closeBracket :: rest) :=
        hbs.trans (skipSpace_freshLine outer _)
      have hnext : nextItem first bs = .ok (false, Ascii.closeBracket :: rest) :=
        nextItem_skipSpace first hclose
      rw [readItems, hnext]
      rfl
  | @cons item v items vs hitem _ ih =>
      obtain ⟨n, rfl⟩ : ∃ n, fuel = n + 1 := ⟨fuel - 1, by omega⟩
      obtain ⟨m, rfl⟩ : ∃ m, limit = m + 1 := ⟨limit - 1, by omega⟩
      obtain ⟨trail, htrail, hread⟩ := hitem
      let more := linesOf level false items ++ (freshLine outer ++ Ascii.closeBracket :: rest)
      have hvalue : readValue (m + 1) (item ++ more) = .ok (v, trail ++ more) :=
        hread _ _ hlimit (endsValue_linesOf level outer items _)
      obtain ⟨b, tail, hspace, hb⟩ := skipSpace_of_readValue hvalue
      have hnext : nextItem first bs = .ok (true, b :: tail) := by
        rw [nextItem_skipSpace first hbs, linesOf, List.append_assoc, List.append_assoc,
          List.append_assoc]
        exact nextItem_line level hspace hb
      -- reading starts behind the white space in front of the item
      have hstart : readValue (m + 1) (b :: tail) = .ok (v, trail ++ more) := by
        rw [← hspace, ← hvalue]
        exact readValue_skipSpace (skipSpace_skipSpace _)
      have hitems : readItems (readValue (m + 1)) n false (trail ++ more) =
          .ok (vs, Ascii.closeBracket :: rest) :=
        ih (skipSpace_append_of_nil htrail more) (by simpa using hfuel)
      rw [readItems, hnext]
      simp only [bind, Except.bind, if_true, hstart, hitems]
      rfl

theorem ReadsValue.indentedArray {depth : Nat} {items : List Bytes} {vs : List Value}
    (h : List.Forall₂ (ReadsValue depth) items vs) (level : Nat) :
    ReadsValue (depth + 1) (indentedArray level items) (.array vs) := by
  refine ⟨[], rfl, fun limit rest hlimit _ ↦ ?_⟩
  obtain ⟨n, rfl⟩ : ∃ n, limit = n + 1 := ⟨limit - 1, by omega⟩
  cases h with
  | nil =>
      have hspace : skipSpace (Ascii.openBracket :: Ascii.closeBracket :: rest) =
          Ascii.openBracket :: Ascii.closeBracket :: rest := rfl
      exact (readValue_array hspace (by omega)).trans rfl
  | @cons item v items vs hitem hitems =>
      let lines := linesOf (level + 1) true (item :: items) ++
        (freshLine level ++ Ascii.closeBracket :: rest)
      have hread : readItems (readValue n) (lines.length + 1) true lines =
          .ok (v :: vs, Ascii.closeBracket :: rest) :=
        readItems_linesOf (.cons hitem hitems) (by omega) (level + 1) level rfl
          (length_lt_of_linesOf _ _ _ _)
      rw [indentedArray_eq level (List.cons_ne_nil item items), List.cons_append,
        List.append_assoc, List.append_assoc, List.singleton_append,
        readValue_array rfl (by omega), hread]
      rfl

/-! ## Objects -/

/-- The members of an object that holds `before`, once these are read behind them in this order. -/
def Value.ofMembers (before members : List (String × Value)) : List (String × Value) :=
  members.foldl (fun ms m ↦ Value.setMember m.1 m.2 ms) before

/-- The member has the key, and its text is read as the value. -/
def ReadsMember (depth : Nat) (m : String × Bytes) (v : String × Value) : Prop :=
  m.1 = v.1 ∧ ReadsValue depth m.2 v.2

def memberLine (m : String × Bytes) : Bytes :=
  printString m.1 ++ Ascii.colon :: Ascii.space :: m.2

theorem indentedObject_eq (level : Nat) {members : List (String × Bytes)} (hne : members ≠ []) :
    indentedObject level members = Ascii.openBrace ::
      (linesOf (level + 1) true (members.map memberLine) ++
        (freshLine level ++ [Ascii.closeBrace])) := by
  have hlines : members.map memberLine ≠ [] := mt List.map_eq_nil_iff.1 hne
  rw [indentedObject, if_neg (by simpa using hne), ← freshLine_append_separate (level + 1) hlines]
  simp only [List.cons_append, List.append_assoc]
  rfl

theorem nextMember_line {first : Bool} (level : Nat) (bs : Bytes) :
    nextMember first
        ((if first then [] else [Ascii.comma]) ++ (freshLine level ++ Ascii.quote :: bs)) =
      .ok (true, bs) := by
  have hline : skipSpace (freshLine level ++ Ascii.quote :: bs) = Ascii.quote :: bs :=
    skipSpace_freshLine level _
  have hquote : Ascii.quote ≠ Ascii.closeBrace := by decide
  cases first with
  | true => simp only [if_true, List.nil_append, nextMember, hline, if_neg hquote]
  | false =>
      have hcomma : skipSpace (Ascii.comma :: (freshLine level ++ Ascii.quote :: bs)) =
          Ascii.comma :: (freshLine level ++ Ascii.quote :: bs) := rfl
      have hne : Ascii.comma ≠ Ascii.closeBrace := by decide
      simp only [Bool.false_eq_true, if_false, List.singleton_append, nextMember, hcomma,
        if_neg hne, if_true, hline]

theorem readMembers_linesOf {depth : Nat} {members : List (String × Bytes)}
    {vs : List (String × Value)} (h : List.Forall₂ (ReadsMember depth) members vs) {limit : Nat}
    (hlimit : depth < limit) (level outer : Nat) {first : Bool} (before : List (String × Value))
    {rest bs : Bytes}
    (hbs : skipSpace bs = skipSpace (linesOf level first (members.map memberLine) ++
      (freshLine outer ++ Ascii.closeBrace :: rest)))
    {fuel : Nat} (hfuel : members.length < fuel) :
    readMembers (readValue limit) fuel first before bs =
      .ok (Value.ofMembers before vs, Ascii.closeBrace :: rest) := by
  induction h generalizing first before bs fuel with
  | nil =>
      obtain ⟨n, rfl⟩ : ∃ n, fuel = n + 1 := ⟨fuel - 1, by omega⟩
      have hclose : skipSpace bs = skipSpace (Ascii.closeBrace :: rest) :=
        hbs.trans (skipSpace_freshLine outer _)
      have hnext : nextMember first bs = .ok (false, Ascii.closeBrace :: rest) :=
        nextMember_skipSpace first hclose
      rw [readMembers, hnext]
      rfl
  | @cons m v members vs hm _ ih =>
      obtain ⟨n, rfl⟩ : ∃ n, fuel = n + 1 := ⟨fuel - 1, by omega⟩
      obtain ⟨k, rfl⟩ : ∃ k, limit = k + 1 := ⟨limit - 1, by omega⟩
      obtain ⟨hkey, trail, htrail, hvalue⟩ := hm
      let more := linesOf level false (members.map memberLine) ++
        (freshLine outer ++ Ascii.closeBrace :: rest)
      let value := Ascii.colon :: Ascii.space :: (m.2 ++ more)
      have hline : memberLine m ++ more = Ascii.quote :: (closedText m.1 ++ value) := by
        simp only [memberLine, printString_eq, value, List.append_assoc, List.cons_append]
      have hnext : nextMember first bs = .ok (true, closedText m.1 ++ value) := by
        rw [nextMember_skipSpace first hbs, List.map_cons, linesOf, List.append_assoc,
          List.append_assoc, List.append_assoc, hline]
        exact nextMember_line level _
      have hcolon : colon value = .ok (Ascii.space :: (m.2 ++ more)) := rfl
      have hread : readValue (k + 1) (Ascii.space :: (m.2 ++ more)) = .ok (v.2, trail ++ more) := by
        rw [← hvalue _ more hlimit (endsValue_linesOf level outer _ _)]
        exact readValue_skipSpace rfl
      have hmembers : readMembers (readValue (k + 1)) n false (Value.setMember v.1 v.2 before)
          (trail ++ more) = .ok (Value.ofMembers (Value.setMember v.1 v.2 before) vs,
            Ascii.closeBrace :: rest) :=
        ih _ (skipSpace_append_of_nil htrail more) (by simpa using hfuel)
      rw [readMembers, hnext]
      simp only [bind, Except.bind, if_true, string_closedText, hcolon, hread, hkey]
      exact hmembers

theorem ReadsValue.indentedObject {depth : Nat} {members : List (String × Bytes)}
    {vs : List (String × Value)} (h : List.Forall₂ (ReadsMember depth) members vs) (level : Nat) :
    ReadsValue (depth + 1) (indentedObject level members)
      (.object (Value.ofMembers [] vs)) := by
  refine ⟨[], rfl, fun limit rest hlimit _ ↦ ?_⟩
  obtain ⟨n, rfl⟩ : ∃ n, limit = n + 1 := ⟨limit - 1, by omega⟩
  cases h with
  | nil =>
      have hspace : skipSpace (Ascii.openBrace :: Ascii.closeBrace :: rest) =
          Ascii.openBrace :: Ascii.closeBrace :: rest := rfl
      exact (readValue_object hspace (by omega)).trans rfl
  | @cons m v members vs hm hms =>
      let lines := linesOf (level + 1) true ((m :: members).map memberLine) ++
        (freshLine level ++ Ascii.closeBrace :: rest)
      have hlength : ((m :: members).map memberLine).length < lines.length + 1 :=
        length_lt_of_linesOf _ _ _ _
      rw [List.length_map] at hlength
      have hread : readMembers (readValue n) (lines.length + 1) true [] lines =
          .ok (Value.ofMembers [] (v :: vs), Ascii.closeBrace :: rest) :=
        readMembers_linesOf (.cons hm hms) (by omega) (level + 1) level [] rfl hlength
      rw [indentedObject_eq level (List.cons_ne_nil m members), List.cons_append,
        List.append_assoc, List.append_assoc, List.singleton_append,
        readValue_object rfl (by omega), hread]
      rfl

/-! ## Documents -/

/-- A text of a value is a JSON document, alone and with white space behind it. -/
theorem ReadsValue.parse_append {depth : Nat} {text : Bytes} {v : Value}
    (h : ReadsValue depth text v) (hdepth : depth < depthLimit) {rest : Bytes}
    (hends : EndsValue rest) (hrest : skipSpace rest = []) :
    Value.parse (text ++ rest) = .ok v := by
  obtain ⟨trail, htrail, hread⟩ := h
  have hend : skipSpace (trail ++ rest) = [] := (skipSpace_append_of_nil htrail rest).trans hrest
  unfold Value.parse parse toEnd
  rw [hread depthLimit rest hdepth hends]
  simp only [bind, Except.bind, hend]
  rfl

theorem ReadsValue.parse {depth : Nat} {text : Bytes} {v : Value} (h : ReadsValue depth text v)
    (hdepth : depth < depthLimit) : Value.parse text = .ok v := by
  simpa using h.parse_append hdepth endsValue_nil rfl

end Json
end HourlyUsage
