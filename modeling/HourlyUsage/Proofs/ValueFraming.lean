import HourlyUsage.Proofs.LexemeFraming

/-!
# Values inside longer texts

A value that is read from a text of its own is read just as well in front of a
comma or of white space, and under as many brackets as the limit on nesting
leaves over those that the text opens itself.
-/

namespace HourlyUsage
namespace Json

open Text

/-! ## Steps between values -/

theorem isFramed_nextItem (first : Bool) : IsFramed .outside .outside (nextItem first) := by
  intro bs rest more h
  unfold nextItem at h
  split at h
  · cases h
  · next b tail hspace =>
    have hnesting : ∀ level, nestingFrom .outside level bs =
        nestingFrom .outside level (b :: tail) := fun level ↦ by
      rw [nestingFrom_skipSpace, hspace]
    have happend := skipSpace_append_of_cons hspace
    split at h
    · next hclose =>
      obtain ⟨rfl, rfl⟩ := Prod.mk.inj (Except.ok.inj h)
      refine ⟨hnesting, fun suffix ↦ ?_⟩
      simp only [nextItem, happend, if_pos hclose]
      rfl
    · next hclose =>
      split at h
      · next hfirst =>
        obtain ⟨rfl, rfl⟩ := Prod.mk.inj (Except.ok.inj h)
        refine ⟨hnesting, fun suffix ↦ ?_⟩
        simp only [nextItem, happend, if_neg hclose, if_pos hfirst]
        rfl
      · next hfirst =>
        split at h
        · next hcomma =>
          split at h
          · cases h
          · next c tail' hspace' =>
            split at h
            · cases h
            · next hclose' =>
              obtain ⟨rfl, rfl⟩ := Prod.mk.inj (Except.ok.inj h)
              refine ⟨fun level ↦ ?_, fun suffix ↦ ?_⟩
              · rw [hnesting, nestingFrom_plain_cons (hcomma ▸ by decide), nestingFrom_skipSpace,
                  hspace']
              · have happend' := skipSpace_append_of_cons hspace' suffix
                simp only [nextItem, happend, if_neg hclose, if_neg hfirst, if_pos hcomma, happend',
                  if_neg hclose']
                rfl
        · cases h

theorem nextItem_false {first : Bool} {bs rest : Bytes}
    (h : nextItem first bs = .ok (false, rest)) : ∃ tail, rest = Ascii.closeBracket :: tail := by
  unfold nextItem at h
  repeat' split at h
  all_goals cases h
  exact ⟨_, congrArg (· :: _) ‹_›⟩

theorem colon_framing {bs rest : Bytes} (h : colon bs = .ok rest) :
    (∀ level, nestingFrom .outside level bs = nestingFrom .outside level rest) ∧
      ∀ suffix, colon (bs ++ suffix) = .ok (rest ++ suffix) := by
  unfold colon at h
  split at h
  · cases h
  · next b tail hspace =>
    split at h
    · next hb =>
      obtain rfl := Except.ok.inj h
      refine ⟨fun level ↦ ?_, fun suffix ↦ ?_⟩
      · rw [nestingFrom_skipSpace, hspace, nestingFrom_plain_cons (hb ▸ by decide)]
      · simp only [colon, skipSpace_append_of_cons hspace, if_pos hb]
    · cases h

/-- Where the next member begins: behind the quote of its key, or at the brace that ends the
object. -/
def memberPlace (more : Bool) : Place := if more then .quoted else .outside

theorem nextMember_framing {first more : Bool} {bs rest : Bytes}
    (h : nextMember first bs = .ok (more, rest)) :
    (∀ level, nestingFrom .outside level bs = nestingFrom (memberPlace more) level rest) ∧
      ∀ suffix, nextMember first (bs ++ suffix) = .ok (more, rest ++ suffix) := by
  unfold nextMember at h
  split at h
  · cases h
  · next b tail hspace =>
    have hnesting : ∀ level, nestingFrom .outside level bs =
        nestingFrom .outside level (b :: tail) := fun level ↦ by
      rw [nestingFrom_skipSpace, hspace]
    have happend := skipSpace_append_of_cons hspace
    split at h
    · next hclose =>
      obtain ⟨rfl, rfl⟩ := Prod.mk.inj (Except.ok.inj h)
      refine ⟨hnesting, fun suffix ↦ ?_⟩
      simp only [nextMember, happend, if_pos hclose]
      rfl
    · next hclose =>
      split at h
      · next hfirst =>
        split at h
        · next hquote =>
          obtain ⟨rfl, rfl⟩ := Prod.mk.inj (Except.ok.inj h)
          refine ⟨fun level ↦ ?_, fun suffix ↦ ?_⟩
          · rw [hnesting, hquote]
            rfl
          · simp only [nextMember, happend, if_neg hclose, if_pos hfirst, if_pos hquote]
        · cases h
      · next hfirst =>
        split at h
        · next hcomma =>
          split at h
          · cases h
          · next c tail' hspace' =>
            split at h
            · next hquote =>
              obtain ⟨rfl, rfl⟩ := Prod.mk.inj (Except.ok.inj h)
              refine ⟨fun level ↦ ?_, fun suffix ↦ ?_⟩
              · rw [hnesting, nestingFrom_plain_cons (hcomma ▸ by decide), nestingFrom_skipSpace,
                  hspace', hquote]
                rfl
              · have happend' := skipSpace_append_of_cons hspace' suffix
                simp only [nextMember, happend, if_neg hclose, if_neg hfirst, if_pos hcomma,
                  happend', if_pos hquote]
            · split at h <;> cases h
        · cases h

theorem nextMember_false {first : Bool} {bs rest : Bytes}
    (h : nextMember first bs = .ok (false, rest)) : ∃ tail, rest = Ascii.closeBrace :: tail := by
  unfold nextMember at h
  repeat' split at h
  all_goals cases h
  exact ⟨_, congrArg (· :: _) ‹_›⟩

/-! ## Values without brackets -/

/-- What values without brackets are read from, by the first byte of the text. -/
inductive IsScalar : Bytes → Value → Bytes → Prop
  | null {tail rest : Bytes} (h : word (utf8 "ull") tail = .ok rest) :
      IsScalar (Ascii.lowerN :: tail) .null rest
  | bool (b : Bool) {tail rest : Bytes}
      (h : word (if b then utf8 "rue" else utf8 "alse") tail = .ok rest) :
      IsScalar ((if b then Ascii.lowerT else Ascii.lowerF) :: tail) (.bool b) rest
  | negative {tail rest : Bytes} {x : Number} (h : Number.read true tail = .ok (x, rest)) :
      IsScalar (Ascii.minus :: tail) (.number x) rest
  | number {b : UInt8} {tail rest : Bytes} {x : Number} (hb : Ascii.isDigit b = true)
      (h : Number.read false (b :: tail) = .ok (x, rest)) : IsScalar (b :: tail) (.number x) rest
  | string {tail rest : Bytes} {s : String} (h : Json.string tail = .ok (s, rest)) :
      IsScalar (Ascii.quote :: tail) (.string s) rest

theorem isScalar_of_scalar? {bs rest : Bytes} {v : Value}
    (h : scalar? bs = .ok (some (v, rest))) : IsScalar bs v rest := by
  cases bs with
  | nil => cases h
  | cons b tail =>
      rw [scalar?] at h
      split at h
      · next hb =>
        obtain ⟨rest', hread, h⟩ := bind_eq_ok.1 h
        obtain ⟨rfl, rfl⟩ := Prod.mk.inj (Option.some.inj (Except.ok.inj h))
        exact hb ▸ .null hread
      split at h
      · next hb =>
        obtain ⟨rest', hread, h⟩ := bind_eq_ok.1 h
        obtain ⟨rfl, rfl⟩ := Prod.mk.inj (Option.some.inj (Except.ok.inj h))
        exact hb ▸ .bool true hread
      split at h
      · next hb =>
        obtain ⟨rest', hread, h⟩ := bind_eq_ok.1 h
        obtain ⟨rfl, rfl⟩ := Prod.mk.inj (Option.some.inj (Except.ok.inj h))
        exact hb ▸ .bool false hread
      split at h
      · next hb =>
        obtain ⟨⟨x, rest'⟩, hread, h⟩ := bind_eq_ok.1 h
        obtain ⟨rfl, rfl⟩ := Prod.mk.inj (Option.some.inj (Except.ok.inj h))
        exact hb ▸ .negative hread
      split at h
      · next hb =>
        obtain ⟨⟨x, rest'⟩, hread, h⟩ := bind_eq_ok.1 h
        obtain ⟨rfl, rfl⟩ := Prod.mk.inj (Option.some.inj (Except.ok.inj h))
        exact .number hb hread
      split at h
      · next hb =>
        obtain ⟨⟨s, rest'⟩, hread, h⟩ := bind_eq_ok.1 h
        obtain ⟨rfl, rfl⟩ := Prod.mk.inj (Option.some.inj (Except.ok.inj h))
        exact hb ▸ .string hread
      split at h <;> cases h

theorem IsScalar.scalar? {bs rest : Bytes} {v : Value} (h : IsScalar bs v rest) :
    scalar? bs = .ok (some (v, rest)) := by
  cases h with
  | null h =>
      rw [Json.scalar?, if_pos rfl, h]
      rfl
  | bool b h =>
      cases b with
      | true =>
          rw [if_pos rfl] at h ⊢
          rw [Json.scalar?, if_neg (by decide), if_pos rfl, h]
          rfl
      | false =>
          rw [if_neg Bool.false_ne_true] at h ⊢
          rw [Json.scalar?, if_neg (by decide), if_neg (by decide), if_pos rfl, h]
          rfl
  | negative h =>
      rw [Json.scalar?, if_neg (by decide), if_neg (by decide), if_neg (by decide), if_pos rfl, h]
      rfl
  | @number b tail rest x hb h =>
      have hne : ∀ {c : UInt8}, Ascii.isDigit c = false → b ≠ c := by
        rintro c hc rfl
        rw [hc] at hb
        cases hb
      rw [Json.scalar?, if_neg (hne rfl), if_neg (hne rfl), if_neg (hne rfl), if_neg (hne rfl),
        if_pos hb, h]
      rfl
  | string h =>
      rw [Json.scalar?, if_neg (by decide), if_neg (by decide), if_neg (by decide),
        if_neg (by decide), if_neg (by decide), if_pos rfl, h]
      rfl

theorem scalar?_framing {bs rest : Bytes} {v : Value} (h : scalar? bs = .ok (some (v, rest))) :
    (∀ level, nestingFrom .outside level bs = nestingFrom .outside level rest) ∧
      ∀ suffix, EndsValue suffix →
        scalar? (bs ++ suffix) = .ok (some (v, rest ++ suffix)) := by
  cases isScalar_of_scalar? h with
  | null hread =>
      obtain ⟨hnesting, hsuffixes⟩ := word_framing (forall_mem_of_all rfl) hread
      refine ⟨fun level ↦ ?_, fun suffix _ ↦ (IsScalar.null (hsuffixes suffix)).scalar?⟩
      rw [nestingFrom_plain_cons (by decide), hnesting]
  | bool b hread =>
      have hletters : ∀ c ∈ if b then utf8 "rue" else utf8 "alse", IsPlain c := by
        cases b <;> exact forall_mem_of_all rfl
      have hfirst : IsPlain (if b then Ascii.lowerT else Ascii.lowerF) := by cases b <;> decide
      obtain ⟨hnesting, hsuffixes⟩ := word_framing hletters hread
      refine ⟨fun level ↦ ?_, fun suffix _ ↦ (IsScalar.bool b (hsuffixes suffix)).scalar?⟩
      rw [nestingFrom_plain_cons hfirst, hnesting]
  | negative hread =>
      obtain ⟨hnesting, hsuffixes⟩ := number_framing hread
      refine ⟨fun level ↦ ?_,
        fun suffix hsuffix ↦ (IsScalar.negative (hsuffixes suffix hsuffix)).scalar?⟩
      rw [nestingFrom_plain_cons (by decide), hnesting]
  | number hb hread =>
      obtain ⟨hnesting, hsuffixes⟩ := number_framing hread
      exact ⟨hnesting, fun suffix hsuffix ↦ (IsScalar.number hb (hsuffixes suffix hsuffix)).scalar?⟩
  | string hread =>
      obtain ⟨hnesting, hsuffixes⟩ := isFramed_string hread
      refine ⟨fun level ↦ ?_, fun suffix _ ↦ (IsScalar.string (hsuffixes suffix)).scalar?⟩
      rw [nestingFrom_quote_cons, hnesting]

theorem scalar?_eq_none {bs : Bytes} (h : scalar? bs = .ok none) :
    ∃ b tail, bs = b :: tail ∧ (b = Ascii.openBracket ∨ b = Ascii.openBrace) := by
  cases bs with
  | nil => cases h
  | cons b tail =>
      rw [scalar?] at h
      iterate 6
        split at h
        · obtain ⟨_, _, h⟩ := bind_eq_ok.1 h
          cases h
      split at h
      · exact ⟨b, tail, rfl, ‹_›⟩
      · cases h

theorem scalar?_of_open {b : UInt8} (h : b = Ascii.openBracket ∨ b = Ascii.openBrace)
    (tail : Bytes) : scalar? (b :: tail) = .ok none := by
  rcases h with rfl | rfl <;> rfl

/-! ## Values -/

/-- What a successful reading of a value says of its text.  The text opens `depth` brackets within
each other, and under any limit above that number the same value is read in front of whatever may
follow one. -/
def ReadsAtDepth (depth : Nat) (bs : Bytes) (v : Value) (rest : Bytes) : Prop :=
  (∀ level, nestingFrom .outside level bs =
      max (level + depth) (nestingFrom .outside level rest)) ∧
    ∀ limit suffix, depth < limit → EndsValue suffix →
      readValue limit (bs ++ suffix) = .ok (v, rest ++ suffix)

section Items

variable {item : Reader Value}
  (hitem : ∀ {bs rest : Bytes} {v : Value}, item bs = .ok (v, rest) →
    ∃ depth, ReadsAtDepth depth bs v rest)

include hitem

theorem readItems_framing {fuel : Nat} {first : Bool} {bs rest : Bytes} {vs : List Value}
    (h : readItems item fuel first bs = .ok (vs, rest)) :
    ∃ depth, (∀ level, nestingFrom .outside level bs =
        max (level + depth) (nestingFrom .outside level rest)) ∧
      (∃ tail, rest = Ascii.closeBracket :: tail) ∧
      ∀ limit suffix more, depth < limit → EndsValue suffix → fuel ≤ more →
        readItems (readValue limit) more first (bs ++ suffix) = .ok (vs, rest ++ suffix) := by
  induction fuel generalizing first bs vs with
  | zero => cases h
  | succ fuel ih =>
      obtain ⟨⟨found, bs₁⟩, hnext, h⟩ := bind_eq_ok.1 h
      obtain ⟨hnesting, hsuffixes⟩ := isFramed_nextItem first hnext
      cases found with
      | false =>
          obtain ⟨rfl, rfl⟩ := Prod.mk.inj (Except.ok.inj h)
          refine ⟨0, fun level ↦ ?_, nextItem_false hnext, fun limit suffix more _ _ hmore ↦ ?_⟩
          · rw [hnesting, Nat.add_zero, Nat.max_eq_right (le_nestingFrom _ _ _)]
          · obtain ⟨n, rfl⟩ : ∃ n, more = n + 1 := ⟨more - 1, by omega⟩
            rw [readItems, hsuffixes]
            rfl
      | true =>
          obtain ⟨⟨v, bs₂⟩, hv, hrest⟩ := bind_eq_ok.1 h
          obtain ⟨⟨vs', bs₃⟩, hvs, hend⟩ := bind_eq_ok.1 hrest
          obtain ⟨rfl, rfl⟩ := Prod.mk.inj (Except.ok.inj hend)
          obtain ⟨depth₁, hnesting₁, hread₁⟩ := hitem hv
          obtain ⟨depth₂, hnesting₂, hclose, hread₂⟩ := ih hvs
          refine ⟨max depth₁ depth₂, fun level ↦ ?_, hclose,
            fun limit suffix more hlimit hsuffix hmore ↦ ?_⟩
          · rw [hnesting, hnesting₁, hnesting₂]
            omega
          · obtain ⟨n, rfl⟩ : ∃ n, more = n + 1 := ⟨more - 1, by omega⟩
            rw [readItems, hsuffixes]
            simp only [bind, Except.bind, if_true]
            rw [hread₁ limit suffix (by omega) hsuffix]
            simp only
            rw [hread₂ limit suffix n (by omega) hsuffix (by omega)]
            rfl

theorem readMembers_framing {fuel : Nat} {first : Bool} {members members' : List (String × Value)}
    {bs rest : Bytes} (h : readMembers item fuel first members bs = .ok (members', rest)) :
    ∃ depth, (∀ level, nestingFrom .outside level bs =
        max (level + depth) (nestingFrom .outside level rest)) ∧
      (∃ tail, rest = Ascii.closeBrace :: tail) ∧
      ∀ limit suffix more, depth < limit → EndsValue suffix → fuel ≤ more →
        readMembers (readValue limit) more first members (bs ++ suffix) =
          .ok (members', rest ++ suffix) := by
  induction fuel generalizing first members bs with
  | zero => cases h
  | succ fuel ih =>
      obtain ⟨⟨found, bs₁⟩, hnext, h⟩ := bind_eq_ok.1 h
      obtain ⟨hnesting, hsuffixes⟩ := nextMember_framing hnext
      cases found with
      | false =>
          obtain ⟨rfl, rfl⟩ := Prod.mk.inj (Except.ok.inj h)
          refine ⟨0, fun level ↦ ?_, nextMember_false hnext, fun limit suffix more _ _ hmore ↦ ?_⟩
          · rw [hnesting, Nat.add_zero, Nat.max_eq_right (le_nestingFrom _ _ _)]
            rfl
          · obtain ⟨n, rfl⟩ : ∃ n, more = n + 1 := ⟨more - 1, by omega⟩
            rw [readMembers, hsuffixes]
            rfl
      | true =>
          obtain ⟨⟨key, bs₂⟩, hkey, hrest⟩ := bind_eq_ok.1 h
          obtain ⟨bs₃, hcolon, hrest⟩ := bind_eq_ok.1 hrest
          obtain ⟨⟨v, bs₄⟩, hv, hrest⟩ := bind_eq_ok.1 hrest
          obtain ⟨hnesting₂, hsuffixes₂⟩ := isFramed_string hkey
          obtain ⟨hnesting₃, hsuffixes₃⟩ := colon_framing hcolon
          obtain ⟨depth₁, hnesting₄, hread₁⟩ := hitem hv
          obtain ⟨depth₂, hnesting₅, hclose, hread₂⟩ := ih hrest
          refine ⟨max depth₁ depth₂, fun level ↦ ?_, hclose,
            fun limit suffix more hlimit hsuffix hmore ↦ ?_⟩
          · have hquoted : nestingFrom .outside level bs = nestingFrom .quoted level bs₁ :=
              hnesting level
            rw [hquoted, hnesting₂, hnesting₃, hnesting₄, hnesting₅]
            omega
          · obtain ⟨n, rfl⟩ : ∃ n, more = n + 1 := ⟨more - 1, by omega⟩
            rw [readMembers, hsuffixes]
            simp only [bind, Except.bind, if_true]
            rw [hsuffixes₂]
            simp only
            rw [hsuffixes₃]
            simp only
            rw [hread₁ limit suffix (by omega) hsuffix]
            exact hread₂ limit suffix n (by omega) hsuffix (by omega)

end Items

theorem readValue_scalar {bs rest : Bytes} {v : Value}
    (h : scalar? (skipSpace bs) = .ok (some (v, rest))) : ReadsAtDepth 0 bs v rest := by
  obtain ⟨hnesting, hsuffixes⟩ := scalar?_framing h
  refine ⟨fun level ↦ ?_, fun limit suffix hlimit hsuffix ↦ ?_⟩
  · rw [nestingFrom_skipSpace, hnesting, Nat.add_zero, Nat.max_eq_right (le_nestingFrom _ _ _)]
  · obtain ⟨n, rfl⟩ : ∃ n, limit = n + 1 := ⟨limit - 1, by omega⟩
    obtain ⟨b, tail, hspace⟩ : ∃ b tail, skipSpace bs = b :: tail := by
      cases hspace : skipSpace bs with
      | nil =>
          rw [hspace] at h
          cases h
      | cons b tail => exact ⟨b, tail, rfl⟩
    have happend := hsuffixes suffix hsuffix
    rw [hspace, List.cons_append] at happend
    rw [readValue]
    simp only [skipSpace_append_of_cons hspace, happend]
    rfl

theorem readValue_array {limit : Nat} {bs tail : Bytes}
    (h : skipSpace bs = Ascii.openBracket :: tail) (hlimit : limit ≠ 0) :
    readValue (limit + 1) bs = do
      let (vs, rest) ← readItems (readValue limit) (tail.length + 1) true tail
      let rest ← endArray rest
      return (.array vs, rest) := by
  rw [readValue]
  simp only [h, scalar?_of_open (.inl rfl), bind, Except.bind, if_neg hlimit]
  rfl

theorem readValue_object {limit : Nat} {bs tail : Bytes}
    (h : skipSpace bs = Ascii.openBrace :: tail) (hlimit : limit ≠ 0) :
    readValue (limit + 1) bs = do
      let (members, rest) ← readMembers (readValue limit) (tail.length + 1) true [] tail
      let rest ← endObject rest
      return (.object members, rest) := by
  rw [readValue]
  simp only [h, scalar?_of_open (.inr rfl), bind, Except.bind, if_neg hlimit]
  rfl

theorem readValue_skipSpace {limit : Nat} {bs bs' : Bytes} (h : skipSpace bs = skipSpace bs') :
    readValue (limit + 1) bs = readValue (limit + 1) bs' := by
  simp only [readValue, h]

theorem nextItem_skipSpace (first : Bool) {bs bs' : Bytes} (h : skipSpace bs = skipSpace bs') :
    nextItem first bs = nextItem first bs' := by
  simp only [nextItem, h]

theorem nextMember_skipSpace (first : Bool) {bs bs' : Bytes} (h : skipSpace bs = skipSpace bs') :
    nextMember first bs = nextMember first bs' := by
  simp only [nextMember, h]

/-- What a value begins with ends no array. -/
theorem skipSpace_of_readValue {limit : Nat} {bs rest : Bytes} {v : Value}
    (h : readValue limit bs = .ok (v, rest)) :
    ∃ b tail, skipSpace bs = b :: tail ∧ b ≠ Ascii.closeBracket := by
  cases limit with
  | zero => cases h
  | succ limit =>
      obtain ⟨found, hscalar, -⟩ := bind_eq_ok.1 h
      cases hspace : skipSpace bs with
      | nil =>
          rw [hspace] at hscalar
          cases hscalar
      | cons b tail =>
          refine ⟨b, tail, rfl, ?_⟩
          rintro rfl
          rw [hspace] at hscalar
          cases hscalar

/-- Reading a value depends on nothing behind it, and on the limit only through the depth of its
text. -/
theorem readsAtDepth_of_readValue {limit : Nat} {bs rest : Bytes} {v : Value}
    (h : readValue limit bs = .ok (v, rest)) : ∃ depth, ReadsAtDepth depth bs v rest := by
  induction limit generalizing bs v rest with
  | zero => cases h
  | succ limit ih =>
      obtain ⟨found, hscalar, hcontainer⟩ := bind_eq_ok.1 h
      cases found with
      | some found =>
          obtain ⟨v', rest'⟩ := found
          obtain ⟨rfl, rfl⟩ := Prod.mk.inj (Except.ok.inj hcontainer)
          exact ⟨0, readValue_scalar hscalar⟩
      | none =>
          obtain ⟨b, tail, hspace, hopen⟩ := scalar?_eq_none hscalar
          have hlimit : limit ≠ 0 := by
            intro hzero
            simp only [if_pos hzero] at hcontainer
            cases hcontainer
          have hstart : ∀ level, nestingFrom .outside level bs =
              nestingFrom .outside (level + 1) tail := fun level ↦ by
            rw [nestingFrom_skipSpace, hspace, nestingFrom_open_cons hopen]
          have hskip := skipSpace_append_of_cons hspace
          rcases hopen with rfl | rfl
          · rw [readValue_array hspace hlimit] at h
            obtain ⟨⟨vs, bs₁⟩, hitems, hrest⟩ := bind_eq_ok.1 h
            obtain ⟨rest', hend, hrest⟩ := bind_eq_ok.1 hrest
            obtain ⟨rfl, rfl⟩ := Prod.mk.inj (Except.ok.inj hrest)
            obtain ⟨depth, hnesting, ⟨tail', rfl⟩, hread⟩ := readItems_framing ih hitems
            obtain rfl : tail' = rest' := Except.ok.inj hend
            refine ⟨depth + 1, fun level ↦ ?_, fun limit' suffix hdepth hsuffix ↦ ?_⟩
            · rw [hstart, hnesting, nestingFrom_close_cons (.inl rfl), Nat.add_sub_cancel]
              omega
            · obtain ⟨n, rfl⟩ : ∃ n, limit' = n + 1 := ⟨limit' - 1, by omega⟩
              rw [readValue_array (hskip suffix) (by omega),
                hread n suffix _ (by omega) hsuffix (by simp)]
              rfl
          · rw [readValue_object hspace hlimit] at h
            obtain ⟨⟨members, bs₁⟩, hmembers, hrest⟩ := bind_eq_ok.1 h
            obtain ⟨rest', hend, hrest⟩ := bind_eq_ok.1 hrest
            obtain ⟨rfl, rfl⟩ := Prod.mk.inj (Except.ok.inj hrest)
            obtain ⟨depth, hnesting, ⟨tail', rfl⟩, hread⟩ := readMembers_framing ih hmembers
            obtain rfl : tail' = rest' := Except.ok.inj hend
            refine ⟨depth + 1, fun level ↦ ?_, fun limit' suffix hdepth hsuffix ↦ ?_⟩
            · rw [hstart, hnesting, nestingFrom_close_cons (.inr rfl), Nat.add_sub_cancel]
              omega
            · obtain ⟨n, rfl⟩ : ∃ n, limit' = n + 1 := ⟨limit' - 1, by omega⟩
              rw [readValue_object (hskip suffix) (by omega),
                hread n suffix _ (by omega) hsuffix (by simp)]
              rfl

/-- A text that is a value of its own is read as that value wherever it stands, as long as the
brackets around it leave room for its own. -/
theorem readValue_of_parse {text : Bytes} {v : Value} (h : Value.parse text = .ok v) :
    ∃ rest, skipSpace rest = [] ∧ ReadsAtDepth (nesting text) text v rest := by
  unfold Value.parse parse at h
  cases hread : readValue depthLimit text with
  | error f => simp [toEnd, hread, bind, Except.bind, Except.mapError] at h
  | ok found =>
      obtain ⟨v', rest⟩ := found
      simp only [toEnd, hread, bind, Except.bind] at h
      obtain ⟨depth, hdepth⟩ := readsAtDepth_of_readValue hread
      cases hspace : skipSpace rest with
      | cons b tail =>
          rw [hspace] at h
          cases h
      | nil =>
          rw [hspace] at h
          obtain rfl : v' = v := Except.ok.inj h
          refine ⟨rest, hspace, ?_⟩
          have hrest : nestingFrom .outside 0 rest = 0 := by
            rw [nestingFrom_skipSpace, hspace]
            rfl
          have htext : nesting text = depth := by
            rw [nesting, hdepth.1, hrest]
            omega
          rwa [htext]

end Json
end HourlyUsage
