import HourlyUsage.CommandLine.Argument
import HourlyUsage.Proofs.CheckedArithmetic
import HourlyUsage.Proofs.DateArgument

/-!
# Windows as arguments

A window is written as digits with one letter behind them, and white space around both.
The number has to fit 64 bits with a sign, and its seconds the range of durations.  Each
of these bounds is held against 64 bits on the way, digit by digit, and nothing that
leaves them is taken for a window.
-/

namespace HourlyUsage

open Text
open Timestamp.Relaxed (IsNumber exists_blanks trimStart_append trimStart_digits)

/-! ## Written windows -/

/-- The letters of the units, and the seconds of each. -/
inductive IsWindowUnit : Char → Nat → Prop
  | minutes : IsWindowUnit 'm' 60
  | hours : IsWindowUnit 'h' 3600
  | days : IsWindowUnit 'd' 86400

/-- Digits and the letter of a unit, between white space. -/
def WritesWindow (n unit : Nat) (cs : List Char) : Prop :=
  ∃ before ds letter after, cs = before ++ (ds ++ letter :: after) ∧
    (∀ c ∈ before, isBlank c = true) ∧ (∀ c ∈ after, isBlank c = true) ∧
      IsNumber n ds ∧ IsWindowUnit letter unit

/-- The text is that of a window of so many seconds, with a number of 64 bits and with seconds that
durations reach. -/
def NamesWindow (secs : Nat) (text : String) : Prop :=
  ∃ n unit, WritesWindow n unit text.toList ∧ n ≤ 9223372036854775807 ∧
    n * unit = secs ∧ secs ≤ 9223372036854775

theorem windowUnit?_eq_some_iff {cs : List Char} {unit : Nat} :
    windowUnit? cs = some unit ↔ ∃ letter, cs = [letter] ∧ IsWindowUnit letter unit := by
  constructor
  · intro h
    unfold windowUnit? at h
    split at h
    · obtain rfl := Option.some.inj h
      exact ⟨'m', rfl, .minutes⟩
    · obtain rfl := Option.some.inj h
      exact ⟨'h', rfl, .hours⟩
    · obtain rfl := Option.some.inj h
      exact ⟨'d', rfl, .days⟩
    · cases h
  · rintro ⟨letter, rfl, h⟩
    cases h <;> rfl

namespace IsWindowUnit

variable {letter : Char} {unit : Nat}

theorem isDigit_eq_false (h : IsWindowUnit letter unit) : letter.isDigit = false := by
  cases h <;> decide

theorem isBlank_eq_false (h : IsWindowUnit letter unit) : isBlank letter = false := by
  cases h <;> decide

end IsWindowUnit

/-! ## White space around a text -/

namespace Text

theorem trimEnd_append {after : List Char} (h : ∀ c ∈ after, isBlank c = true) (cs : List Char) :
    trimEnd (cs ++ after) = trimEnd cs := by
  unfold trimEnd
  rw [List.reverse_append,
    List.dropWhile_append_of_pos fun c hc ↦ h c (List.mem_reverse.1 hc)]

theorem trimEnd_concat {c : Char} (h : isBlank c = false) (cs : List Char) :
    trimEnd (cs ++ [c]) = cs ++ [c] := by
  unfold trimEnd
  rw [List.reverse_append, List.reverse_singleton, List.singleton_append,
    List.dropWhile_cons_of_neg (by simp [h]), List.reverse_cons, List.reverse_reverse]

/-- What is trimmed away on both sides is white space. -/
theorem exists_trim (cs : List Char) :
    ∃ before after, cs = before ++ (trim cs ++ after) ∧ (∀ c ∈ before, isBlank c = true) ∧
      ∀ c ∈ after, isBlank c = true := by
  obtain ⟨before, hbefore, hcs⟩ := exists_blanks cs
  obtain ⟨after, hafter, hend⟩ := exists_blanks (trimStart cs).reverse
  have hsplit : trimStart cs = trim cs ++ after.reverse := by
    have hreverse := congrArg List.reverse hend
    rwa [List.reverse_reverse, List.reverse_append] at hreverse
  exact ⟨before, after.reverse, hsplit ▸ hcs, hbefore, fun c hc ↦ hafter c (List.mem_reverse.1 hc)⟩

end Text

/-! ## Reading windows -/

namespace Duration

theorem ofSeconds?_eq_some_iff {n : Nat} {d : Duration} :
    ofSeconds? n = some d ↔ (d.secs = n ∧ d.nanos = 0) ∧ n ≤ 9223372036854775 := by
  constructor
  · intro h
    have hbounds := d.secs_bounds
    unfold ofSeconds? ofParts? at h
    split at h
    · cases h
      exact ⟨⟨rfl, rfl⟩, by omega⟩
    · cases h
  · rintro ⟨⟨hsecs, hnanos⟩, -⟩
    rw [← hsecs, ofSeconds?_self hnanos]

end Duration

/-- A text is split where its digits end. -/
theorem toOption_readWindow (text : String) :
    (readWindow text).toOption =
      (windowUnit? ((trim text.toList).dropWhile Char.isDigit)).bind fun unit ↦
        if ((trim text.toList).takeWhile Char.isDigit).isEmpty = true ∨
            windowCountLimit < digitsValue ((trim text.toList).takeWhile Char.isDigit) then none
        else Duration.ofSeconds?
          (digitsValue ((trim text.toList).takeWhile Char.isDigit) * unit : Nat) := by
  unfold readWindow
  dsimp only
  split
  · next hwindow => exact hwindow.symm
  · next hwindow => exact hwindow.symm

theorem readWindow_of_writesWindow {text : String} {n unit : Nat} {d : Duration}
    (h : WritesWindow n unit text.toList) (hn : n ≤ windowCountLimit)
    (hd : Duration.ofSeconds? (n * unit : Nat) = some d) : readWindow text = .ok d := by
  obtain ⟨before, ds, letter, after, htext, hbefore, hafter, hnumber, hunit⟩ := h
  have htrim : trim text.toList = ds ++ [letter] := by
    rw [htext, trim, trimStart_append hbefore,
      trimStart_digits hnumber.digits hnumber.ne_nil, List.append_cons,
      trimEnd_append hafter, trimEnd_concat hunit.isBlank_eq_false]
  have hend : EndsDigits [letter] := endsDigits_cons hunit.isDigit_eq_false []
  have hletter := windowUnit?_eq_some_iff.2 ⟨letter, rfl, hunit⟩
  have hcount : ¬ (ds.isEmpty = true ∨ windowCountLimit < n) := by
    rw [not_or, List.isEmpty_iff]
    exact ⟨hnumber.ne_nil, Nat.not_lt.2 hn⟩
  rw [← toOption_eq_some, toOption_readWindow, htrim, takeWhile_digits hnumber.digits hend,
    dropWhile_digits hnumber.digits hend, hletter, Option.bind_some, hnumber.value,
    if_neg hcount, hd]

theorem exists_writesWindow_of_readWindow {text : String} {d : Duration}
    (h : readWindow text = .ok d) :
    ∃ n unit, WritesWindow n unit text.toList ∧ n ≤ windowCountLimit ∧
      Duration.ofSeconds? (n * unit : Nat) = some d := by
  rw [← toOption_eq_some, toOption_readWindow] at h
  obtain ⟨unit, hunit, h⟩ := Option.bind_eq_some_iff.1 h
  obtain ⟨letter, hletter, hunit⟩ := windowUnit?_eq_some_iff.1 hunit
  split at h
  · cases h
  · next hcount =>
    obtain ⟨hne, hfits⟩ := not_or.1 hcount
    have hdigits : ∀ c ∈ (trim text.toList).takeWhile Char.isDigit, IsDigitChar c :=
      fun c hc ↦ .of_isDigit (List.mem_takeWhile_imp hc)
    obtain ⟨before, after, htext, hbefore, hafter⟩ := exists_trim text.toList
    have hsplit := (trim text.toList).takeWhile_append_dropWhile (p := Char.isDigit)
    rw [hletter] at hsplit
    rw [← hsplit, List.append_assoc] at htext
    exact ⟨_, unit, ⟨before, _, letter, after, htext, hbefore, hafter,
      ⟨hdigits, by simpa using hne, rfl⟩, hunit⟩, Nat.not_lt.1 hfits, h⟩

theorem readWindow_eq_ok_iff {text : String} {d : Duration} :
    readWindow text = .ok d ↔
      ∃ secs : Nat, NamesWindow secs text ∧ d.secs = secs ∧ d.nanos = 0 := by
  constructor
  · intro h
    obtain ⟨n, unit, hwrites, hn, hd⟩ := exists_writesWindow_of_readWindow h
    obtain ⟨hparts, hsecs⟩ := Duration.ofSeconds?_eq_some_iff.1 hd
    exact ⟨n * unit, ⟨n, unit, hwrites, hn, rfl, hsecs⟩, hparts⟩
  · rintro ⟨_, ⟨n, unit, hwrites, hn, rfl, hsecs⟩, hparts⟩
    exact readWindow_of_writesWindow hwrites hn
      (Duration.ofSeconds?_eq_some_iff.2 ⟨hparts, hsecs⟩)

theorem readWindow_error {text : String} {e : ArgumentError} (h : readWindow text = .error e) :
    e = .badWindow (String.ofList (trim text.toList)) := by
  unfold readWindow at h
  dsimp only at h
  split at h
  · cases h
  · exact (Except.error.inj h).symm

theorem NamesWindow.exists_duration {secs : Nat} {text : String} (h : NamesWindow secs text) :
    ∃ d : Duration, d.secs = secs ∧ d.nanos = 0 := by
  obtain ⟨n, unit, -, -, -, hsecs⟩ := h
  obtain ⟨d, -, hd⟩ :=
    @Duration.ofSeconds?_of_bounds secs (by omega) (by omega)
  exact ⟨d, hd⟩

theorem readWindow_eq_error_iff {text : String} {e : ArgumentError} :
    readWindow text = .error e ↔ (∀ secs, ¬ NamesWindow secs text) ∧
      e = .badWindow (String.ofList (trim text.toList)) := by
  constructor
  · intro h
    refine ⟨fun secs hsecs ↦ ?_, readWindow_error h⟩
    obtain ⟨d, hd⟩ := hsecs.exists_duration
    rw [readWindow_eq_ok_iff.2 ⟨secs, hsecs, hd⟩] at h
    cases h
  · rintro ⟨hnone, rfl⟩
    cases hread : readWindow text with
    | ok d =>
        obtain ⟨secs, hsecs, -⟩ := readWindow_eq_ok_iff.1 hread
        exact absurd hsecs (hnone secs)
    | error e => rw [readWindow_error hread]

/-! ## Windows on numbers of 64 bits -/

namespace Checked

/-- Appends digits to a number, one by one, while 64 bits hold it. -/
def number : Int → List Char → Option Int
  | n, [] => some n
  | n, c :: cs => do number (← Word.add? (← Word.mul? n 10) (digitValue c)) cs

/-- The number of a run of digits, of which there has to be one. -/
def digits? (ds : List Char) : Option Int := if ds.isEmpty then none else number 0 ds

/-- The window of a text: reads the number, multiplies it by its unit and makes a duration of it,
each held against its range. -/
def window? (text : String) : Option Duration := do
  let cs := trim text.toList
  let n ← digits? (cs.takeWhile Char.isDigit)
  let unit ← windowUnit? (cs.dropWhile Char.isDigit)
  Duration.ofSeconds? (← Word.mul? n unit)

theorem of?_natCast (n : Nat) :
    Word.of? n = if n ≤ windowCountLimit then some (n : Int) else none := by
  have hlimit : windowCountLimit = 9223372036854775807 := rfl
  unfold Word.of?
  split
  · rw [if_pos (by omega)]
  · rw [if_neg (by omega)]

/-- One more digit behind a number is held against 64 bits twice, as often as it is needed. -/
theorem append_digit_eq (n : Nat) (c : Char) :
    ((Word.mul? n 10).bind fun m ↦ Word.add? m (digitValue c)) =
      Word.of? (10 * n + digitValue c : Nat) := by
  have hmul : (n : Int) * 10 = (10 * n : Nat) := by omega
  rw [Word.mul?, hmul, of?_natCast]
  split
  · rw [Option.bind_some, Word.add?, Nat.cast_add]
  · rw [Option.bind_none, of?_natCast, if_neg (by omega)]

/-- A number that outgrows 64 bits with one of its digits outgrows them with all of them. -/
theorem number_eq {ds : List Char} {n : Nat} (hn : n ≤ windowCountLimit) :
    number n ds = Word.of? (n * 10 ^ ds.length + digitsValue ds : Nat) := by
  induction ds generalizing n with
  | nil =>
      have hvalue : n * 10 ^ ([] : List Char).length + digitsValue [] = n := by
        rw [List.length_nil, Nat.pow_zero, Nat.mul_one]
        rfl
      rw [hvalue, of?_natCast, if_pos hn]
      rfl
  | cons c ds ih =>
      have hstep : number n (c :: ds) =
          ((Word.mul? n 10).bind fun m ↦ Word.add? m (digitValue c)).bind fun m ↦
            number m ds := by
        rw [Option.bind_assoc]
        rfl
      rw [hstep, append_digit_eq, append_digit, of?_natCast]
      split
      · next hfits => rw [Option.bind_some, ih hfits]
      · next hfits =>
        have hlarge : ¬ (10 * n + digitValue c) * 10 ^ ds.length + digitsValue ds ≤
            windowCountLimit :=
          fun h ↦ hfits (Nat.le_of_lt_succ (lt_of_append_lt (Nat.lt_succ_of_le h)))
        rw [Option.bind_none, of?_natCast, if_neg hlarge]

/-- The product of a number and a unit leaves 64 bits only where no duration is as long. -/
theorem ofSeconds?_mul (n unit : Nat) :
    ((Word.mul? n unit).bind Duration.ofSeconds?) = Duration.ofSeconds? (n * unit : Nat) := by
  rw [Word.mul?, ← Nat.cast_mul, of?_natCast]
  split
  · rw [Option.bind_some]
  · next hlarge =>
    cases hd : Duration.ofSeconds? (n * unit : Nat) with
    | none => rfl
    | some d =>
        have hlimit : windowCountLimit = 9223372036854775807 := rfl
        have hsecs := (Duration.ofSeconds?_eq_some_iff.1 hd).2
        omega

theorem digits?_eq (ds : List Char) :
    digits? ds = if ds.isEmpty = true ∨ windowCountLimit < digitsValue ds then none
      else some (digitsValue ds : Int) := by
  have hnumber := @number_eq ds 0 (Nat.zero_le _)
  rw [Nat.zero_mul, Nat.zero_add, of?_natCast] at hnumber
  unfold digits?
  by_cases hempty : ds.isEmpty = true
  · rw [if_pos hempty, if_pos (.inl hempty)]
  · rw [if_neg hempty]
    refine hnumber.trans ?_
    by_cases hfits : digitsValue ds ≤ windowCountLimit
    · rw [if_pos hfits, if_neg (not_or.2 ⟨hempty, Nat.not_lt.2 hfits⟩)]
    · rw [if_neg hfits, if_pos (.inr (Nat.lt_of_not_le hfits))]

/-- No text is taken for another window on numbers of 64 bits, and none is refused there alone. -/
theorem window?_eq (text : String) : window? text = (readWindow text).toOption := by
  rw [toOption_readWindow]
  simp only [window?, digits?_eq, Option.bind_eq_bind]
  cases windowUnit? ((trim text.toList).dropWhile Char.isDigit) with
  | none => simp only [Option.bind_none, Option.bind_fun_none]
  | some unit =>
      rw [Option.bind_some, ← ofSeconds?_mul]
      split
      · rw [Option.bind_none]
      · rw [Option.bind_some, Option.bind_some]

end Checked

/-! ## The windows of a text -/

/-- A text is taken for a window exactly if it writes digits with the letter of a unit behind them,
between white space, with a number that fits 64 bits and seconds that durations reach; the window
has just these seconds.  Every other text is refused.  The same is read on numbers of 64 bits, where
the digits, the product and the duration are checked each on their own. -/
theorem readWindow_of_written (text : String) :
    (∀ d, readWindow text = .ok d ↔
      ∃ secs : Nat, NamesWindow secs text ∧ d.secs = secs ∧ d.nanos = 0) ∧
    (∀ e, readWindow text = .error e ↔ (∀ secs, ¬ NamesWindow secs text) ∧
      e = .badWindow (String.ofList (trim text.toList))) ∧
    Checked.window? text = (readWindow text).toOption :=
  ⟨fun _ ↦ readWindow_eq_ok_iff, fun _ ↦ readWindow_eq_error_iff, Checked.window?_eq text⟩

/-- The longest window of whole days, and one day more. -/
example : (readWindow " 0106751991167d").toOption.map Duration.secs = some 9223372036828800 ∧
    (readWindow "106751991168d").toOption = none := by decide

end HourlyUsage
