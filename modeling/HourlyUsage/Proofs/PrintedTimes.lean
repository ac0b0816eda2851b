import HourlyUsage.Proofs.CommandAgreement
import HourlyUsage.Proofs.LocalTimestamp
import HourlyUsage.Proofs.ReportDocument

/-!
# Times of reports

The starts and ends that a query or a plan reports are whole hours.  In the table they
stand behind their labels or in the first two columns of a line, in the JSON document they
are the members of these names, and what was printed can be given to a command again.
-/

namespace HourlyUsage

open Json Text

/-! ## Strings in documents -/

namespace Json

variable {item : Bytes} {items : List Bytes}

theorem infix_separate (separator : Bytes) (h : item ∈ items) :
    item <:+: separate separator items := by
  induction items with
  | nil => cases h
  | cons b bs ih =>
      cases bs with
      | nil => exact List.mem_singleton.1 h ▸ List.infix_rfl
      | cons c cs =>
          rcases List.mem_cons.1 h with rfl | h
          · exact ⟨[], separator ++ separate separator (c :: cs), by simp [separate]⟩
          · exact (ih h).trans ⟨b ++ separator, [], List.append_nil _⟩

theorem infix_indentedArray (level : Nat) (h : item ∈ items) :
    item <:+: indentedArray level items := by
  have hne : items.isEmpty = false := List.isEmpty_eq_false_iff.2 (List.ne_nil_of_mem h)
  rw [indentedArray, hne]
  refine (infix_separate (Ascii.comma :: freshLine (level + 1)) h).trans
    ⟨Ascii.openBracket :: freshLine (level + 1), freshLine level ++ [Ascii.closeBracket], ?_⟩
  simp

theorem infix_separate_pair (separator a b : Bytes) (front back : List Bytes) :
    a ++ separator ++ b <:+: separate separator (front ++ a :: b :: back) := by
  induction front with
  | nil => cases back <;> exact ⟨[], _, by simp [separate]; rfl⟩
  | cons first front ih =>
      cases front with
      | nil => exact ih.trans ⟨first ++ separator, [], List.append_nil _⟩
      | cons next front => exact ih.trans ⟨first ++ separator, [], List.append_nil _⟩

theorem infix_memberLine (name : String) (value : Bytes) : value <:+: memberLine (name, value) :=
  ⟨printString name ++ [Ascii.colon, Ascii.space], [], by simp [memberLine]⟩

theorem infix_indentedObject (level : Nat) {part : Bytes} {members : List (String × Bytes)}
    (hne : members ≠ [])
    (h : part <:+: separate (Ascii.comma :: freshLine (level + 1)) (members.map memberLine)) :
    part <:+: indentedObject level members := by
  rw [indentedObject, List.isEmpty_eq_false_iff.2 hne]
  refine h.trans
    ⟨Ascii.openBrace :: freshLine (level + 1), freshLine level ++ [Ascii.closeBrace], ?_⟩
  simp only [Bool.false_eq_true, if_false, List.append_assoc]
  rfl

theorem infix_indentedObject_of_mem (level : Nat) (name : String) {value : Bytes}
    {members : List (String × Bytes)} (h : (name, value) ∈ members) :
    value <:+: indentedObject level members := by
  exact infix_indentedObject level (List.ne_nil_of_mem h)
    ((infix_memberLine name value).trans (infix_separate _ (List.mem_map_of_mem h)))

/-- The members of a start and an end, on lines behind each other. -/
def spanMembers (level : Nat) (start stop : String) : Bytes :=
  memberLine ("start", printString start) ++ (Ascii.comma :: freshLine (level + 1)) ++
    memberLine ("end", printString stop)

theorem infix_spanMembers (level : Nat) (start stop : String) :
    printString start <:+: spanMembers level start stop ∧
      printString stop <:+: spanMembers level start stop := by
  unfold spanMembers
  exact ⟨(infix_memberLine "start" _).trans ⟨[], _, (List.append_assoc ..).symm⟩,
    (infix_memberLine "end" _).trans (List.suffix_append _ _).isInfix⟩

theorem spanMembers_infix (level : Nat) (front back : List (String × Bytes))
    (start stop : String) :
    spanMembers level start stop <:+: indentedObject level
      (front ++ ("start", printString start) :: ("end", printString stop) :: back) := by
  apply infix_indentedObject level (by simp)
  rw [List.map_append]
  exact infix_separate_pair ..

end Json

/-! ## Words in tables -/

namespace Text

/-- White space stands on both sides of the word. -/
def IsWord (word text : String) : Prop :=
  ∃ a b, isBlank a = true ∧ isBlank b = true ∧ a :: (word.toList ++ [b]) <:+: text.toList

theorem infix_toList (front part back : String) :
    part.toList <:+: (front ++ part ++ back).toList :=
  ⟨front.toList, back.toList, by rw [String.toList_append, String.toList_append]⟩

theorem infix_append {part text : String} (h : part.toList <:+: text.toList) (back : String) :
    part.toList <:+: (text ++ back).toList := by
  rw [String.toList_append]
  exact h.trans (List.prefix_append ..).isInfix

theorem suffix_append {part text : String} (h : part.toList <:+ text.toList) (back : String) :
    (part ++ back).toList <:+ (text ++ back).toList := by
  rw [String.toList_append, String.toList_append]
  exact List.suffix_append_self_iff.2 h

theorem IsWord.of_infix {word part text : String} (h : IsWord word part)
    (hpart : part.toList <:+: text.toList) : IsWord word text := by
  obtain ⟨a, b, ha, hb, hword⟩ := h
  exact ⟨a, b, ha, hb, hword.trans hpart⟩

theorem IsWord.append {word text : String} (h : IsWord word text) (back : String) :
    IsWord word (text ++ back) :=
  h.of_infix (infix_append List.infix_rfl back)

/-- A word behind a text that ends with white space, and in front of one that begins with it. -/
theorem isWord_between (front lead word trail : String) {a b : Char}
    (hlead : lead.toList.getLast? = some a) (ha : isBlank a = true)
    (htrail : trail.toList.head? = some b) (hb : isBlank b = true) :
    IsWord word (front ++ lead ++ word ++ trail) := by
  obtain ⟨before, hlead⟩ := List.getLast?_eq_some_iff.1 hlead
  obtain ⟨behind, htrail⟩ := List.head?_eq_some_iff.1 htrail
  refine ⟨a, b, ha, hb, front.toList ++ before, behind, ?_⟩
  simp [hlead, htrail]

/-- Each of some lines stands behind the end of a line. -/
theorem infix_lines {line : String} {lines : List String}
    (hlines : ∀ l ∈ lines, l.toList.getLast? = some '\n') (h : line ∈ lines) :
    ("\n" ++ line).toList <:+: ("\n" ++ String.join lines).toList := by
  induction lines with
  | nil => cases h
  | cons first lines ih =>
      obtain ⟨hfirst, hrest⟩ := List.forall_mem_cons.1 hlines
      rcases List.mem_cons.1 h with rfl | h
      · exact ⟨[], lines.flatMap String.toList, by simp [String.toList_join]⟩
      · obtain ⟨text, htext⟩ := List.getLast?_eq_some_iff.1 hfirst
        refine (ih hrest h).trans ⟨'\n' :: text, [], ?_⟩
        simp [String.toList_join, htext]

end Text

/-- A cell of a table, behind the end of a line or the space between two columns. -/
theorem isWord_cell (front lead : String) (width : Nat) (s : String) {a : Char}
    (hlead : lead.toList.getLast? = some a) (ha : isBlank a = true) :
    IsWord s (front ++ lead ++ padRight width s ++ "  ") := by
  have hpadding : (String.ofList (List.replicate (width - s.length) ' ') ++ "  ").toList.head? =
      some ' ' := by
    cases width - s.length <;> simp [List.replicate_succ]
  have hword := isWord_between front lead s _ hlead ha hpadding (by decide)
  simp only [padRight, String.append_assoc] at hword ⊢
  exact hword

/-- The lines of a start and of an end, each behind its label. -/
def labelledLines (start stop : String) : String :=
  "\n" ++ "Start:         " ++ start ++ "\n" ++ "End:           " ++ stop ++ "\n"

/-- The beginning of a line, a start in its first column and an end in its second one. -/
def firstColumns (start stop : String) : String :=
  "\n" ++ padRight 20 start ++ "  " ++ padRight 20 stop ++ "  "

theorem isWord_labelledLines (start stop : String) :
    IsWord start (labelledLines start stop) ∧ IsWord stop (labelledLines start stop) := by
  have hstart := isWord_between "\n" "Start:         " start "\n" rfl (by decide) rfl (by decide)
  exact ⟨((hstart.append _).append _).append _,
    isWord_between _ "End:           " stop "\n" rfl (by decide) rfl (by decide)⟩

theorem isWord_firstColumns (start stop : String) :
    IsWord start (firstColumns start stop) ∧ IsWord stop (firstColumns start stop) := by
  have hstart := isWord_cell "" "\n" 20 start rfl (by decide)
  rw [String.empty_append] at hstart
  exact ⟨(hstart.append _).append _, isWord_cell _ "  " 20 stop rfl (by decide)⟩

theorem QueryReport.labelledLines_infix (r : QueryReport) :
    (labelledLines r.start.textToSecond r.stop.textToSecond).toList <:+: r.table.toList := by
  unfold QueryReport.table labelledLines
  -- the pieces behind the lines are taken off the table, then those of the lines off both
  iterate 7 refine infix_append ?_ _
  refine List.IsSuffix.isInfix ?_
  iterate 6 refine suffix_append ?_ _
  rw [String.toList_append]
  exact List.suffix_append ..

theorem QueryReport.spanMembers_infix (r : QueryReport) :
    spanMembers 0 r.start.text r.stop.text <:+: r.json := by
  unfold QueryReport.json
  rw [printInstant_eq_printString, printInstant_eq_printString]
  exact Json.spanMembers_infix 0 [_] _ _ _

/-- The row of a window in the table of a plan. -/
def Window.row (w : Window) : String :=
  tableRow w.start.textToSecond w.stop.textToSecond w.query.startOffset w.query.endOffset

namespace PlanReport

variable {r : PlanReport} {w : Window}

theorem table_of_mem (h : w ∈ r.windows) :
    r.table = tableRow "START" "END" "START OFFSET" "END OFFSET" ++ rule '─' 134 ++
      ("\n" ++ String.join (r.windows.map Window.row)) ++
      ("\n" ++ "Total: " ++ natText r.windows.length ++ " window(s) of " ++
        String.ofList (signedDecimal r.windowHours) ++ "h for " ++ r.account ++ "\n") := by
  have hne : r.windows.isEmpty = false := List.isEmpty_eq_false_iff.2 (List.ne_nil_of_mem h)
  simp only [table, hne, Bool.false_eq_true, if_false, String.append_assoc]
  rfl

theorem firstColumns_infix (h : w ∈ r.windows) :
    (firstColumns w.start.textToSecond w.stop.textToSecond).toList <:+: r.table.toList := by
  have hend : ∀ l ∈ r.windows.map Window.row, l.toList.getLast? = some '\n' := by
    intro l hl
    obtain ⟨v, -, rfl⟩ := List.mem_map.1 hl
    rw [Window.row, tableRow, String.toList_append, List.getLast?_append]
    rfl
  have hrow := infix_lines hend (List.mem_map_of_mem h)
  have hcolumns : "\n" ++ w.row = "" ++ firstColumns w.start.textToSecond w.stop.textToSecond ++
      (padRight 44 w.query.startOffset ++ "  " ++ padRight 44 w.query.endOffset ++ "\n") := by
    simp only [Window.row, tableRow, firstColumns, String.append_assoc, String.empty_append]
  rw [hcolumns] at hrow
  rw [table_of_mem h]
  exact ((infix_toList ..).trans hrow).trans (infix_toList ..)

theorem spanMembers_infix (h : w ∈ r.windows) :
    spanMembers 2 w.start.text w.stop.text <:+: r.json := by
  have hwindow : windowJson 2 w <:+: r.json := by
    have hwindows := infix_indentedArray 1 (List.mem_map_of_mem (f := windowJson 2) h)
    unfold json
    exact hwindows.trans (infix_indentedObject_of_mem 0 "windows" (by simp))
  refine List.IsInfix.trans ?_ hwindow
  unfold windowJson
  rw [printInstant_eq_printString, printInstant_eq_printString]
  exact Json.spanMembers_infix 2 [] _ _ _

end PlanReport

/-! ## The times of a report -/

namespace Instant

theorem IsOnHour.writtenNanos_eq {t : Instant} (h : t.IsOnHour) : t.writtenNanos = 0 := by
  rw [writtenNanos, (isOnHour_iff.1 h).2]

theorem textToSecond_of_isOnHour {t : Instant} (h : t.IsOnHour) : t.textToSecond = t.text := by
  have hfraction : fractionChars t.writtenNanos = [] := by
    rw [h.writtenNanos_eq]
    rfl
  rw [textToSecond, text, chars, hfraction, List.append_nil]

theorem text_of_isOnHour {t : Instant} (h : t.IsOnHour) :
    t.text = String.ofList (t.localChars UtcOffset.utc 0 ['Z']) := by
  rw [← textToSecond_of_isOnHour h, textToSecond, clockChars_eq_localChars]

/-- A whole hour of a four-digit year is read back from its text. -/
theorem readTime_text {t : Instant} (hhour : t.IsOnHour) (hyear : t.date.HasFourDigitYear) :
    readTime t.text = .ok t := by
  have hlocal : (t.localDate UtcOffset.utc).HasFourDigitYear := by rwa [localDate_utc]
  have hexact : 10 ^ (9 - 0) ∣ t.writtenNanos := by
    rw [hhour.writtenNanos_eq]
    exact dvd_zero _
  have hread := read?_localChars hlocal (by decide) hexact (.inr ⟨rfl, rfl⟩)
  rw [asWritten_of_leapOnMinute (hhour ▸ t.leapOnMinute_truncateToHour)] at hread
  rw [text_of_isOnHour hhour]
  exact readTime_of_read? hread

end Instant

namespace IsChain

/-- All windows between two whole hours begin and end on whole hours. -/
theorem isOnHour {account : String} {a b : Instant} {ws : List Window}
    (h : IsChain account a ws b) (ha : a.IsOnHour) :
    ∀ w ∈ ws, w.start.IsOnHour ∧ w.stop.IsOnHour := by
  induction ws generalizing a with
  | nil => exact List.forall_mem_nil _
  | cons w ws ih =>
      obtain ⟨hw, -, hstop, hws⟩ := h
      have hstart : w.start = a := congrArg Window.start hw
      exact List.forall_mem_cons.2 ⟨⟨hstart ▸ ha, hstop⟩, ih hws hstop⟩

end IsChain

theorem Range.report_eq_ok {r : Range} {q : QueryReport} (h : r.report = .ok q) :
    q.start = r.start.truncateToHour ∧ q.stop = r.stop.truncateToHour := by
  rw [Range.report_eq] at h
  obtain ⟨-, -, h⟩ := bind_eq_ok.1 h
  obtain ⟨query, -, h⟩ := bind_eq_ok.1 h
  cases h
  exact ⟨rfl, rfl⟩

theorem PlanRequest.report_eq_ok {r : PlanRequest} {p : PlanReport} (h : r.report = .ok p) :
    IsChain r.range.account r.range.start.truncateToHour p.windows
      r.range.stop.truncateToHour := by
  obtain ⟨s, hs, h⟩ := bind_eq_ok.1 h
  cases h
  exact Schedule.isChain_of_ofRange (schedule_eq_ok hs)

namespace Report

/-- The starts and ends that a report shows, each start with its end. -/
def spans : Report → List (Instant × Instant)
  | .query r => [(r.start, r.stop)]
  | .plan r => r.windows.map fun w ↦ (w.start, w.stop)
  | .exported _ => []

/-- How a start and an end stand in the table of a report. -/
def spanText : Report → (start stop : String) → String
  | .query _ => labelledLines
  | .plan _ => firstColumns
  | .exported _ => fun _ _ ↦ ""

/-- The level of the objects with a start and an end in the document of a report. -/
def spanLevel : Report → Nat
  | .query _ => 0
  | .plan _ => 2
  | .exported _ => 0

theorem mem_times_iff {report : Report} {t : Instant} :
    t ∈ report.times ↔ ∃ p ∈ report.spans, t = p.1 ∨ t = p.2 := by
  cases report <;> simp [times, spans]

theorem shown_of_mem_spans {report : Report} {p : Instant × Instant} (h : p ∈ report.spans) :
    (report.spanText p.1.textToSecond p.2.textToSecond).toList <:+: report.table.toList ∧
      spanMembers report.spanLevel p.1.text p.2.text <:+: report.json := by
  cases report with
  | query r =>
      obtain rfl := List.mem_singleton.1 h
      exact ⟨r.labelledLines_infix, r.spanMembers_infix⟩
  | plan r =>
      obtain ⟨w, hw, rfl⟩ := List.mem_map.1 h
      exact ⟨PlanReport.firstColumns_infix hw, PlanReport.spanMembers_infix hw⟩
  | exported r => cases h

theorem isWord_spanText {report : Report} {p : Instant × Instant} (h : p ∈ report.spans)
    (start stop : String) :
    IsWord start (report.spanText start stop) ∧ IsWord stop (report.spanText start stop) := by
  cases report with
  | query r => exact isWord_labelledLines start stop
  | plan r => exact isWord_firstColumns start stop
  | exported r => cases h

/-- Every time stands in both forms of a report. -/
theorem shown_of_mem_times {report : Report} {t : Instant} (h : t ∈ report.times) :
    IsWord t.textToSecond report.table ∧ printString t.text <:+: report.json := by
  obtain ⟨p, hp, ht⟩ := mem_times_iff.1 h
  obtain ⟨htable, hjson⟩ := shown_of_mem_spans hp
  obtain ⟨hstart, hstop⟩ := isWord_spanText hp p.1.textToSecond p.2.textToSecond
  obtain ⟨hstart', hstop'⟩ := infix_spanMembers report.spanLevel p.1.text p.2.text
  rcases ht with rfl | rfl
  · exact ⟨hstart.of_infix htable, hstart'.trans hjson⟩
  · exact ⟨hstop.of_infix htable, hstop'.trans hjson⟩

theorem isOnHour_of_run {c : Command} {tree after : Node} {report : Report}
    (h : c.run tree = (.ok report, after)) : ∀ t ∈ report.times, t.IsOnHour := by
  cases c with
  | query range =>
      obtain ⟨q, hq, rfl⟩ := map_eq_ok (congrArg Prod.fst h)
      obtain ⟨hstart, hstop⟩ := Range.report_eq_ok hq
      simp [times, hstart, hstop]
  | plan request =>
      obtain ⟨p, hp, rfl⟩ := map_eq_ok (congrArg Prod.fst h)
      have hhours := (PlanRequest.report_eq_ok hp).isOnHour (by simp)
      intro t ht
      obtain ⟨w, hw, ht⟩ := List.mem_flatMap.1 ht
      rcases List.mem_pair.1 ht with rfl | rfl
      · exact (hhours w hw).1
      · exact (hhours w hw).2
  | exportTo request =>
      obtain ⟨r, hr, rfl⟩ := map_eq_ok (congrArg Prod.fst h)
      exact List.forall_mem_nil _

end Report

/-! ## Reading back -/

/-- A timestamp at any offset is taken for its instant, leap seconds at the end of a minute
included, and so is every start and end that a command shows.  In the table each start stands with
its end behind their labels or in the first two columns of a line, and in the JSON document they
are the members of these names. -/
theorem times_read_back :
    (∀ (t : Instant) (o : UtcOffset) (digits : Nat) (zone : List Char), t.LeapOnMinute →
      (t.localDate o).HasFourDigitYear → digits ≤ 9 → 10 ^ (9 - digits) ∣ t.writtenNanos →
        o.IsWritten zone → readTime (String.ofList (t.localChars o digits zone)) = .ok t) ∧
    ∀ (c : Command) (tree after : Node) (report : Report), c.run tree = (.ok report, after) →
      (∀ t ∈ report.times, t.date.HasFourDigitYear →
        t.IsOnHour ∧
        (IsWord t.textToSecond report.table ∧ readTime t.textToSecond = .ok t) ∧
        (printString t.text <:+: report.json ∧ readTime t.text = .ok t)) ∧
      ∀ p ∈ report.spans,
        (report.spanText p.1.textToSecond p.2.textToSecond).toList <:+: report.table.toList ∧
          spanMembers report.spanLevel p.1.text p.2.text <:+: report.json := by
  constructor
  · intro t o digits zone hleap hyear hdigits hexact hzone
    have hread := Instant.read?_localChars hyear hdigits hexact hzone
    rw [Instant.asWritten_of_leapOnMinute hleap] at hread
    exact readTime_of_read? hread
  · intro c tree after report hrun
    refine ⟨fun t ht hyear ↦ ?_, fun p ↦ Report.shown_of_mem_spans⟩
    have hhour := Report.isOnHour_of_run hrun t ht
    have hread := Instant.readTime_text hhour hyear
    obtain ⟨htable, hjson⟩ := Report.shown_of_mem_times ht
    refine ⟨hhour, ⟨htable, ?_⟩, hjson, hread⟩
    rw [Instant.textToSecond_of_isOnHour hhour, hread]

/-- The last instant before the year 0 in UTC, inside a leap second and already in that year one
minute to the east; and the last window of the year 9999. -/
theorem times_read_back_around_year_0 :
    let t : Instant := ⟨-62167219201, 1999999999, by decide, by decide, by decide⟩
    let o : UtcOffset := ⟨1, by decide, by decide⟩
    let start : Instant := ⟨253402293600, 7, by decide, by decide, by decide⟩
    let stop : Instant := ⟨253402300799, 0, by decide, by decide, by decide⟩
    let r : PlanRequest := ⟨⟨"a", start, stop⟩, ⟨3600, 0, by decide, by decide, by decide⟩⟩
    let w := Window.between "a" start.truncateToHour stop.truncateToHour
    t.localChars o 9 o.chars = "0000-01-01T00:00:60.999999999+00:01".toList ∧
      readTime "0000-01-01T00:00:60.999999999+00:01" = .ok t ∧
      Command.run (.dir []) (.plan r) = (.ok (.plan ⟨"a", 1, [w]⟩), .dir []) ∧
      w.stop.text = "9999-12-31T23:00:00Z" ∧ readTime w.stop.text = .ok w.stop := by
  intro t o start stop r w
  have hchars : t.localChars o 9 o.chars = "0000-01-01T00:00:60.999999999+00:01".toList := by
    decide +kernel
  have hread := times_read_back.1 t o 9 o.chars (by decide) (by decide +kernel) (by decide)
    (by decide) (.inl rfl)
  rw [hchars, String.ofList_toList] at hread
  have hschedule := PlanRequest.schedule_of_account (r := r) (if_neg (by decide +kernel))
  rw [Schedule.ofRange_of_le "a" (by decide) (by decide)] at hschedule
  have hplan : r.report = .ok ⟨"a", 1, [w]⟩ := by
    rw [PlanRequest.report_of_schedule hschedule]
    exact congrArg Except.ok (by decide +kernel)
  have hrun : Command.run (.dir []) (.plan r) = (.ok (.plan ⟨"a", 1, [w]⟩), .dir []) := by
    rw [Command.run, hplan]
    rfl
  have hlast : w.stop ∈ Report.times (.plan ⟨"a", 1, [w]⟩) :=
    List.mem_cons_of_mem _ (List.mem_singleton_self _)
  obtain ⟨hread', -⟩ := times_read_back.2 _ _ _ _ hrun
  obtain ⟨-, -, -, hstop⟩ := hread' w.stop hlast (by decide +kernel)
  exact ⟨hchars, hread, hrun, by decide +kernel, hstop⟩

end HourlyUsage
