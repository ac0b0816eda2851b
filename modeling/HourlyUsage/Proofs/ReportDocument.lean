import HourlyUsage.CommandLine.Argument
import HourlyUsage.Proofs.ArrayContent
import HourlyUsage.Proofs.EventText
import HourlyUsage.Proofs.IndentedText
import HourlyUsage.Proofs.KeyOrder
import HourlyUsage.Proofs.PrintedText
import HourlyUsage.Report
import Mathlib.Data.List.Forall2

/-!
# Reports as JSON documents

The JSON text of a report is one document and a line feed behind it.  The value that the
document is read as shows every field of the report and nothing else, each time as a text of
its instant and the windows of a plan in their order.  So it shows one report only, and
different reports have different texts.  A leap second within a minute is the exception: it
is written, and so shown, as the second behind it.
-/

namespace HourlyUsage

open Json Text

/-! ## What a value shows -/

/-- The value is a text of the instant. -/
def Instant.IsShownBy (t : Instant) (v : Value) : Prop :=
  ∃ s, v = .string s ∧ Timestamp.Relaxed.read s.toList = .ok t

def Window.IsShownBy (w : Window) (v : Value) : Prop :=
  ∃ start stop, w.start.IsShownBy start ∧ w.stop.IsShownBy stop ∧
    v = .object
      [("end", stop), ("end_offset", .string w.query.endOffset),
        ("start", start), ("start_offset", .string w.query.startOffset)]

def QueryReport.IsShownBy (r : QueryReport) (v : Value) : Prop :=
  ∃ start stop, r.start.IsShownBy start ∧ r.stop.IsShownBy stop ∧
    v = .object
      [("account", .string r.account), ("end", stop),
        ("end_offset", .string r.query.endOffset), ("start", start),
        ("start_offset", .string r.query.startOffset)]

def PlanReport.IsShownBy (r : PlanReport) (v : Value) : Prop :=
  ∃ rows, List.Forall₂ Window.IsShownBy r.windows rows ∧
    v = .object
      [("account", .string r.account), ("window_hours", .number (.int r.windowHours)),
        ("windows", .array rows)]

def ExportReport.IsShownBy (r : ExportReport) (v : Value) : Prop :=
  v = .object
    [("events", .number (.int r.summary.events)), ("objects", .number (.int r.summary.objects)),
      ("output", .string r.output), ("windows", .number (.int r.summary.windows))]

/-- The value has the fields of the report, in the order of their names, and no others. -/
def Report.IsShownBy : Report → Value → Prop
  | .query r => r.IsShownBy
  | .plan r => r.IsShownBy
  | .exported r => r.IsShownBy

theorem Instant.leftUnique_isShownBy : Relator.LeftUnique Instant.IsShownBy := by
  rintro t u v ⟨s, rfl, ht⟩ ⟨s', hs, hu⟩
  cases hs
  exact Except.ok.inj (ht.symm.trans hu)

theorem Window.leftUnique_isShownBy : Relator.LeftUnique Window.IsShownBy := by
  rintro ⟨⟨_, _⟩, a, b⟩ ⟨⟨_, _⟩, a', b'⟩ v ⟨start, stop, ha, hb, rfl⟩ ⟨_, _, ha', hb', hv⟩
  cases hv
  obtain rfl := Instant.leftUnique_isShownBy ha ha'
  obtain rfl := Instant.leftUnique_isShownBy hb hb'
  rfl

theorem QueryReport.leftUnique_isShownBy : Relator.LeftUnique QueryReport.IsShownBy := by
  rintro ⟨_, a, b, ⟨_, _⟩⟩ ⟨_, a', b', ⟨_, _⟩⟩ v ⟨start, stop, ha, hb, rfl⟩ ⟨_, _, ha', hb', hv⟩
  cases hv
  obtain rfl := Instant.leftUnique_isShownBy ha ha'
  obtain rfl := Instant.leftUnique_isShownBy hb hb'
  rfl

theorem PlanReport.leftUnique_isShownBy : Relator.LeftUnique PlanReport.IsShownBy := by
  rintro ⟨_, _, ws⟩ ⟨_, _, ws'⟩ v ⟨rows, hws, rfl⟩ ⟨_, hws', hv⟩
  cases hv
  obtain rfl := List.left_unique_forall₂' Window.leftUnique_isShownBy hws hws'
  rfl

theorem ExportReport.leftUnique_isShownBy : Relator.LeftUnique ExportReport.IsShownBy := by
  rintro ⟨_, _, _, _⟩ ⟨_, _, _, _⟩ v rfl hv
  cases hv
  rfl

namespace Report

/-- The names of the fields of a report, in the byte order of an object's members. -/
def names : Report → List String
  | .query _ => ["account", "end", "end_offset", "start", "start_offset"]
  | .plan _ => ["account", "window_hours", "windows"]
  | .exported _ => ["events", "objects", "output", "windows"]

theorem names_of_isShownBy {report : Report} {v : Value} (h : report.IsShownBy v) :
    ∃ members, v = .object members ∧ members.map Prod.fst = report.names := by
  cases report with
  | query r =>
      obtain ⟨_, _, _, _, rfl⟩ := h
      exact ⟨_, rfl, rfl⟩
  | plan r =>
      obtain ⟨_, _, rfl⟩ := h
      exact ⟨_, rfl, rfl⟩
  | exported r => exact ⟨_, h, rfl⟩

/-- A value shows one report at most. -/
theorem leftUnique_isShownBy : Relator.LeftUnique IsShownBy := by
  intro a b v ha hb
  obtain ⟨members, rfl, hnames⟩ := names_of_isShownBy ha
  obtain ⟨_, hmembers, hnames'⟩ := names_of_isShownBy hb
  cases hmembers
  have hsame : a.names = b.names := hnames.symm.trans hnames'
  cases a with
  | query a =>
      cases b with
      | query b => exact congrArg _ (QueryReport.leftUnique_isShownBy ha hb)
      | plan b => simp [names] at hsame
      | exported b => simp [names] at hsame
  | plan a =>
      cases b with
      | query b => simp [names] at hsame
      | plan b => exact congrArg _ (PlanReport.leftUnique_isShownBy ha hb)
      | exported b => simp [names] at hsame
  | exported a =>
      cases b with
      | query b => simp [names] at hsame
      | plan b => simp [names] at hsame
      | exported b => exact congrArg _ (ExportReport.leftUnique_isShownBy ha hb)

end Report

/-! ## Times as they are written -/

def QueryReport.asWritten (r : QueryReport) : QueryReport :=
  { r with start := r.start.asWritten, stop := r.stop.asWritten }

def PlanReport.asWritten (r : PlanReport) : PlanReport :=
  { r with windows := r.windows.map Window.asWritten }

namespace Report

/-- The report that the text of a report shows. -/
def asWritten : Report → Report
  | .query r => .query r.asWritten
  | .plan r => .plan r.asWritten
  | .exported r => .exported r

/-- The starts and ends that a report shows. -/
def times : Report → List Instant
  | .query r => [r.start, r.stop]
  | .plan r => r.windows.flatMap fun w ↦ [w.start, w.stop]
  | .exported _ => []

/-- A report is shown as it is unless it has a leap second within a minute. -/
theorem asWritten_eq_self_iff {report : Report} :
    report.asWritten = report ↔ ∀ t ∈ report.times, t.LeapOnMinute := by
  cases report with
  | query r =>
      simp only [times, List.forall_mem_cons, List.not_mem_nil, false_imp_iff, implies_true,
        and_true, ← Instant.asWritten_eq_self_iff]
      cases r
      simp [asWritten, QueryReport.asWritten]
  | plan r =>
      have hwindows : r.windows.map Window.asWritten = r.windows ↔
          ∀ w ∈ r.windows, w.asWritten = w := by
        nth_rewrite 2 [← List.map_id r.windows]
        exact List.map_inj_left
      have hplan : asWritten (.plan r) = .plan r ↔
          r.windows.map Window.asWritten = r.windows := by
        cases r
        simp [asWritten, PlanReport.asWritten]
      rw [hplan, hwindows]
      simp only [Window.asWritten_eq_self_iff, times, List.mem_flatMap, List.mem_pair]
      constructor
      · rintro h t ⟨w, hw, rfl | rfl⟩
        · exact (h w hw).1
        · exact (h w hw).2
      · exact fun h w hw ↦ ⟨h _ ⟨w, hw, .inl rfl⟩, h _ ⟨w, hw, .inr rfl⟩⟩
  | exported r => exact iff_of_true rfl (List.forall_mem_nil _)

end Report

theorem printInstant_asWritten (t : Instant) : printInstant t.asWritten = printInstant t := by
  rw [printInstant, printInstant, t.chars_asWritten]

theorem windowJson_asWritten (level : Nat) (w : Window) :
    windowJson level w.asWritten = windowJson level w := by
  simp only [windowJson, Window.asWritten, printInstant_asWritten]

/-- A report has the document of the report that its text shows. -/
theorem Report.json_asWritten (report : Report) : report.asWritten.json = report.json := by
  cases report with
  | query r =>
      simp only [asWritten, json, QueryReport.json, QueryReport.asWritten, printInstant_asWritten]
  | plan r =>
      have hwindows : (r.windows.map Window.asWritten).map (windowJson 2) =
          r.windows.map (windowJson 2) := by
        rw [List.map_map]
        exact List.map_congr_left fun w _ ↦ windowJson_asWritten 2 w
      simp only [asWritten, json, PlanReport.json, PlanReport.asWritten, hwindows]
  | exported r => rfl

/-! ## Reading a document -/

theorem Instant.isShownBy_text (t : Instant) : t.asWritten.IsShownBy (.string t.text) := by
  refine ⟨t.text, rfl, ?_⟩
  rw [Instant.text, String.toList_ofList]
  exact t.read_chars

theorem readsMember_string (name s : String) :
    ReadsMember 0 (name, printString s) (name, .string s) := ⟨rfl, readsValue_printString s⟩

theorem readsMember_instant (name : String) (t : Instant) :
    ReadsMember 0 (name, printInstant t) (name, .string t.text) := by
  rw [printInstant_eq_printString]
  exact readsMember_string name t.text

theorem readsMember_count (name : String) {n : Nat} (h : n < wordLimit) :
    ReadsMember 0 (name, printInt n) (name, .number (.int n)) :=
  ⟨rfl, readsValue_printInt (by omega) (by exact_mod_cast h)⟩

theorem QueryReport.readsValue_json (r : QueryReport) :
    ∃ v, ReadsValue 1 r.json v ∧ r.asWritten.IsShownBy v := by
  refine ⟨_, .indentedObject (.cons (readsMember_string "account" r.account)
    (.cons (readsMember_instant "start" r.start) (.cons (readsMember_instant "end" r.stop)
    (.cons (readsMember_string "start_offset" r.query.startOffset)
    (.cons (readsMember_string "end_offset" r.query.endOffset) .nil))))) 0, ?_⟩
  exact ⟨_, _, r.start.isShownBy_text, r.stop.isShownBy_text, rfl⟩

theorem Window.readsValue_json (level : Nat) (w : Window) :
    ∃ v, ReadsValue 1 (windowJson level w) v ∧ w.asWritten.IsShownBy v := by
  refine ⟨_, .indentedObject (.cons (readsMember_instant "start" w.start)
    (.cons (readsMember_instant "end" w.stop)
    (.cons (readsMember_string "start_offset" w.query.startOffset)
    (.cons (readsMember_string "end_offset" w.query.endOffset) .nil)))) level, ?_⟩
  exact ⟨_, _, w.start.isShownBy_text, w.stop.isShownBy_text, rfl⟩

theorem readsValue_windows (level : Nat) (ws : List Window) :
    ∃ vs, List.Forall₂ (ReadsValue 1) (ws.map (windowJson level)) vs ∧
      List.Forall₂ Window.IsShownBy (ws.map Window.asWritten) vs := by
  induction ws with
  | nil => exact ⟨[], .nil, .nil⟩
  | cons w ws ih =>
      obtain ⟨v, hread, hshown⟩ := w.readsValue_json level
      obtain ⟨vs, hreads, hshowns⟩ := ih
      exact ⟨v :: vs, .cons hread hreads, .cons hshown hshowns⟩

/-! ## Numbers of a report -/

namespace Report

/-- The numbers of the report have 64 bits, and those that may be negative a sign among them. -/
def FitsWords : Report → Prop
  | .query _ => True
  | .plan r => -9223372036854775808 ≤ r.windowHours ∧ r.windowHours ≤ 9223372036854775807
  | .exported r =>
    r.summary.windows < wordLimit ∧ r.summary.objects < wordLimit ∧ r.summary.events < wordLimit

/-- The document of a report is read as a value that shows it. -/
theorem readsValue_json {report : Report} (h : report.FitsWords) :
    ∃ v, ReadsValue 3 report.json v ∧ report.asWritten.IsShownBy v := by
  cases report with
  | query r =>
      obtain ⟨v, hread, hshown⟩ := r.readsValue_json
      exact ⟨v, hread.mono (by decide), hshown⟩
  | plan r =>
      obtain ⟨rows, hrows, hshown⟩ := readsValue_windows 2 r.windows
      have haccount : ReadsMember 2 ("account", printString r.account)
          ("account", .string r.account) :=
        ⟨rfl, (readsValue_printString r.account).mono (by decide)⟩
      have hlimit : (r.windowHours : Int) < wordLimit := Int.lt_of_le_of_lt h.2 (by decide)
      have hhours : ReadsMember 2 ("window_hours", printInt r.windowHours)
          ("window_hours", .number (.int r.windowHours)) :=
        ⟨rfl, (readsValue_printInt h.1 hlimit).mono (by decide)⟩
      have hwindows : ReadsMember 2 ("windows", indentedArray 1 (r.windows.map (windowJson 2)))
          ("windows", .array rows) := ⟨rfl, .indentedArray hrows 1⟩
      exact ⟨_, .indentedObject (.cons haccount (.cons hhours (.cons hwindows .nil))) 0, rows,
        hshown, rfl⟩
  | exported r =>
      obtain ⟨hwindows, hobjects, hevents⟩ := h
      refine ⟨_, (ReadsValue.indentedObject (.cons (readsMember_string "output" r.output)
        (.cons (readsMember_count "windows" hwindows) (.cons (readsMember_count "objects" hobjects)
        (.cons (readsMember_count "events" hevents) .nil)))) 0).mono (by decide), rfl⟩

/-! ## Texts of reports -/

/-- A document is an object, of members with text in them. -/
theorem exists_members (report : Report) :
    ∃ members, report.json = indentedObject 0 members ∧ ∀ m ∈ members, IsText m.2 := by
  cases report with
  | query r =>
      rw [json, QueryReport.json]
      refine ⟨_, rfl, ?_⟩
      simp only [List.forall_mem_cons]
      exact ⟨isText_printString _, isText_printInstant _, isText_printInstant _,
        isText_printString _, isText_printString _, nofun⟩
  | plan r =>
      have hwindows : ∀ item ∈ r.windows.map (windowJson 2), IsText item := by
        intro item hitem
        obtain ⟨w, -, rfl⟩ := List.mem_map.1 hitem
        apply isText_indentedObject
        simp only [List.forall_mem_cons]
        exact ⟨isText_printInstant _, isText_printInstant _, isText_printString _,
          isText_printString _, nofun⟩
      rw [json, PlanReport.json]
      refine ⟨_, rfl, ?_⟩
      simp only [List.forall_mem_cons]
      exact ⟨isText_printString _, isText_printInt _, isText_indentedArray 1 hwindows, nofun⟩
  | exported r =>
      rw [json, ExportReport.json]
      refine ⟨_, rfl, ?_⟩
      simp only [List.forall_mem_cons]
      exact ⟨isText_printString _, isText_printInt _, isText_printInt _, isText_printInt _, nofun⟩

theorem isText_json (report : Report) : IsText report.json := by
  obtain ⟨members, hjson, hmembers⟩ := report.exists_members
  rw [hjson]
  exact isText_indentedObject 0 hmembers

theorem getLast?_json (report : Report) : report.json.getLast? = some Ascii.closeBrace := by
  obtain ⟨members, hjson, -⟩ := report.exists_members
  rw [hjson, indentedObject]
  split
  · rfl
  · exact List.getLast?_concat

/-- The bytes of a report that is written to its end. -/
def bytes (report : Report) : Format → Bytes
  | .table => utf8 report.table
  | .json => report.json ++ [Ascii.newline]

theorem isText_bytes (report : Report) (format : Format) : IsText (report.bytes format) := by
  cases format with
  | table => exact ⟨report.table, rfl⟩
  | json => exact report.isText_json.append (.of_all rfl)

/-- A sink that takes all gets the whole report, however it is cut. -/
theorem write_of_takesAll (report : Report) (format : Format) {sink : Sink} (h : sink.TakesAll)
    {cut : Bytes → List Bytes} (hcut : ∀ text, (cut text).flatten = text) :
    ∃ after, report.write format sink cut = (.ok (), after) ∧
      after.content = sink.content ++ report.bytes format := by
  cases format with
  | table =>
      obtain ⟨after, hwrite, -, hcontent⟩ := h.writeEach (cut (utf8 report.table))
      rw [hcut] at hcontent
      refine ⟨after, ?_, hcontent⟩
      simp only [write, hwrite]
      rfl
  | json =>
      obtain ⟨mid, hwrite, hmid, hcontent⟩ := h.writeEach (cut report.json)
      obtain ⟨after, hline, -, hcontent'⟩ := hmid.writeAll [Ascii.newline]
      rw [hcut] at hcontent
      refine ⟨after, ?_, ?_⟩
      · simp only [write, hwrite, hline]
        rfl
      · rw [hcontent', hcontent, List.append_assoc]
        rfl

theorem exists_text (report : Report) (format : Format) :
    ∃ text, report.text format = .ok text ∧ utf8 text = report.bytes format := by
  obtain ⟨text, htext⟩ := report.isText_bytes format
  have hsink : ({} : Sink).TakesAll := ⟨rfl, rfl, nofun, nofun⟩
  have hwhole : ∀ text : Bytes, [text].flatten = text := fun _ ↦ List.flatten_singleton
  obtain ⟨after, hwrite, hcontent⟩ := report.write_of_takesAll format hsink hwhole
  have hof : ofUtf8? after.content = some text := by
    rw [hcontent, ← htext]
    exact ofUtf8?_utf8 text
  refine ⟨text, ?_, htext⟩
  simp only [Report.text, hwrite, hof]

theorem text_eq_ok_iff {report : Report} {format : Format} {text : String} :
    report.text format = .ok text ↔ utf8 text = report.bytes format := by
  obtain ⟨text', htext', hbytes⟩ := report.exists_text format
  rw [htext', ← hbytes, Except.ok.injEq]
  exact ⟨fun h ↦ h ▸ rfl, fun h ↦ (utf8_inj h).symm⟩

/-! ## Reading back -/

/-- The line feed behind a document changes nothing of the value that it is read as. -/
theorem parse_json {report : Report} (h : report.FitsWords) :
    ∃ v, Value.parse report.json = .ok v ∧ Value.parse (report.bytes .json) = .ok v ∧
      report.asWritten.IsShownBy v := by
  obtain ⟨v, hread, hshown⟩ := readsValue_json h
  have hline : EndsValue [Ascii.newline] := endsValue_freshLine 0 []
  exact ⟨v, hread.parse (by decide), hread.parse_append (by decide) hline rfl, hshown⟩

/-- Two reports have one document exactly if their texts show one report. -/
theorem bytes_eq_iff {a b : Report} (ha : a.FitsWords) (hb : b.FitsWords) :
    a.bytes .json = b.bytes .json ↔ a.asWritten = b.asWritten := by
  constructor
  · intro h
    obtain ⟨v, -, hparse, hshown⟩ := parse_json ha
    obtain ⟨w, -, hparse', hshown'⟩ := parse_json hb
    rw [h] at hparse
    obtain rfl : v = w := Except.ok.inj (hparse.symm.trans hparse')
    exact leftUnique_isShownBy hshown hshown'
  · intro h
    rw [bytes, bytes, ← a.json_asWritten, h, b.json_asWritten]

/-- The text of a report in JSON is one document and a line feed.  It is read as a value that shows
the report, and is the text of no other one.  Only a time in a leap second within a minute is shown
as the second behind it, so that reports share a text exactly if they differ in no more than
that. -/
theorem text_json_shows (report : Report) (h : report.FitsWords) :
    ∃ text document v, report.text .json = .ok text ∧
      utf8 text = document ++ [Ascii.newline] ∧ document.getLast? = some Ascii.closeBrace ∧
      Value.parse document = .ok v ∧ Value.parse (utf8 text) = .ok v ∧
      report.asWritten.IsShownBy v ∧
      (∀ sink cut, sink.TakesAll → (∀ text, (cut text).flatten = text) →
        (report.write .json sink cut).1 = .ok () ∧
          (report.write .json sink cut).2.content = sink.content ++ utf8 text) ∧
      (∀ other : Report, other.FitsWords →
        (other.text .json = .ok text ↔ other.asWritten = report.asWritten)) ∧
      (report.asWritten = report ↔ ∀ t ∈ report.times, t.LeapOnMinute) := by
  obtain ⟨text, htext, hbytes⟩ := report.exists_text .json
  obtain ⟨v, hdocument, hparse, hshown⟩ := parse_json h
  rw [← hbytes] at hparse
  refine ⟨text, report.json, v, htext, hbytes, report.getLast?_json, hdocument, hparse, hshown,
    fun sink cut hsink hcut ↦ ?_, fun other hother ↦ ?_, asWritten_eq_self_iff⟩
  · obtain ⟨after, hwrite, hcontent⟩ := report.write_of_takesAll .json hsink hcut
    rw [hwrite, hbytes]
    exact ⟨rfl, hcontent⟩
  · rw [text_eq_ok_iff, hbytes, eq_comm, bytes_eq_iff hother h]

/-- A plan of one window from the leap second at the end of the year 9999 into the year after it,
for an account of a quote, a line feed and a character of two bytes; and the plan without the
window. -/
theorem text_json_shows_window_into_year_10000 :
    let start : Instant := ⟨253402300799, 1999999999, by decide, by decide, by decide⟩
    let stop : Instant := ⟨253402304400, 0, by decide, by decide, by decide⟩
    let plan : Report := .plan ⟨"\"\né", 1, [Window.between "\"\né" start stop]⟩
    let empty : Report := .plan ⟨"\"\né", 1, []⟩
    plan.FitsWords ∧ empty.FitsWords ∧
      ∃ text v, plan.text .json = .ok text ∧ Value.parse (utf8 text) = .ok v ∧
        plan.IsShownBy v ∧ empty.text .json ≠ .ok text := by
  intro start stop plan empty
  have hplan : plan.FitsWords := ⟨by decide, by decide⟩
  have hempty : empty.FitsWords := ⟨by decide, by decide⟩
  obtain ⟨text, _, v, htext, -, -, -, hparse, hshown, -, hunique, hself⟩ :=
    text_json_shows plan hplan
  rw [hself.2 (by decide)] at hshown hunique
  refine ⟨hplan, hempty, text, v, htext, hparse, hshown, fun hsame ↦ ?_⟩
  exact absurd ((hunique empty hempty).1 hsame) (by decide)

/-- The leap second that is second 4 of its minute has the text of a part of second 5, and is read
back as that. -/
theorem text_json_of_leap_second_within_minute :
    let t : Instant := ⟨4, 1333333333, by decide, by decide, by decide⟩
    let u : Instant := ⟨5, 333333333, by decide, by decide, by decide⟩
    let a : Report := .query ⟨"a", t, t, ⟨"", ""⟩⟩
    let b : Report := .query ⟨"a", u, u, ⟨"", ""⟩⟩
    a ≠ b ∧ (∃ text, a.text .json = .ok text ∧ b.text .json = .ok text) ∧
      printInstant t = printString "1970-01-01T00:00:05.333333333Z" ∧
      readTime "1970-01-01T00:00:05.333333333Z" = .ok u := by
  intro t u a b
  obtain ⟨text, htext, hbytes⟩ := a.exists_text .json
  have ha : a.FitsWords := trivial
  have hb : b.FitsWords := trivial
  have hsame : a.bytes .json = b.bytes .json := (bytes_eq_iff ha hb).2 (by decide)
  refine ⟨by decide, ⟨text, htext, text_eq_ok_iff.2 (hbytes.trans hsame)⟩, ?_, ?_⟩
  · decide +kernel
  · decide +kernel

end Report

end HourlyUsage
