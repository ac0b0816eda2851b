import HourlyUsage.Export

/-!
# Reports

What a command found out, either as a table to be read or as a JSON document.
A report is written to a sink from its beginning on, so a sink that fails keeps
a prefix of it.
-/

namespace HourlyUsage

open Json Text

inductive Format where
  | table
  | json
  deriving DecidableEq

structure QueryReport where
  account : String
  start : Instant
  stop : Instant
  query : Query
  deriving DecidableEq

structure PlanReport where
  account : String
  windowHours : Int
  windows : List Window
  deriving DecidableEq

structure ExportReport where
  output : String
  summary : Summary
  deriving DecidableEq

inductive Report where
  | query (r : QueryReport)
  | plan (r : PlanReport)
  | exported (r : ExportReport)
  deriving DecidableEq

/-! ## Tables -/

def padRight (width : Nat) (s : String) : String :=
  s ++ String.ofList (List.replicate (width - s.length) ' ')

def rule (c : Char) (width : Nat) : String := String.ofList (List.replicate width c)

def tableRow (start stop startOffset endOffset : String) : String :=
  padRight 20 start ++ "  " ++ padRight 20 stop ++ "  " ++ padRight 44 startOffset ++ "  " ++
    padRight 44 endOffset ++ "\n"

def natText (n : Nat) : String := String.ofList (decimal n)

def QueryReport.table (r : QueryReport) : String :=
  "Usage Query: " ++ r.account ++ "\n" ++
    rule '═' 34 ++ "\n" ++
    "Start:         " ++ r.start.textToSecond ++ "\n" ++
    "End:           " ++ r.stop.textToSecond ++ "\n" ++
    "\n" ++
    "Start Offset:  " ++ r.query.startOffset ++ "\n" ++
    "End Offset:    " ++ r.query.endOffset ++ "\n"

def PlanReport.table (r : PlanReport) : String :=
  if r.windows.isEmpty then "No windows in range\n"
  else
    tableRow "START" "END" "START OFFSET" "END OFFSET" ++
      rule '─' 134 ++ "\n" ++
      String.join (r.windows.map fun w ↦
        tableRow w.start.textToSecond w.stop.textToSecond w.query.startOffset w.query.endOffset) ++
      "\n" ++
      "Total: " ++ natText r.windows.length ++ " window(s) of " ++
        String.ofList (signedDecimal r.windowHours) ++ "h for " ++ r.account ++ "\n"

def ExportReport.table (r : ExportReport) : String :=
  "✓ Exported usage to " ++ r.output ++ "\n" ++
    "  Windows:  " ++ natText r.summary.windows ++ "\n" ++
    "  Objects:  " ++ natText r.summary.objects ++ "\n" ++
    "  Events:   " ++ natText r.summary.events ++ "\n"

/-! ## JSON documents -/

def QueryReport.json (r : QueryReport) : Bytes :=
  indentedObject 0
    [("account", printString r.account),
      ("start", printInstant r.start),
      ("end", printInstant r.stop),
      ("start_offset", printString r.query.startOffset),
      ("end_offset", printString r.query.endOffset)]

/-- A window of a plan, its brace at this level. -/
def windowJson (level : Nat) (w : Window) : Bytes :=
  indentedObject level
    [("start", printInstant w.start),
      ("end", printInstant w.stop),
      ("start_offset", printString w.query.startOffset),
      ("end_offset", printString w.query.endOffset)]

def PlanReport.json (r : PlanReport) : Bytes :=
  indentedObject 0
    [("account", printString r.account),
      ("window_hours", printInt r.windowHours),
      ("windows", indentedArray 1 (r.windows.map (windowJson 2)))]

def ExportReport.json (r : ExportReport) : Bytes :=
  indentedObject 0
    [("output", printString r.output),
      ("windows", printInt r.summary.windows),
      ("objects", printInt r.summary.objects),
      ("events", printInt r.summary.events)]

/-! ## Writing -/

namespace Report

def table : Report → String
  | .query r => r.table
  | .plan r => r.table
  | .exported r => r.table

def json : Report → Bytes
  | .query r => r.json
  | .plan r => r.json
  | .exported r => r.json

/-- Writes a report, its table or document in the pieces that `cut` makes of it.  A failure within
the JSON document is one of the format, any other one of the sink. -/
def write (report : Report) (format : Format) (sink : Sink)
    (cut : Bytes → List Bytes := fun text ↦ [text]) : Except CommandError Unit × Sink :=
  match format with
  | .table =>
    let (r, sink) := sink.writeEach (cut (utf8 report.table))
    (r.mapError .io, sink)
  | .json =>
    match sink.writeEach (cut report.json) with
    | (.error e, sink) => (.error (.format ("JSON serialization failed: " ++ e.message)), sink)
    | (.ok (), sink) =>
      let (r, sink) := sink.writeAll [Ascii.newline]
      (r.mapError .io, sink)

def text (report : Report) (format : Format) : Except CommandError String :=
  match report.write format {} with
  | (.error e, _) => .error e
  | (.ok (), sink) =>
    match ofUtf8? sink.content with
    | some s => .ok s
    | none => .error (.format "UTF-8 error")

end Report
end HourlyUsage
