import HourlyUsage.Calendar.Timestamp.Text
import HourlyUsage.Event
import HourlyUsage.Failure

/-!
# Key ranges

Objects are keyed by account, UTC date and UTC hour.  An hour has a prefix, its
partition offset, and a range of hours is a range of keys between two offsets,
compared byte by byte.
-/

namespace HourlyUsage

open Json Text

/-- The prefix of the keys of the hour that holds an instant. -/
def partitionOffset (account : String) (t : Instant) : String :=
  "account=" ++ account ++ "/date=" ++ String.ofList t.date.chars ++
    "/hour=" ++ String.ofList (fixed 2 t.hour) ++ "/"

structure Query where
  startOffset : String
  endOffset : String
  deriving DecidableEq

def Query.contains (q : Query) (key : String) : Bool :=
  !byteLt key q.startOffset && byteLt key q.endOffset

structure Window where
  query : Query
  start : Instant
  stop : Instant
  deriving DecidableEq

/-- The hours from that of `start` up to that of `stop`, which may not come first. -/
def Window.ofRange (account : String) (start stop : Instant) : Except UsageError Window :=
  if stop < start then .error .invalidRange
  else
    let start := start.truncateToHour
    let stop := stop.truncateToHour
    .ok ⟨⟨partitionOffset account start, partitionOffset account stop⟩, start, stop⟩

/-- The keys of the hours from that of `start` up to that of `stop`, which may not come first. -/
def Query.ofRange (account : String) (start stop : Instant) : Except UsageError Query :=
  (Window.ofRange account start stop).map Window.query

/-! ## JSON -/

namespace Query

def json (q : Query) : Bytes :=
  compactObject
    [("start_offset", printString q.startOffset), ("end_offset", printString q.endOffset)]

structure Draft where
  startOffset : Option String := none
  endOffset : Option String := none

def record : Record Draft Query where
  name := "UsageQuery"
  empty := {}
  fields :=
    [optionField "start_offset" Draft.startOffset (fun d s ↦ { d with startOffset := some s })
        readString,
      optionField "end_offset" Draft.endOffset (fun d s ↦ { d with endOffset := some s })
        readString]
  build d := do return ⟨← d.startOffset, ← d.endOffset⟩

def parse (text : Bytes) : Except Json.Error Query := Json.parse record.read text

end Query

namespace Window

def json (w : Window) : Bytes :=
  compactObject
    [("query", w.query.json), ("start", printInstant w.start), ("end", printInstant w.stop)]

structure Draft where
  query : Option Query := none
  start : Option Instant := none
  stop : Option Instant := none

def record : Record Draft Window where
  name := "UsageWindow"
  empty := {}
  fields :=
    [optionField "query" Draft.query (fun d q ↦ { d with query := some q }) Query.record.read,
      optionField "start" Draft.start (fun d t ↦ { d with start := some t }) readInstant,
      optionField "end" Draft.stop (fun d t ↦ { d with stop := some t }) readInstant]
  build d := do return ⟨← d.query, ← d.start, ← d.stop⟩

def parse (text : Bytes) : Except Json.Error Window := Json.parse record.read text

end Window

end HourlyUsage
