import HourlyUsage.Json.Printer
import HourlyUsage.Json.Record

/-!
# Usage events

An event is one measurement for a kind of resource on a managed control plane
over a span of time.  Stores hold it as one JSON object a line.
-/

namespace HourlyUsage

open Json Text

structure Tags where
  group : String
  version : String
  kind : String
  account : String
  controlPlane : String
  deriving DecidableEq

structure Event where
  name : String
  tags : Tags
  timestamp : Instant
  timestampEnd : Instant
  value : Binary64
  deriving DecidableEq

/-! ## Printing -/

def Tags.json (t : Tags) : Bytes :=
  compactObject
    [("customresource_group", printString t.group),
      ("customresource_version", printString t.version),
      ("customresource_kind", printString t.kind),
      ("upbound_account", printString t.account),
      ("mcp_id", printString t.controlPlane)]

def Event.json (e : Event) : Bytes :=
  compactObject
    [("name", printString e.name),
      ("tags", e.tags.json),
      ("timestamp", printInstant e.timestamp),
      ("timestamp_end", printInstant e.timestampEnd),
      ("value", printFloat e.value)]

/-! ## Reading -/

namespace Tags

structure Draft where
  group : Option String := none
  version : Option String := none
  kind : Option String := none
  account : Option String := none
  controlPlane : Option String := none

def record : Record Draft Tags where
  name := "EventTags"
  empty := {}
  fields :=
    [optionField "customresource_group" Draft.group (fun d s ↦ { d with group := some s })
        readString,
      optionField "customresource_version" Draft.version (fun d s ↦ { d with version := some s })
        readString,
      optionField "customresource_kind" Draft.kind (fun d s ↦ { d with kind := some s })
        readString,
      optionField "upbound_account" Draft.account (fun d s ↦ { d with account := some s })
        readString,
      optionField "mcp_id" Draft.controlPlane (fun d s ↦ { d with controlPlane := some s })
        readString]
  build d := do return ⟨← d.group, ← d.version, ← d.kind, ← d.account, ← d.controlPlane⟩

def parse (text : Bytes) : Except Json.Error Tags := Json.parse record.read text

end Tags

namespace Event

structure Draft where
  name : Option String := none
  tags : Option Tags := none
  timestamp : Option Instant := none
  timestampEnd : Option Instant := none
  value : Option Binary64 := none

def record : Record Draft Event where
  name := "UsageEvent"
  empty := {}
  fields :=
    [optionField "name" Draft.name (fun d s ↦ { d with name := some s }) readString,
      optionField "tags" Draft.tags (fun d t ↦ { d with tags := some t }) Tags.record.read,
      optionField "timestamp" Draft.timestamp (fun d t ↦ { d with timestamp := some t })
        readInstant,
      optionField "timestamp_end" Draft.timestampEnd (fun d t ↦ { d with timestampEnd := some t })
        readInstant,
      optionField "value" Draft.value (fun d x ↦ { d with value := some x }) readFloat]
  build d := do return ⟨← d.name, ← d.tags, ← d.timestamp, ← d.timestampEnd, ← d.value⟩

def parse (text : Bytes) : Except Json.Error Event := Json.parse record.read text

/-- Equality that takes the values as numbers. -/
def same (a b : Event) : Bool :=
  decide (a.name = b.name) && decide (a.tags = b.tags) && decide (a.timestamp = b.timestamp) &&
    decide (a.timestampEnd = b.timestampEnd) && a.value.sameNumber b.value

end Event

end HourlyUsage
