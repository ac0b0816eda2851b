import HourlyUsage.Proofs.RecordText

/-!
# Events, tags, key ranges and windows as text

Key ranges, tags and windows are read back as they were printed.  So is an event where
its measured value is; where another value is read for that, everything else of the
event is still the same.  Only a leap second within a minute, which has no text of its
own, is read as the second behind it.
-/

namespace HourlyUsage

open Json Text

theorem Query.reads_json (q : Query) : Reads Query.record.read q.json q := by
  apply Record.reads_compactObject (d := ⟨some q.startOffset, some q.endOffset⟩) _ rfl
  refine .cons ⟨_, rfl, rfl, reads_optionField (reads_readString _) _⟩ ?_
  exact .cons ⟨_, rfl, rfl, reads_optionField (reads_readString _) _⟩ (.nil _)

theorem Tags.reads_json (t : Tags) : Reads Tags.record.read t.json t := by
  apply Record.reads_compactObject
    (d := ⟨some t.group, some t.version, some t.kind, some t.account, some t.controlPlane⟩) _ rfl
  refine .cons ⟨_, rfl, rfl, reads_optionField (reads_readString _) _⟩ ?_
  refine .cons ⟨_, rfl, rfl, reads_optionField (reads_readString _) _⟩ ?_
  refine .cons ⟨_, rfl, rfl, reads_optionField (reads_readString _) _⟩ ?_
  refine .cons ⟨_, rfl, rfl, reads_optionField (reads_readString _) _⟩ ?_
  exact .cons ⟨_, rfl, rfl, reads_optionField (reads_readString _) _⟩ (.nil _)

/-- The window that the text of a window shows. -/
def Window.asWritten (w : Window) : Window := ⟨w.query, w.start.asWritten, w.stop.asWritten⟩

theorem Window.asWritten_eq_self_iff {w : Window} :
    w.asWritten = w ↔ w.start.LeapOnMinute ∧ w.stop.LeapOnMinute := by
  rw [← Instant.asWritten_eq_self_iff, ← Instant.asWritten_eq_self_iff]
  cases w
  simp [asWritten]

theorem Window.reads_json (w : Window) : Reads Window.record.read w.json w.asWritten := by
  apply Record.reads_compactObject
    (d := ⟨some w.query, some w.start.asWritten, some w.stop.asWritten⟩) _ rfl
  refine .cons ⟨_, rfl, rfl, reads_optionField w.query.reads_json _⟩ ?_
  refine .cons ⟨_, rfl, rfl, reads_optionField (reads_readInstant _) _⟩ ?_
  exact .cons ⟨_, rfl, rfl, reads_optionField (reads_readInstant _) _⟩ (.nil _)

namespace Event

/-! ## Events -/

/-- The members of an event behind its name and before its value. -/
def innerMembers (e : Event) : List (String × Bytes) :=
  [("tags", e.tags.json), ("timestamp", printInstant e.timestamp),
    ("timestamp_end", printInstant e.timestampEnd)]

/-- The event that the text of an event shows in front of its value. -/
def asWritten (e : Event) : Event :=
  { e with timestamp := e.timestamp.asWritten, timestampEnd := e.timestampEnd.asWritten }

theorem asWritten_of_leapOnMinute {e : Event} (h : e.timestamp.LeapOnMinute)
    (hend : e.timestampEnd.LeapOnMinute) : e.asWritten = e := by
  rw [asWritten, Instant.asWritten_of_leapOnMinute h, Instant.asWritten_of_leapOnMinute hend]

/-- What is known of an event in front of its value. -/
def draft (e : Event) : Draft :=
  ⟨some e.name, some e.tags, some e.timestamp.asWritten, some e.timestampEnd.asWritten, none⟩

theorem takesAll_innerMembers (e : Event) :
    record.TakesAll record.empty (("name", printString e.name) :: e.innerMembers) e.draft := by
  refine .cons ⟨_, rfl, rfl, reads_optionField (reads_readString _) _⟩ ?_
  refine .cons ⟨_, rfl, rfl, reads_optionField e.tags.reads_json _⟩ ?_
  refine .cons ⟨_, rfl, rfl, reads_optionField (reads_readInstant _) _⟩ ?_
  exact .cons ⟨_, rfl, rfl, reads_optionField (reads_readInstant _) _⟩ (.nil _)

/-- The text of an event behind its last timestamp. -/
def valueText (e : Event) : Bytes :=
  Ascii.comma :: (memberText ("value", printFloat e.value) ++ [Ascii.closeBrace])

theorem json_eq (e : Event) : e.json = Ascii.openBrace ::
    (memberText ("name", printString e.name) ++
      ((e.innerMembers.flatMap fun m ↦ Ascii.comma :: memberText m) ++ e.valueText)) := by
  simp only [json, compactObject, innerMembers, valueText, List.map_cons, List.map_nil,
    separate_cons, List.flatMap_cons, List.flatMap_nil, memberText, List.append_assoc,
    List.cons_append, List.nil_append]

/-- Reading an event comes to its value with the rest of the event known. -/
theorem read_json (e : Event) : ∃ fuel, record.read e.json =
    record.conclude (record.readMembers (fuel + 1) false e.draft e.valueText) := by
  rw [json_eq]
  exact Record.read_object e.takesAll_innerMembers (endsMember_comma _)

/-- An event is read back with the value that is read for its own. -/
theorem reads_json {e : Event} {v : Binary64} (h : Reads readFloat (printFloat e.value) v) :
    Reads record.read e.json { e.asWritten with value := v } := by
  apply Record.reads_compactObject (d := { e.draft with value := some v }) _ rfl
  exact e.takesAll_innerMembers.append
    (.cons ⟨_, rfl, rfl, reads_optionField h _⟩ (.nil _))

/-- The draft has what the text of the event shows, except for the value. -/
structure Agrees (e : Event) (d : Draft) : Prop where
  name : d.name = some e.name
  tags : d.tags = some e.tags
  timestamp : d.timestamp = some e.timestamp.asWritten
  timestampEnd : d.timestampEnd = some e.timestampEnd.asWritten

theorem agrees_draft (e : Event) : e.Agrees e.draft := ⟨rfl, rfl, rfl, rfl⟩

/-- A field that is read leaves the fields alone that are set already. -/
theorem Agrees.read_field {e : Event} {f : Json.Field Draft} (hf : f ∈ record.fields) {d d' : Draft}
    {bs rest : Bytes} (hset : f.isSet d = false) (hread : f.read d bs = .ok (d', rest))
    (h : e.Agrees d) : e.Agrees d' := by
  obtain ⟨hname, htags, htimestamp, hend⟩ := h
  simp only [record, List.mem_cons, List.not_mem_nil, or_false] at hf
  rcases hf with rfl | rfl | rfl | rfl | rfl
  · exact absurd hset (by simp [optionField, hname])
  · exact absurd hset (by simp [optionField, htags])
  · exact absurd hset (by simp [optionField, htimestamp])
  · exact absurd hset (by simp [optionField, hend])
  · obtain ⟨⟨x, bs'⟩, -, hread⟩ := bind_eq_ok.1 hread
    obtain ⟨rfl, -⟩ : { d with value := some x } = d' ∧ bs' = rest := by
      simpa [pure, Except.pure] using hread
    exact ⟨hname, htags, htimestamp, hend⟩

theorem Agrees.of_build {e e' : Event} {d : Draft} (h : e.Agrees d)
    (hbuild : record.build d = some e') :
    e'.name = e.name ∧ e'.tags = e.tags ∧ e'.timestamp = e.timestamp.asWritten ∧
      e'.timestampEnd = e.timestampEnd.asWritten := by
  obtain ⟨hname, htags, htimestamp, hend⟩ := h
  simp only [record, hname, htags, htimestamp, hend, Option.bind_eq_bind, Option.bind_some,
    Option.bind_eq_some_iff] at hbuild
  obtain ⟨x, -, hx⟩ := hbuild
  obtain rfl := Option.some.inj hx
  exact ⟨rfl, rfl, rfl, rfl⟩

/-- Whatever is read for the value, the rest of an event survives its text. -/
theorem fields_of_parse_json {e e' : Event} (h : Event.parse e.json = .ok e') :
    e'.name = e.name ∧ e'.tags = e.tags ∧ e'.timestamp = e.timestamp.asWritten ∧
      e'.timestampEnd = e.timestampEnd.asWritten := by
  obtain ⟨rest, hread⟩ := read_of_parse h
  obtain ⟨fuel, hjson⟩ := e.read_json
  rw [hjson, Record.conclude] at hread
  obtain ⟨⟨d, bs⟩, hmembers, hread⟩ := bind_eq_ok.1 hread
  obtain ⟨bs', -, hread⟩ := bind_eq_ok.1 hread
  have hagrees : e.Agrees d :=
    Record.readMembers_preserves (fun f hf _ _ _ _ hset hread h ↦ h.read_field hf hset hread)
      e.agrees_draft hmembers
  split at hread
  · next a hbuild =>
    obtain ⟨rfl, -⟩ : a = e' ∧ bs' = rest := by simpa [pure, Except.pure] using hread
    exact hagrees.of_build hbuild
  · simp [Fault.here] at hread

end Event

/-! ## Round trips -/

/-- Key ranges and tags survive their own text, and so do windows and, of every event that can be
read back at all, everything but the value.  The one exception are times in a leap second within a
minute, each of which is read as the second behind it. -/
theorem parse_json_round_trip :
    (∀ q : Query, Query.parse q.json = .ok q) ∧ (∀ t : Tags, Tags.parse t.json = .ok t) ∧
      (∀ w : Window, Window.parse w.json = .ok ⟨w.query, w.start.asWritten, w.stop.asWritten⟩) ∧
      (∀ e e' : Event, Event.parse e.json = .ok e' →
        e'.name = e.name ∧ e'.tags = e.tags ∧ e'.timestamp = e.timestamp.asWritten ∧
          e'.timestampEnd = e.timestampEnd.asWritten) ∧
      ∀ t : Instant, t.asWritten = t ↔ t.LeapOnMinute :=
  ⟨fun q ↦ parse_of_reads q.reads_json, fun t ↦ parse_of_reads t.reads_json,
    fun w ↦ parse_of_reads w.reads_json, fun _ _ ↦ Event.fields_of_parse_json,
    Instant.asWritten_eq_self_iff⟩

/-- An event that needs every escape, between leap seconds of the years -1 and 10000.  Its value is
read back as another. -/
def Event.escaped : Event where
  name := "a \"quoted\\name\"\u2028"
  tags := ⟨"", "v1\n", "Bucket\u0000\u001f", "acme\t", "mcp\u0008\u000c\r"⟩
  timestamp := ⟨-62198755141, 1999999999, by decide, by decide, by decide⟩
  timestampEnd := ⟨253402300859, 1500000000, by decide, by decide, by decide⟩
  value := ⟨0x431999999999999C⟩

theorem parse_json_round_trip_escaped :
    ∃ e, Event.parse Event.escaped.json = .ok e ∧ e.value ≠ Event.escaped.value ∧
      e.name = Event.escaped.name ∧ e.tags = Event.escaped.tags ∧
      e.timestamp = Event.escaped.timestamp ∧ e.timestampEnd = Event.escaped.timestampEnd := by
  have hparse : Event.parse Event.escaped.json =
      .ok { Event.escaped with value := ⟨0x431999999999999D⟩ } := by decide +kernel
  obtain ⟨-, -, -, hevent, hleap⟩ := parse_json_round_trip
  obtain ⟨hname, htags, hstart, hend⟩ := hevent Event.escaped _ hparse
  rw [(hleap _).2 (by decide)] at hstart hend
  exact ⟨_, hparse, by decide, hname, htags, hstart, hend⟩

/-- A leap second that is second 4 of its minute is written as second 5, and is not read back. -/
theorem not_parse_json_round_trip :
    let t : Instant := ⟨4, 1333333333, by decide, by decide, by decide⟩
    let u : Instant := ⟨5, 333333333, by decide, by decide, by decide⟩
    let w : Window := ⟨⟨"", ""⟩, t, t⟩
    let e : Event := ⟨"n", ⟨"", "", "", "a", ""⟩, t, u, Binary64.ofNat 1⟩
    t ≠ u ∧ Window.parse w.json = .ok ⟨⟨"", ""⟩, u, u⟩ ∧
      e.json = utf8 ("\x7b\"name\":\"n\",\"tags\":\x7b\"customresource_group\":\"\"," ++
        "\"customresource_version\":\"\",\"customresource_kind\":\"\"," ++
        "\"upbound_account\":\"a\",\"mcp_id\":\"\"\x7d," ++
        "\"timestamp\":\"1970-01-01T00:00:05.333333333Z\"," ++
        "\"timestamp_end\":\"1970-01-01T00:00:05.333333333Z\",\"value\":1.0\x7d") ∧
      Event.parse e.json = .ok ⟨"n", ⟨"", "", "", "a", ""⟩, u, u, Binary64.ofNat 1⟩ := by
  intro t u w e
  exact ⟨by decide, by decide +kernel, by decide +kernel, by decide +kernel⟩

end HourlyUsage
