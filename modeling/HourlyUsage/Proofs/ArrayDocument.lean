import HourlyUsage.Proofs.ArrayContent
import HourlyUsage.Proofs.CompactText
import HourlyUsage.Proofs.IndentedText
import Mathlib.Data.List.Forall2

/-!
# The text of an array

Whatever the calls on an encoder are, and whatever the sink makes of its writes,
an array that is ended holds the records that could be serialized, one on each
line.  Read as one JSON text it is the array of what its records are when each
is read alone.
-/

namespace HourlyUsage

open Json Text

namespace ArrayEncoder

/-! ## Calls -/

/-- Encodes one record after the other, whatever becomes of those before. -/
def encodeEach : ArrayEncoder → List Serialized → List (Except UsageError Unit) × ArrayEncoder
  | enc, [] => ([], enc)
  | enc, record :: records =>
    let (r, enc) := enc.encode record
    let (rs, enc) := enc.encodeEach records
    (r :: rs, enc)

/-- The texts of the records that can be serialized. -/
def texts (records : List Serialized) : List Bytes := records.filterMap Except.toOption

/-- The answer to a record when no write fails. -/
def answer (record : Serialized) : Except UsageError Unit :=
  (record.map fun _ ↦ ()).mapError .encoding

theorem encodeEach_of_takesAll {enc : ArrayEncoder} (h : enc.sink.TakesAll)
    (records : List Serialized) :
    ∃ s, enc.encodeEach records =
        (records.map answer, ⟨s, enc.wroteFirst || !(texts records).isEmpty⟩) ∧
      s.TakesAll ∧ s.content = enc.sink.content ++ chunks enc.wroteFirst (texts records) := by
  induction records generalizing enc with
  | nil => exact ⟨enc.sink, by simp [encodeEach, texts], h, by simp [texts, chunks]⟩
  | cons record records ih =>
      cases record with
      | error e =>
          obtain ⟨s, hcalls, hall, hcontent⟩ := ih h
          refine ⟨s, ?_, hall, hcontent⟩
          rw [encodeEach]
          simp only [encode, hcalls]
          rfl
      | ok text =>
          obtain ⟨s', hwrite, hall', hcontent'⟩ := h.writeAll (chunkOf enc.wroteFirst text)
          obtain ⟨s, hcalls, hall, hcontent⟩ := @ih ⟨s', true⟩ hall'
          refine ⟨s, ?_, hall, ?_⟩
          · rw [encodeEach]
            simp only [encode_of_writeAll hwrite, hcalls]
            simp [texts, Except.toOption, answer, Except.map, Except.mapError]
          · rw [hcontent, hcontent', List.append_assoc]
            rfl

theorem content_close {enc : ArrayEncoder} (h : enc.sink.TakesAll) :
    enc.close.2.content = enc.sink.content ++ closing := by
  obtain ⟨s, hwrite, -, hcontent⟩ := h.writeAll closing
  rw [close_of_writeAll hwrite]
  exact hcontent

/-! ## Lines -/

/-- The lines of records, each but the last with a comma at its end. -/
def recordLines : List Bytes → List Bytes
  | [] => []
  | [record] => [record]
  | record :: next :: records => (record ++ [Ascii.comma]) :: recordLines (next :: records)

theorem length_recordLines (records : List Bytes) :
    (recordLines records).length = records.length := by
  induction records using recordLines.induct with
  | case1 => rfl
  | case2 record => rfl
  | case3 record next records ih => simp [recordLines, ih]

theorem splitOn_chunks {records : List Bytes} (h : ∀ record ∈ records, Ascii.newline ∉ record)
    {first : Bytes} (hfirst : Ascii.newline ∉ first) (rest : Bytes) :
    (first ++ chunks true records ++ Ascii.newline :: rest).splitOn Ascii.newline =
      recordLines (first :: records) ++ rest.splitOn Ascii.newline := by
  induction records generalizing first with
  | nil =>
      rw [chunks, List.append_nil, List.splitOn_append_cons_self_of_not_mem hfirst]
      rfl
  | cons next records ih =>
      have hline : Ascii.newline ∉ first ++ [Ascii.comma] := by
        intro hmem
        rcases List.mem_append.1 hmem with hmem | hmem
        · exact hfirst hmem
        · exact absurd hmem (by decide)
      have hrest := ih (fun r hr ↦ h r (List.mem_cons_of_mem _ hr)) (h next (List.mem_cons_self ..))
      have hsplit : first ++ chunks true (next :: records) ++ Ascii.newline :: rest =
          (first ++ [Ascii.comma]) ++
            Ascii.newline :: (next ++ chunks true records ++ Ascii.newline :: rest) := by
        simp [chunks, chunkOf]
      rw [hsplit, List.splitOn_append_cons_self_of_not_mem hline, hrest]
      rfl

/-- Between the lines of the brackets each record has a line of its own. -/
theorem splitOn_document {records : List Bytes} (h : ∀ record ∈ records, Ascii.newline ∉ record) :
    (document records).splitOn Ascii.newline =
      [Ascii.openBracket] :: recordLines records ++ [[Ascii.closeBracket], []] := by
  rw [document, body_eq_chunks]
  cases records with
  | nil => rfl
  | cons first records =>
      have hopen : Ascii.newline ∉ opening := by decide
      have hsplit := splitOn_chunks (fun r hr ↦ h r (List.mem_cons_of_mem _ hr))
        (h first (List.mem_cons_self ..)) [Ascii.closeBracket, Ascii.newline]
      have hdocument : opening ++ chunks false (first :: records) ++ closing =
          opening ++ Ascii.newline ::
            (first ++ chunks true records ++
              Ascii.newline :: [Ascii.closeBracket, Ascii.newline]) := by
        simp [chunks, chunkOf, closing]
      rw [hdocument, List.splitOn_append_cons_self_of_not_mem hopen, hsplit]
      rfl

/-! ## Reading -/

/-- The record is the text of a value, with at most so many brackets within each other. -/
def IsTextOf (depth : Nat) (record : Bytes) (v : Value) : Prop :=
  Value.parse record = .ok v ∧ nesting record ≤ depth

theorem IsTextOf.readsValue {depth : Nat} {record : Bytes} {v : Value}
    (h : IsTextOf depth record v) : ReadsValue depth record v := by
  obtain ⟨trail, htrail, -, hread⟩ := readValue_of_parse h.1
  have halone : ReadsValue (nesting record) record v := ⟨trail, htrail, hread⟩
  exact halone.mono h.2

theorem chunks_eq_linesOf (wroteFirst : Bool) (records : List Bytes) :
    chunks wroteFirst records = linesOf 0 (!wroteFirst) records := by
  induction records generalizing wroteFirst with
  | nil => rfl
  | cons record records ih =>
      rw [chunks, ih true, linesOf]
      cases wroteFirst <;> simp [chunkOf, freshLine]

/-- Texts of values, each with at most 126 brackets within each other, are together the text of
the array of these values. -/
theorem parse_document {records : List Bytes} {vs : List Value}
    (h : List.Forall₂ (IsTextOf 126) records vs) :
    Value.parse (document records) = .ok (.array vs) := by
  let lines := linesOf 0 true records ++
    (freshLine 0 ++ Ascii.closeBracket :: [Ascii.newline])
  have hdocument : skipSpace (document records) = Ascii.openBracket :: lines := by
    rw [document, body_eq_chunks, chunks_eq_linesOf]
    rfl
  have hreads : List.Forall₂ (ReadsValue 126) records vs := h.imp fun _ _ ↦ IsTextOf.readsValue
  have hitems : readItems (readValue 127) (lines.length + 1) true lines =
      .ok (vs, [Ascii.closeBracket, Ascii.newline]) :=
    readItems_linesOf hreads (by decide) 0 0 rfl (length_lt_of_linesOf _ _ _ _)
  have hvalue : readValue depthLimit (document records) = .ok (.array vs, [Ascii.newline]) := by
    refine (readValue_array hdocument (by decide : 127 ≠ 0)).trans ?_
    rw [hitems]
    rfl
  unfold Value.parse parse toEnd
  rw [hvalue]
  rfl

/-- Events nest no deeper than any array of them may. -/
theorem isTextOf_events {events : List Event} {vs : List Value}
    (h : List.Forall₂ (fun event v ↦ Value.parse event.json = .ok v) events vs) :
    List.Forall₂ (IsTextOf 126) (events.map Event.json) vs := by
  induction h with
  | nil => exact .nil
  | @cons event v events vs hparse _ ih =>
      have hnesting : nesting event.json ≤ 126 := (nesting_eventJson_le event).trans (by decide)
      exact .cons ⟨hparse, hnesting⟩ ih

/-! ## Encoded arrays -/

/-- An array that is begun on a sink that takes all, filled and ended, holds the records that could
be serialized and nothing of the others, whether it is closed or abandoned.  Each call answers for
its own record.  There is one record on each line, and where the records are texts of values that
leave room for one more bracket around them, the array is the text of the array of these values. -/
theorem encoded_array {sink : Sink} (hsink : sink.TakesAll) {records : List Serialized}
    (hcompact : ∀ text ∈ texts records, CompactText text) :
    ∃ enc, start sink = (.ok (), enc) ∧
      (enc.encodeEach records).1 = records.map answer ∧
      (enc.encodeEach records).2.close.2.content = sink.content ++ document (texts records) ∧
      (enc.encodeEach records).2.abandon.content = sink.content ++ document (texts records) ∧
      (document (texts records)).splitOn Ascii.newline =
        [Ascii.openBracket] :: recordLines (texts records) ++ [[Ascii.closeBracket], []] ∧
      (recordLines (texts records)).length = (texts records).length ∧
      ∀ vs, List.Forall₂ (IsTextOf 126) (texts records) vs →
        Value.parse (document (texts records)) = .ok (.array vs) := by
  obtain ⟨opened, hopen, hall, hcontent⟩ := hsink.writeAll opening
  obtain ⟨filled, hcalls, hall', hcontent'⟩ :=
    @encodeEach_of_takesAll ⟨opened, false⟩ hall records
  have hclose : (encodeEach ⟨opened, false⟩ records).2.close.2.content =
      sink.content ++ document (texts records) := by
    rw [hcalls, content_close hall', hcontent', hcontent, document, body_eq_chunks]
    simp only [List.append_assoc]
  refine ⟨⟨opened, false⟩, start_of_writeAll hopen, by rw [hcalls], hclose, hclose,
    splitOn_document fun text htext ↦ (hcompact text htext).newline_notMem,
    length_recordLines _, fun _ hvs ↦ parse_document hvs⟩

/-- Three calls on a sink that takes a byte at a time and is interrupted twice.  The second record
cannot be serialized, and the first has brackets and a line feed in a string. -/
theorem encoded_array_of_nested_records :
    let sink : Sink := { script := [.interrupted, .upTo 1, .interrupted], chunk := some 1 }
    let first : Value := .array [.array [.bool true], .string "]\n,["]
    let records : List Serialized :=
      [.ok first.print, .error (Error.unplaced (.custom "no text")), .ok Value.null.print]
    sink.TakesAll ∧ (∀ text ∈ texts records, CompactText text) ∧
      List.Forall₂ (IsTextOf 126) (texts records) [first, .null] ∧
      ∃ enc, start sink = (.ok (), enc) ∧
        (enc.encodeEach records).1 = records.map answer ∧
        (enc.encodeEach records).2.close.2.content =
          utf8 "[\n[[true],\"]\\n,[\"],\nnull\n]\n" ∧
        Value.parse (enc.encodeEach records).2.close.2.content = .ok (.array [first, .null]) := by
  intro sink first records
  have hsink : sink.TakesAll := ⟨rfl, rfl, by decide, by decide⟩
  have hcompact : ∀ text ∈ texts records, CompactText text := by
    have htexts : texts records = [first.print, Value.null.print] := rfl
    rw [htexts]
    simp [compactText_print]
  have hvalues : List.Forall₂ (IsTextOf 126) (texts records) [first, .null] :=
    .cons ⟨rfl, by decide⟩ (.cons ⟨rfl, by decide⟩ .nil)
  obtain ⟨enc, hstart, hcalls, hclose, -, -, -, hparse⟩ := encoded_array hsink hcompact
  refine ⟨hsink, hcompact, hvalues, enc, hstart, hcalls, ?_, ?_⟩
  · rw [hclose]
    rfl
  · rw [hclose]
    exact hparse _ hvalues

end ArrayEncoder
end HourlyUsage
