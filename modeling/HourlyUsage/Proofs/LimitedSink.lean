import HourlyUsage.Proofs.ReportDocument

/-!
# Reports on a limited sink

A sink with room for so many bytes holds, after any number of writes, as much of what was
written as there was room for.  The first write that finds it full fails, and nothing is
written behind it.  So a report that does not fit leaves exactly its beginning, wherever the
room ends and however the report is cut into writes.
-/

namespace HourlyUsage

open Json Text

namespace Sink

/-- The sink takes something of every write in the end, until it has taken `room` more bytes. -/
structure HasRoom (room : Nat) (s : Sink) : Prop where
  mode_eq : s.mode = .accepting
  limit_eq : s.limit = some (s.content.length + room)
  chunk_ne : s.chunk ≠ some 0
  script_all : Reply.upTo 0 ∉ s.script

theorem hasRoom_of_limit (limit : Nat) {chunk : Nat} (h : chunk ≠ 0) :
    ({ limit := some limit, chunk := some chunk } : Sink).HasRoom limit :=
  ⟨rfl, congrArg some (Nat.zero_add limit).symm, by simpa using h, nofun⟩

def full : IoError := .other "sink full"

/-- What writing some bytes to a sink that held others and had room ends with, and what it leaves
there. -/
structure Written (room : Nat) (held bs : Bytes) (r : Except IoError Unit × Sink) : Prop where
  result_eq : r.1 = if bs.length ≤ room then .ok () else .error full
  content_eq : r.2.content = held ++ bs.take room
  hasRoom : r.2.HasRoom (room - bs.length)

namespace Written

variable {room : Nat} {held bs more : Bytes} {r r' : Except IoError Unit × Sink}

theorem eq_ok (h : Written room held bs r) (hle : bs.length ≤ room) : r = (.ok (), r.2) :=
  Prod.ext (h.result_eq.trans (if_pos hle)) rfl

theorem eq_full (h : Written room held bs r) (hlt : room < bs.length) : r = (.error full, r.2) :=
  Prod.ext (h.result_eq.trans (if_neg (Nat.not_le.2 hlt))) rfl

theorem length_le {s : Sink} (h : Written room held bs (.ok (), s)) : bs.length ≤ room := by
  by_contra hlt
  have hresult := h.result_eq
  rw [if_neg hlt] at hresult
  cases hresult

/-- Bytes that had room, and more of them behind. -/
theorem append (h : Written room held bs r) (hle : bs.length ≤ room)
    (h' : Written (room - bs.length) r.2.content more r') : Written room held (bs ++ more) r' where
  result_eq := by
    have hsize : more.length ≤ room - bs.length ↔ (bs ++ more).length ≤ room := by
      rw [List.length_append]
      omega
    rw [h'.result_eq]
    simp only [hsize]
  content_eq := by
    rw [h'.content_eq, h.content_eq, List.append_assoc, List.take_append]
  hasRoom := by
    rw [List.length_append, ← Nat.sub_sub]
    exact h'.hasRoom

/-- Behind bytes that did not have room nothing is written. -/
theorem append_of_lt (h : Written room held bs r) (hlt : room < bs.length) (more : Bytes) :
    Written room held (bs ++ more) r where
  result_eq := by
    rw [h.eq_full hlt, if_neg (by rw [List.length_append]; omega)]
  content_eq := by
    rw [h.content_eq, List.take_append_of_le_length (Nat.le_of_lt hlt)]
  hasRoom := by
    have hnone : room - bs.length = 0 := by omega
    have hroom := h.hasRoom
    rw [List.length_append, ← Nat.sub_sub, hnone, Nat.zero_sub]
    rwa [hnone] at hroom

end Written

/-! ## Single writes -/

/-- What one write of some bytes ends with, and what of them is written then: nothing if it is
interrupted, a part, or as much as if it had been tried with all of them. -/
inductive Step (room : Nat) (held bs : Bytes) : WriteResult → Sink → Prop
  | interrupted {s : Sink} (h : Written room held [] (.ok (), s)) :
      Step room held bs .interrupted s
  | took {n : Nat} {s : Sink} (hpos : n ≠ 0) (h : Written room held (bs.take n) (.ok (), s)) :
      Step room held bs (.took n) s
  | failed {s : Sink} (h : Written room held bs (.error full, s)) :
      Step room held bs (.failed full) s

/-- The calls that a sink remembers do not matter to what it takes. -/
theorem Step.withCalls {room : Nat} {held bs : Bytes} {r : WriteResult} {s : Sink}
    (h : Step room held bs r s) (calls : List WriteCall) :
    Step room held bs r { s with calls } := by
  have hwritten : ∀ {bs : Bytes} {r : Except IoError Unit}, Written room held bs (r, s) →
      Written room held bs (r, { s with calls }) := fun h ↦
    ⟨h.result_eq, h.content_eq, h.hasRoom.mode_eq, h.hasRoom.limit_eq, h.hasRoom.chunk_ne,
      h.hasRoom.script_all⟩
  cases h with
  | interrupted h => exact .interrupted (hwritten h)
  | took hpos h => exact .took hpos (hwritten h)
  | failed h => exact .failed (hwritten h)

namespace HasRoom

variable {s : Sink} {room : Nat} {bs : Bytes}

theorem step_accept (h : s.HasRoom room) {cap : Nat} (hcap : cap ≠ 0) (hbs : bs ≠ []) :
    Step room s.content bs (s.accept cap bs).1 (s.accept cap bs).2 := by
  have hlength : bs.length ≠ 0 := mt List.eq_nil_of_length_eq_zero hbs
  have hchunk := chunkSize_ne_zero h.chunk_ne hbs
  have hleft : s.content.length + room - s.content.length = room := Nat.add_sub_cancel_left ..
  by_cases hroom : room = 0
  · have hfull : s.accept cap bs = (.failed full, s) := by
      simp only [accept, h.mode_eq, h.limit_eq, hleft, Option.isSome_some, true_and, if_pos hroom]
      rfl
    rw [hfull]
    refine .failed ⟨(if_neg (by omega)).symm, ?_, ?_⟩
    · rw [hroom, List.take_zero, List.append_nil]
    · rw [hroom, Nat.zero_sub]
      exact hroom ▸ h
  · let n := min (min (min cap (s.chunk.getD bs.length)) room) bs.length
    have htaken : s.accept cap bs = (.took n, { s with content := s.content ++ bs.take n }) := by
      simp only [accept, h.mode_eq, h.limit_eq, hleft, Option.isSome_some, true_and, if_neg hroom]
      rw [List.length_take, ← List.take_eq_take_min]
    have hsize : (bs.take n).length = n := by
      rw [List.length_take]
      omega
    rw [htaken]
    refine .took (by omega) ⟨(if_pos (by omega)).symm, ?_, h.mode_eq, ?_, h.chunk_ne, h.script_all⟩
    · rw [List.take_take, Nat.min_eq_right (by omega)]
    · rw [h.limit_eq, List.length_append, hsize]
      congr 1
      omega

theorem written_nil (h : s.HasRoom room) : Written room s.content [] (.ok (), s) :=
  ⟨(if_pos (Nat.zero_le room)).symm, by simp, h⟩

theorem step_respond (h : s.HasRoom room) (hbs : bs ≠ []) :
    Step room s.content bs (s.respond bs).1 (s.respond bs).2 := by
  have hrest : ∀ {script : List Reply}, (∀ reply ∈ script, reply ∈ s.script) →
      ({ s with script } : Sink).HasRoom room := fun hsub ↦
    ⟨h.mode_eq, h.limit_eq, h.chunk_ne, fun hmem ↦ h.script_all (hsub _ hmem)⟩
  unfold respond
  split
  · have hlength : bs.length ≠ 0 := mt List.eq_nil_of_length_eq_zero hbs
    exact h.step_accept hlength hbs
  · next script hscript =>
    have hroom := hrest fun r hr ↦ hscript ▸ List.mem_cons_of_mem Reply.interrupted hr
    exact .interrupted hroom.written_nil
  · next n script hscript =>
    have hn : n ≠ 0 := by
      rintro rfl
      exact h.script_all (hscript ▸ List.mem_cons_self ..)
    exact (hrest fun r hr ↦ hscript ▸ List.mem_cons_of_mem _ hr).step_accept hn hbs

theorem step_write (h : s.HasRoom room) (hbs : bs ≠ []) :
    Step room s.content bs (s.write bs).1 (s.write bs).2 :=
  (h.step_respond hbs).withCalls _

/-! ## Runs of writes -/

theorem writeAll (h : s.HasRoom room) (bs : Bytes) :
    Written room s.content bs (s.writeAll bs) := by
  induction s, bs using Sink.writeAll.induct generalizing room with
  | case1 s =>
      rw [Sink.writeAll, dif_pos rfl]
      exact h.written_nil
  | case2 s bs hbs s' hw ih =>
      have hstep := h.step_write hbs
      rw [hw] at hstep
      simp only [writeAll_of_ne_nil s hbs, hw]
      cases hstep with
      | interrupted hnone => exact hnone.append (Nat.zero_le room) (ih hnone.hasRoom)
  | case3 s bs hbs e s' hw =>
      have hstep := h.step_write hbs
      rw [hw] at hstep
      simp only [writeAll_of_ne_nil s hbs, hw]
      cases hstep with
      | failed hfull => exact hfull
  | case4 s bs hbs s' hw =>
      have hstep := h.step_write hbs
      rw [hw] at hstep
      cases hstep with
      | took hpos _ => exact absurd rfl hpos
  | case5 s bs hbs n s' hw hn ih =>
      have hstep := h.step_write hbs
      rw [hw] at hstep
      simp only [writeAll_of_ne_nil s hbs, hw, if_neg hn]
      cases hstep with
      | took _ hpart =>
          have hall := hpart.append hpart.length_le (ih hpart.hasRoom)
          rwa [List.take_append_drop] at hall

theorem writeEach (h : s.HasRoom room) (pieces : List Bytes) :
    Written room s.content pieces.flatten (s.writeEach pieces) := by
  induction pieces generalizing s room with
  | nil => exact h.written_nil
  | cons piece pieces ih =>
      have hfirst := h.writeAll piece
      rw [List.flatten_cons, Sink.writeEach]
      rcases Nat.lt_or_ge room piece.length with hlt | hle
      · have hall := hfirst.append_of_lt hlt pieces.flatten
        rw [hfirst.eq_full hlt] at hall ⊢
        exact hall
      · have hrest := hfirst.append hle (ih hfirst.hasRoom)
        rw [hfirst.eq_ok hle]
        exact hrest

end HasRoom
end Sink

namespace Report

/-- The failure of a report that a full sink has cut off, by the bytes that are missing.  The line
feed behind a JSON document is no part of the document. -/
def cutOff : (format : Format) → (missing : Nat) → CommandError
  | .table, _ => .io Sink.full
  | .json, missing =>
    if missing = 1 then .io Sink.full
    else .format ("JSON serialization failed: " ++ Sink.full.message)

variable {sink : Sink} {room : Nat} {cut : Bytes → List Bytes}

/-- What a sink with room holds of a report, and how writing it ends. -/
theorem write_of_hasRoom (report : Report) (format : Format) (h : sink.HasRoom room)
    (hcut : ∀ text, (cut text).flatten = text) :
    (report.write format sink cut).2.content =
        sink.content ++ (report.bytes format).take room ∧
      (report.write format sink cut).1 = if (report.bytes format).length ≤ room then .ok ()
        else .error (cutOff format ((report.bytes format).length - room)) := by
  cases format with
  | table =>
      have htable := h.writeEach (cut (utf8 report.table))
      rw [hcut] at htable
      have hall : Sink.Written room sink.content (report.bytes .table) _ := htable
      have hresult := congrArg (Except.mapError CommandError.io) hall.result_eq
      refine ⟨hall.content_eq, hresult.trans ?_⟩
      split <;> rfl
  | json =>
      have hdocument := h.writeEach (cut report.json)
      rw [hcut] at hdocument
      have hsize : (report.bytes .json).length = report.json.length + 1 := List.length_append
      simp only [write]
      rcases Nat.lt_or_ge room report.json.length with hlt | hle
      · have hall := hdocument.append_of_lt hlt [Ascii.newline]
        rw [hdocument.eq_full hlt] at hall ⊢
        rw [if_neg (by omega), cutOff, if_neg (by omega)]
        exact ⟨hall.content_eq, rfl⟩
      · have hall : Sink.Written room sink.content (report.bytes .json) _ :=
          hdocument.append hle (hdocument.hasRoom.writeAll [Ascii.newline])
        rw [hdocument.eq_ok hle]
        have hresult := congrArg (Except.mapError CommandError.io) hall.result_eq
        refine ⟨hall.content_eq, hresult.trans ?_⟩
        split
        · rfl
        · rw [cutOff, if_pos (by omega)]
          rfl

/-- A report written to a sink with room for so many bytes leaves exactly that much of its text
behind what the sink held, however it is cut into writes.  It is written without a failure exactly
if all of its text has room, and a failure says by its kind whether the sink was full before the
JSON document was complete. -/
theorem write_limited (report : Report) (format : Format) (h : sink.HasRoom room)
    (hcut : ∀ text, (cut text).flatten = text) :
    ∃ text, report.text format = .ok text ∧
      (report.write format sink cut).2.content =
        sink.content ++ (utf8 text).take (min room (utf8 text).length) ∧
      ((report.write format sink cut).1 = .ok () ↔ (utf8 text).length ≤ room) ∧
      (room < (utf8 text).length → (report.write format sink cut).1 =
        .error (cutOff format ((utf8 text).length - room))) := by
  obtain ⟨text, htext, hbytes⟩ := report.exists_text format
  obtain ⟨hheld, hresult⟩ := report.write_of_hasRoom format h hcut
  rw [← hbytes] at hheld hresult
  refine ⟨text, htext, ?_, ?_, fun hlt ↦ ?_⟩
  · rw [hheld, ← List.take_eq_take_min]
  · rw [hresult]
    split
    · next hle => exact iff_of_true rfl hle
    · next hlt => exact iff_of_false nofun hlt
  · rw [hresult, if_neg (Nat.not_le.2 hlt)]

/-- The report of an export byte by byte on a sink with room for one byte, where its table begins
with a mark of three, and on one that lacks the last byte of its 67 in JSON. -/
theorem write_limited_within_mark :
    let report : Report := .exported ⟨"a", ⟨1, 2, 3⟩⟩
    let small : Sink := { limit := some 1, chunk := some 1 }
    let large : Sink := { limit := some 66, chunk := some 1 }
    let cut : Bytes → List Bytes := List.map fun b ↦ [b]
    small.HasRoom 1 ∧ large.HasRoom 66 ∧ (∀ text, (cut text).flatten = text) ∧
      (report.write .table small cut).2.content = [0xE2] ∧
      (report.write .table small cut).1 = .error (.io (.other "sink full")) ∧
      (report.write .json large cut).1 = .error (.io (.other "sink full")) := by
  intro report small large cut
  have hsmall : small.HasRoom 1 := Sink.hasRoom_of_limit 1 (by decide)
  have hlarge : large.HasRoom 66 := Sink.hasRoom_of_limit 66 (by decide)
  have hcut : ∀ text, (cut text).flatten = text := List.flatMap_singleton'
  obtain ⟨text, htext, hheld, -, herror⟩ := report.write_limited .table hsmall hcut
  obtain ⟨document, hdocument, -, -, hline⟩ := report.write_limited .json hlarge hcut
  have hsize : (report.bytes .table).length = 66 := by decide +kernel
  have hsize' : (report.bytes .json).length = 67 := by decide +kernel
  have hfirst : (report.bytes .table).take 1 = [0xE2] := by decide
  rw [text_eq_ok_iff.1 htext, hsize] at hheld herror
  rw [text_eq_ok_iff.1 hdocument, hsize'] at hline
  exact ⟨hsmall, hlarge, hcut, hheld.trans hfirst, herror (by decide), hline (by decide)⟩

end Report
end HourlyUsage
