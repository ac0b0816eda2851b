import HourlyUsage.Export

/-!
# What an export writes

However a sink splits and interrupts its writes, what it holds grows by a
beginning of the bytes written, and by all of them where the write succeeds.  So
an array that is begun, filled and ended without a failure is the text of its
records, and an export that succeeds writes the events that its store holds.
-/

namespace HourlyUsage

open Text

/-! ## Sinks -/

namespace Sink

theorem accept_spec (s : Sink) (cap : Nat) (bs : Bytes) :
    (∃ n, (s.accept cap bs).1 = .took n ∧ (s.accept cap bs).2.content = s.content ++ bs.take n) ∨
      ∃ e, (s.accept cap bs).1 = .failed e ∧ (s.accept cap bs).2.content = s.content := by
  have htake : ∀ k, bs.take k = bs.take (bs.take k).length := fun k ↦ by
    rw [List.length_take, ← List.take_eq_take_min]
  unfold accept
  split
  · exact .inr ⟨_, rfl, rfl⟩
  · exact .inl ⟨0, rfl, by simp⟩
  · split
    all_goals
      dsimp only
      split
      · exact .inr ⟨_, rfl, rfl⟩
      · exact .inl ⟨_, rfl, congrArg _ (htake _)⟩

theorem write_spec (s : Sink) (bs : Bytes) :
    (∃ n, (s.write bs).1 = .took n ∧ (s.write bs).2.content = s.content ++ bs.take n) ∨
      ((s.write bs).1 = .interrupted ∨ ∃ e, (s.write bs).1 = .failed e) ∧
        (s.write bs).2.content = s.content := by
  change (∃ n, (s.respond bs).1 = .took n ∧ (s.respond bs).2.content = s.content ++ bs.take n) ∨
    ((s.respond bs).1 = .interrupted ∨ ∃ e, (s.respond bs).1 = .failed e) ∧
      (s.respond bs).2.content = s.content
  unfold respond
  split
  · rcases accept_spec s bs.length bs with h | ⟨e, he, h⟩
    · exact .inl h
    · exact .inr ⟨.inr ⟨e, he⟩, h⟩
  · exact .inr ⟨.inl rfl, rfl⟩
  · next n script _ =>
    rcases accept_spec { s with script } n bs with h | ⟨e, he, h⟩
    · exact .inl h
    · exact .inr ⟨.inr ⟨e, he⟩, h⟩

theorem writeAll_of_ne_nil (s : Sink) {bs : Bytes} (hbs : bs ≠ []) :
    s.writeAll bs =
      match s.write bs with
      | (.interrupted, s') => s'.writeAll bs
      | (.failed e, s') => (.error e, s')
      | (.took n, s') =>
        if n = 0 then (.error .nothingWritten, s') else s'.writeAll (bs.drop n) := by
  rw [writeAll, dif_neg hbs]
  split
  · next hw => simp only [hw]
  · next hw => simp only [hw]
  · next hw => simp only [hw, dite_eq_ite]

/-- Writing all of some bytes adds a beginning of them, which is all of them when it succeeds. -/
theorem writeAll_spec (s : Sink) (bs : Bytes) :
    ∃ n, (s.writeAll bs).2.content = s.content ++ bs.take n ∧
      ((s.writeAll bs).1 = .ok () ↔ bs.length ≤ n) := by
  induction s, bs using writeAll.induct with
  | case1 s =>
      rw [writeAll, dif_pos rfl]
      exact ⟨0, by simp⟩
  | case2 s bs hbs s' hw ih =>
      have hcontent : s'.content = s.content := by simpa [hw] using write_spec s bs
      simp only [writeAll_of_ne_nil s hbs, hw]
      rwa [hcontent] at ih
  | case3 s bs hbs e s' hw =>
      have hcontent : s'.content = s.content := by simpa [hw] using write_spec s bs
      simp only [writeAll_of_ne_nil s hbs, hw]
      exact ⟨0, by simp [hcontent, hbs]⟩
  | case4 s bs hbs s' hw =>
      have hcontent : s'.content = s.content := by simpa [hw] using write_spec s bs
      simp only [writeAll_of_ne_nil s hbs, hw]
      exact ⟨0, by simp [hcontent, hbs]⟩
  | case5 s bs hbs n s' hw hn ih =>
      have hcontent : s'.content = s.content ++ bs.take n := by simpa [hw] using write_spec s bs
      simp only [writeAll_of_ne_nil s hbs, hw, if_neg hn]
      obtain ⟨k, hk, hok⟩ := ih
      refine ⟨n + k, ?_, ?_⟩
      · rw [hk, hcontent, List.append_assoc, List.take_add]
      · rw [hok, List.length_drop]
        omega

theorem content_of_writeAll {s s' : Sink} {bs : Bytes} (h : s.writeAll bs = (.ok (), s')) :
    s'.content = s.content ++ bs := by
  obtain ⟨n, hn, hok⟩ := writeAll_spec s bs
  rw [h] at hn hok
  rw [hn, List.take_of_length_le (hok.1 rfl)]

/-- A write of some bytes is not cut down to nothing by the chunk size. -/
theorem chunkSize_ne_zero {s : Sink} (h : s.chunk ≠ some 0) {bs : Bytes} (hbs : bs ≠ []) :
    s.chunk.getD bs.length ≠ 0 := by
  cases hchunk : s.chunk with
  | none => exact mt List.eq_nil_of_length_eq_zero hbs
  | some n => simpa [hchunk] using h

/-- The sink takes something of every write in the end. -/
structure TakesAll (s : Sink) : Prop where
  mode_eq : s.mode = .accepting
  limit_eq : s.limit = none
  chunk_ne : s.chunk ≠ some 0
  script_all : Reply.upTo 0 ∉ s.script

namespace TakesAll

variable {s : Sink} {bs : Bytes}

theorem accept (h : s.TakesAll) {cap : Nat} (hcap : cap ≠ 0) (hbs : bs ≠ []) :
    (∃ n, n ≠ 0 ∧ (s.accept cap bs).1 = .took n) ∧ (s.accept cap bs).2.TakesAll := by
  have hlength : bs.length ≠ 0 := mt List.eq_nil_of_length_eq_zero hbs
  have hchunk := chunkSize_ne_zero h.chunk_ne hbs
  simp only [Sink.accept, h.mode_eq, h.limit_eq, Option.isSome_none, Bool.false_eq_true,
    false_and, if_false]
  refine ⟨⟨_, ?_, rfl⟩, ⟨rfl, rfl, h.chunk_ne, h.script_all⟩⟩
  rw [List.length_take]
  omega

theorem write (h : s.TakesAll) (hbs : bs ≠ []) :
    ((s.write bs).1 = .interrupted ∨ ∃ n, n ≠ 0 ∧ (s.write bs).1 = .took n) ∧
      (s.write bs).2.TakesAll := by
  have hrest : ∀ {script : List Reply}, (∀ reply ∈ script, reply ∈ s.script) →
      ({ s with script } : Sink).TakesAll := fun hsub ↦
    ⟨h.mode_eq, h.limit_eq, h.chunk_ne, fun hmem ↦ h.script_all (hsub _ hmem)⟩
  suffices hrespond : ((s.respond bs).1 = .interrupted ∨ ∃ n, n ≠ 0 ∧ (s.respond bs).1 = .took n) ∧
      (s.respond bs).2.TakesAll from
    ⟨hrespond.1, hrespond.2.mode_eq, hrespond.2.limit_eq, hrespond.2.chunk_ne,
      hrespond.2.script_all⟩
  unfold respond
  split
  · have hlength : bs.length ≠ 0 := mt List.eq_nil_of_length_eq_zero hbs
    have := h.accept hlength hbs
    exact ⟨.inr this.1, this.2⟩
  · next script hscript =>
    exact ⟨.inl rfl, hrest fun r hr ↦ hscript ▸ List.mem_cons_of_mem _ hr⟩
  · next n script hscript =>
    have hn : n ≠ 0 := by
      rintro rfl
      exact h.script_all (hscript ▸ List.mem_cons_self ..)
    have := (hrest fun r hr ↦ hscript ▸ List.mem_cons_of_mem _ hr).accept hn hbs
    exact ⟨.inr this.1, this.2⟩

/-- What is written to a sink that takes all is written in full, and leaves it one. -/
theorem writeAll (h : s.TakesAll) (bs : Bytes) :
    ∃ s', s.writeAll bs = (.ok (), s') ∧ s'.TakesAll ∧ s'.content = s.content ++ bs := by
  have hall : (s.writeAll bs).1 = .ok () ∧ (s.writeAll bs).2.TakesAll := by
    induction s, bs using Sink.writeAll.induct with
    | case1 s =>
        rw [Sink.writeAll, dif_pos rfl]
        exact ⟨rfl, h⟩
    | case2 s bs hbs s' hw ih =>
        have hs' := (h.write hbs).2
        rw [hw] at hs'
        simpa only [writeAll_of_ne_nil s hbs, hw] using ih hs'
    | case3 s bs hbs e s' hw => simpa [hw] using (h.write hbs).1
    | case4 s bs hbs s' hw => simpa [hw] using (h.write hbs).1
    | case5 s bs hbs n s' hw hn ih =>
        have hs' := (h.write hbs).2
        rw [hw] at hs'
        simpa only [writeAll_of_ne_nil s hbs, hw, if_neg hn] using ih hs'
  have heq : s.writeAll bs = (.ok (), (s.writeAll bs).2) := Prod.ext hall.1 rfl
  exact ⟨_, heq, hall.2, content_of_writeAll heq⟩

/-- Pieces that are written one after the other make up one text. -/
theorem writeEach (h : s.TakesAll) (pieces : List Bytes) :
    ∃ s', s.writeEach pieces = (.ok (), s') ∧ s'.TakesAll ∧
      s'.content = s.content ++ pieces.flatten := by
  induction pieces generalizing s with
  | nil => exact ⟨s, rfl, h, (List.append_nil _).symm⟩
  | cons piece pieces ih =>
      obtain ⟨mid, hw, hmid, hcontent⟩ := h.writeAll piece
      obtain ⟨s', hrest, hs', hcontent'⟩ := ih hmid
      refine ⟨s', ?_, hs', ?_⟩
      · rw [Sink.writeEach, hw]
        exact hrest
      · rw [hcontent', hcontent, List.flatten_cons, List.append_assoc]

end TakesAll

theorem flushFails_accept (s : Sink) (cap : Nat) (bs : Bytes) :
    (s.accept cap bs).2.flushFails = s.flushFails := by
  unfold accept
  split
  · rfl
  · rfl
  · dsimp only
    repeat' split
    all_goals rfl

theorem flushFails_write (s : Sink) (bs : Bytes) :
    (s.write bs).2.flushFails = s.flushFails := by
  change (s.respond bs).2.flushFails = s.flushFails
  unfold respond
  split
  · exact flushFails_accept _ _ _
  · rfl
  · exact flushFails_accept _ _ _

theorem flushFails_writeAll (s : Sink) (bs : Bytes) :
    (s.writeAll bs).2.flushFails = s.flushFails := by
  induction s, bs using writeAll.induct with
  | case1 s => rw [writeAll, dif_pos rfl]
  | case2 s bs hbs s' hw ih =>
      have hflush : s'.flushFails = s.flushFails := by simpa [hw] using flushFails_write s bs
      simpa only [writeAll_of_ne_nil s hbs, hw, hflush] using ih
  | case3 s bs hbs e s' hw => simpa [writeAll_of_ne_nil s hbs, hw] using flushFails_write s bs
  | case4 s bs hbs s' hw => simpa [writeAll_of_ne_nil s hbs, hw] using flushFails_write s bs
  | case5 s bs hbs n s' hw hn ih =>
      have hflush : s'.flushFails = s.flushFails := by simpa [hw] using flushFails_write s bs
      simpa only [writeAll_of_ne_nil s hbs, hw, if_neg hn, hflush] using ih

/-- The sink takes something of every write in the end, and does not fail to flush. -/
structure Willing (s : Sink) : Prop extends s.TakesAll where
  flushFails_eq : s.flushFails = false

/-- What is written to a willing sink is written in full, and leaves it willing. -/
theorem Willing.writeAll {s : Sink} (h : s.Willing) (bs : Bytes) :
    ∃ s', s.writeAll bs = (.ok (), s') ∧ s'.Willing ∧ s'.content = s.content ++ bs := by
  obtain ⟨s', hw, hall, hcontent⟩ := h.toTakesAll.writeAll bs
  have hflush := flushFails_writeAll s bs
  rw [hw] at hflush
  exact ⟨s', hw, ⟨hall, hflush.trans h.flushFails_eq⟩, hcontent⟩

end Sink

/-! ## Arrays -/

namespace ArrayEncoder

/-- The text of records between the brackets of their array. -/
def body (records : List Bytes) : Bytes :=
  List.intercalate [Ascii.comma] (records.map fun record ↦ Ascii.newline :: record)

def document (records : List Bytes) : Bytes := opening ++ body records ++ closing

/-- What records add behind those that are there: has a first one been written? -/
def chunks : (wroteFirst : Bool) → List Bytes → Bytes
  | _, [] => []
  | wroteFirst, record :: records => chunkOf wroteFirst record ++ chunks true records

theorem chunks_append (wroteFirst : Bool) (records more : List Bytes) :
    chunks wroteFirst (records ++ more) =
      chunks wroteFirst records ++ chunks (wroteFirst || !records.isEmpty) more := by
  induction records generalizing wroteFirst with
  | nil => simp [chunks]
  | cons record records ih => simp [chunks, ih]

theorem body_eq_chunks (records : List Bytes) : body records = chunks false records := by
  cases records with
  | nil => rfl
  | cons first records =>
      induction records generalizing first with
      | nil => simp [body, chunks, chunkOf]
      | cons next records ih =>
          have hnext := ih next
          simp only [body, List.map_cons, List.intercalate_cons_cons] at hnext ⊢
          rw [hnext]
          simp [chunks, chunkOf]

/-- The second encoder is the first one after it has written these records. -/
structure Receives (enc : ArrayEncoder) (records : List Bytes) (last : ArrayEncoder) : Prop where
  content_eq : last.sink.content = enc.sink.content ++ chunks enc.wroteFirst records
  wroteFirst_eq : last.wroteFirst = (enc.wroteFirst || !records.isEmpty)

namespace Receives

variable {enc mid last : ArrayEncoder} {records more : List Bytes}

theorem nil (enc : ArrayEncoder) : enc.Receives [] enc := ⟨by simp [chunks], by simp⟩

theorem append (h : enc.Receives records mid) (hmore : mid.Receives more last) :
    enc.Receives (records ++ more) last := by
  refine ⟨?_, ?_⟩
  · rw [hmore.content_eq, h.content_eq, h.wroteFirst_eq, chunks_append, List.append_assoc]
  · rw [hmore.wroteFirst_eq, h.wroteFirst_eq]
    cases records <;> simp

theorem of_encode {record : Bytes} (h : enc.encode (.ok record) = (.ok (), last)) :
    enc.Receives [record] last := by
  unfold ArrayEncoder.encode at h
  rcases hw : enc.sink.writeAll (chunkOf enc.wroteFirst record) with ⟨e | u, s'⟩
  · simp [hw] at h
  · simp only [hw, Prod.mk.injEq, true_and] at h
    subst h
    exact ⟨by simp [Sink.content_of_writeAll hw, chunks], by simp⟩

end Receives

/-- The encoder has written exactly these records, behind the opening of their array. -/
structure Holds (enc : ArrayEncoder) (records : List Bytes) : Prop where
  content_eq : enc.sink.content = opening ++ body records
  wroteFirst_eq : enc.wroteFirst = !records.isEmpty

theorem Receives.holds {enc last : ArrayEncoder} {records more : List Bytes}
    (h : enc.Receives more last) (henc : enc.Holds records) : last.Holds (records ++ more) := by
  refine ⟨?_, ?_⟩
  · rw [h.content_eq, henc.content_eq, henc.wroteFirst_eq, List.append_assoc, body_eq_chunks,
      body_eq_chunks, chunks_append, Bool.false_or]
  · rw [h.wroteFirst_eq, henc.wroteFirst_eq]
    cases records <;> simp

theorem holds_start {s : Sink} {enc : ArrayEncoder} (hs : s.content = [])
    (h : start s = (.ok (), enc)) : enc.Holds [] := by
  unfold start at h
  rcases hw : s.writeAll opening with ⟨e | u, s'⟩
  · rw [hw] at h
    cases h
  · obtain ⟨-, rfl⟩ := Prod.mk.inj (hw ▸ h)
    exact ⟨by simp [Sink.content_of_writeAll hw, hs, body], rfl⟩

theorem Holds.encode {enc enc' : ArrayEncoder} {records : List Bytes} (henc : enc.Holds records)
    {record : Bytes} (h : enc.encode (.ok record) = (.ok (), enc')) :
    enc'.Holds (records ++ [record]) :=
  (Receives.of_encode h).holds henc

section Written

variable {enc : ArrayEncoder}

theorem start_of_writeAll {s s' : Sink} (h : s.writeAll opening = (.ok (), s')) :
    start s = (.ok (), ⟨s', false⟩) := by
  simp only [start, h]
  rfl

theorem encode_of_writeAll {record : Bytes} {s : Sink}
    (h : enc.sink.writeAll (chunkOf enc.wroteFirst record) = (.ok (), s)) :
    enc.encode (.ok record) = (.ok (), ⟨s, true⟩) := by
  simp only [ArrayEncoder.encode, h]

theorem close_of_writeAll {s : Sink} (h : enc.sink.writeAll closing = (.ok (), s)) :
    enc.close = (s.flush.1.mapError .write, s.flush.2) := by
  simp only [ArrayEncoder.close, h]

/-- Once its closing brackets are written, an array is the text of its records. -/
theorem Holds.content_close {records : List Bytes} (henc : enc.Holds records)
    (h : (enc.sink.writeAll closing).1 = .ok ()) : enc.close.2.content = document records := by
  have hw : enc.sink.writeAll closing = (.ok (), (enc.sink.writeAll closing).2) := Prod.ext h rfl
  rw [close_of_writeAll hw]
  calc (enc.sink.writeAll closing).2.content
      = enc.sink.content ++ closing := Sink.content_of_writeAll hw
    _ = document records := by rw [henc.content_eq, document]

theorem Holds.close {records : List Bytes} (henc : enc.Holds records) {s : Sink}
    (h : enc.close = (.ok (), s)) : s.content = document records := by
  have hwrite : (enc.sink.writeAll closing).1 = .ok () := by
    unfold ArrayEncoder.close at h
    rcases hw : enc.sink.writeAll closing with ⟨e | u, s'⟩
    · simp [hw] at h
    · rfl
  have hcontent := henc.content_close hwrite
  rwa [h] at hcontent

end Written

section Willing

variable {enc : ArrayEncoder}

theorem start_of_willing {s : Sink} (h : s.Willing) :
    (start s).1 = .ok () ∧ (start s).2.sink.Willing := by
  obtain ⟨s', hw, hwilling, -⟩ := h.writeAll opening
  rw [start_of_writeAll hw]
  exact ⟨rfl, hwilling⟩

theorem encode_of_willing (h : enc.sink.Willing) (record : Bytes) :
    (enc.encode (.ok record)).1 = .ok () ∧ (enc.encode (.ok record)).2.sink.Willing := by
  obtain ⟨s', hw, hwilling, -⟩ := h.writeAll (chunkOf enc.wroteFirst record)
  rw [encode_of_writeAll hw]
  exact ⟨rfl, hwilling⟩

theorem close_of_willing (h : enc.sink.Willing) : enc.close.1 = .ok () := by
  obtain ⟨s', hw, hwilling, -⟩ := h.writeAll closing
  simp only [close_of_writeAll hw, Sink.flush, hwilling.flushFails_eq, Bool.false_eq_true,
    if_false]
  rfl

end Willing

end ArrayEncoder
end HourlyUsage
