import HourlyUsage.Proofs.ArrayDocument
import HourlyUsage.Proofs.ExportLoop

/-!
# The array of an export

An export that succeeds has written the array of the events that its store
holds, in the order of its windows, of the keys of each window and of the events
of each key.  Each event has a line of its own, and the array reads back as the
values of its events.
-/

namespace HourlyUsage

open Json Text

namespace ObjectStore

/-- The events of keys, as far as all of them can be read. -/
def eventsOf (store : ObjectStore) (keys : List String) : Except UsageError (List Event) :=
  (keys.mapM store.read).map List.flatten

/-- The events of windows, as far as all of them can be listed and read. -/
def eventsIn (store : ObjectStore) (ws : List Window) : Except UsageError (List Event) :=
  (ws.mapM fun w ↦ store.list w.query).bind fun lists ↦ store.eventsOf lists.flatten

theorem eventsOf_cons_eq_ok {store : ObjectStore} {key : String} {keys : List String}
    {events : List Event} :
    store.eventsOf (key :: keys) = .ok events ↔
      ∃ first more, store.read key = .ok first ∧ store.eventsOf keys = .ok more ∧
        first ++ more = events := by
  unfold eventsOf
  rw [List.mapM_cons]
  cases store.read key with
  | error e =>
      constructor
      · intro h
        cases h
      · rintro ⟨first, more, h, -⟩
        cases h
  | ok first =>
      cases keys.mapM store.read with
      | error e =>
          constructor
          · intro h
            cases h
          · rintro ⟨first, more, -, h, -⟩
            cases h
      | ok lists =>
          constructor
          · intro h
            exact ⟨first, lists.flatten, rfl, rfl, Except.ok.inj h⟩
          · rintro ⟨first', more, hfirst, hmore, rfl⟩
            obtain rfl := Except.ok.inj hfirst
            obtain rfl := Except.ok.inj hmore
            rfl

end ObjectStore

section Content

variable {store : ObjectStore} {enc enc' : ArrayEncoder} {records : List Bytes}

theorem holds_exportEvents {events : List Event} {n : Nat} (henc : enc.Holds records)
    (h : exportEvents events enc = (.ok n, enc')) :
    enc'.Holds (records ++ events.map Event.json) := by
  induction events generalizing enc records n with
  | nil =>
      obtain ⟨-, rfl⟩ := Prod.mk.inj h
      simpa using henc
  | cons event events ih =>
      rw [exportEvents] at h
      rcases henc' : enc.encode (.ok event.json) with ⟨e | u, enc''⟩
      · simp [henc'] at h
      · simp only [henc'] at h
        rcases hrest : exportEvents events enc'' with ⟨e | m, final⟩
        · simp [hrest, Except.map] at h
        · simp only [hrest, Prod.mk.injEq] at h
          obtain ⟨-, rfl⟩ := h
          simpa using ih (henc.encode henc') hrest

theorem holds_exportObjects {keys : List String} {n : Nat} (henc : enc.Holds records)
    (h : exportObjects store keys enc = (.ok n, enc')) :
    ∃ events, store.eventsOf keys = .ok events ∧
      enc'.Holds (records ++ events.map Event.json) := by
  induction keys generalizing enc records n with
  | nil =>
      obtain ⟨-, rfl⟩ := Prod.mk.inj h
      exact ⟨[], rfl, by simpa using henc⟩
  | cons key keys ih =>
      rw [exportObjects] at h
      cases hread : store.read key with
      | error e => simp [hread] at h
      | ok events =>
          simp only [hread] at h
          rcases hfirst : exportEvents events enc with ⟨e | n, enc''⟩
          · simp [hfirst] at h
          · simp only [hfirst] at h
            rcases hrest : exportObjects store keys enc'' with ⟨e | m, final⟩
            · simp [hrest, Except.map] at h
            · simp only [hrest, Prod.mk.injEq] at h
              obtain ⟨-, rfl⟩ := h
              obtain ⟨more, hmore, hfinal⟩ := ih (holds_exportEvents henc hfirst) hrest
              refine ⟨events ++ more, ?_, by simpa using hfinal⟩
              exact ObjectStore.eventsOf_cons_eq_ok.2 ⟨events, more, hread, hmore, rfl⟩

theorem holds_exportUsage {s : Schedule} {sum : Summary} (henc : enc.Holds records)
    (h : exportUsage store s enc = (.ok sum, enc')) :
    ∃ events, store.eventsIn s.windows = .ok events ∧
      enc'.Holds (records ++ events.map Event.json) := by
  obtain ⟨lists, hlists⟩ := exists_lists_of_exportWindows store h
  have hwindows : (s.windows.mapM fun w ↦ store.list w.query) = .ok lists := hlists
  rw [exportUsage_of_lists store hwindows] at h
  rcases hobj : exportObjects store lists.flatten enc with ⟨e | n, final⟩
  · simp [hobj, Except.map] at h
  · simp only [hobj, Prod.mk.injEq] at h
    obtain ⟨-, rfl⟩ := h
    obtain ⟨events, hevents, hfinal⟩ := holds_exportObjects henc hobj
    refine ⟨events, ?_, hfinal⟩
    rw [ObjectStore.eventsIn, hwindows]
    exact hevents

/-- An export that succeeds has begun its array, gone through all its windows and closed it. -/
theorem exportArray_eq_ok {s : Schedule} {sum : Summary} {sink sink' : Sink}
    (h : exportArray store s sink = (.ok sum, sink')) :
    ∃ enc last, ArrayEncoder.start sink = (.ok (), enc) ∧
      exportUsage store s enc = (.ok sum, last) ∧ last.close = (.ok (), sink') := by
  unfold exportArray at h
  rcases hstart : ArrayEncoder.start sink with ⟨e | u, enc⟩
  · simp [hstart] at h
  · simp only [hstart] at h
    rcases husage : exportUsage store s enc with ⟨e | summary, last⟩
    · simp [husage] at h
    · simp only [husage] at h
      rcases hclose : last.close with ⟨e | u, final⟩
      · simp [hclose, Except.map] at h
      · simp only [hclose, Prod.mk.injEq] at h
        obtain ⟨hsum, rfl⟩ := h
        obtain rfl : summary = sum := Except.ok.inj hsum
        exact ⟨enc, last, rfl, husage, hclose⟩

/-- An export that succeeds leaves the array of the events of its windows on an empty sink. -/
theorem content_of_exportArray {s : Schedule} {sum : Summary} {sink sink' : Sink}
    (hsink : sink.content = []) (h : exportArray store s sink = (.ok sum, sink')) :
    ∃ events, store.eventsIn s.windows = .ok events ∧
      sink'.content = ArrayEncoder.document (events.map Event.json) := by
  obtain ⟨enc, last, hstart, husage, hclose⟩ := exportArray_eq_ok h
  obtain ⟨events, hevents, hholds⟩ :=
    holds_exportUsage (ArrayEncoder.holds_start hsink hstart) husage
  exact ⟨events, hevents, by simpa using hholds.close hclose⟩

/-- The array of an export has one event on each line, and reads as the array of what its events
read as. -/
theorem text_of_exportArray {s : Schedule} {sum : Summary} {sink sink' : Sink}
    (hsink : sink.content = []) (h : exportArray store s sink = (.ok sum, sink')) :
    ∃ events, store.eventsIn s.windows = .ok events ∧
      sink'.content.splitOn Ascii.newline =
        [Ascii.openBracket] :: ArrayEncoder.recordLines (events.map Event.json) ++
          [[Ascii.closeBracket], []] ∧
      ∀ vs, List.Forall₂ (fun event v ↦ Value.parse event.json = .ok v) events vs →
        Value.parse sink'.content = .ok (.array vs) := by
  obtain ⟨events, hevents, hcontent⟩ := content_of_exportArray hsink h
  rw [hcontent]
  refine ⟨events, hevents, ArrayEncoder.splitOn_document ?_, fun vs hvs ↦ ?_⟩
  · intro record hrecord
    obtain ⟨event, -, rfl⟩ := List.mem_map.1 hrecord
    exact (compactText_eventJson event).newline_notMem
  · exact ArrayEncoder.parse_document (ArrayEncoder.isTextOf_events hvs)

end Content

/-! ## Willing sinks -/

section Willing

variable {store : ObjectStore} {enc : ArrayEncoder}

theorem exportEvents_of_willing (events : List Event) (h : enc.sink.Willing) :
    (∃ n, (exportEvents events enc).1 = .ok n) ∧ (exportEvents events enc).2.sink.Willing := by
  induction events generalizing enc with
  | nil => exact ⟨⟨0, rfl⟩, h⟩
  | cons event events ih =>
      obtain ⟨hok, hwilling⟩ := ArrayEncoder.encode_of_willing h event.json
      rw [exportEvents]
      rcases henc : enc.encode (.ok event.json) with ⟨e | u, enc'⟩
      · rw [henc] at hok
        cases hok
      · rw [henc] at hwilling
        obtain ⟨⟨n, hn⟩, hrest⟩ := ih hwilling
        exact ⟨⟨n + 1, by simp only [hn]; rfl⟩, hrest⟩

theorem exportObjects_of_willing {keys : List String} {events : List Event}
    (hevents : store.eventsOf keys = .ok events) (h : enc.sink.Willing) :
    (∃ n, (exportObjects store keys enc).1 = .ok n) ∧
      (exportObjects store keys enc).2.sink.Willing := by
  induction keys generalizing enc events with
  | nil => exact ⟨⟨0, rfl⟩, h⟩
  | cons key keys ih =>
      obtain ⟨first, more, hread, hmore, -⟩ := ObjectStore.eventsOf_cons_eq_ok.1 hevents
      obtain ⟨⟨n, hn⟩, hwilling⟩ := exportEvents_of_willing first h
      simp only [exportObjects, hread]
      rcases hfirst : exportEvents first enc with ⟨e | n', enc'⟩
      · rw [hfirst] at hn
        cases hn
      · rw [hfirst] at hwilling
        obtain ⟨⟨m, hm⟩, hrest⟩ := ih hmore hwilling
        exact ⟨⟨n' + m, by simp only [hm]; rfl⟩, hrest⟩

/-- On a willing sink an export succeeds if the events of its windows can be listed and read. -/
theorem exportArray_of_willing {s : Schedule} {events : List Event}
    (hevents : store.eventsIn s.windows = .ok events) {sink : Sink} (h : sink.Willing) :
    ∃ sum, (exportArray store s sink).1 = .ok sum := by
  obtain ⟨lists, hlists, hread⟩ :
      ∃ lists, (s.windows.mapM fun w ↦ store.list w.query) = .ok lists ∧
        store.eventsOf lists.flatten = .ok events := by
    unfold ObjectStore.eventsIn at hevents
    cases hlists : (s.windows.mapM fun w ↦ store.list w.query) with
    | error e =>
        rw [hlists] at hevents
        cases hevents
    | ok lists =>
        rw [hlists] at hevents
        exact ⟨lists, rfl, hevents⟩
  obtain ⟨hstart, hwilling⟩ := ArrayEncoder.start_of_willing h
  unfold exportArray
  rcases henc : ArrayEncoder.start sink with ⟨e | u, enc⟩
  · rw [henc] at hstart
    cases hstart
  · rw [henc] at hwilling
    obtain ⟨⟨n, hn⟩, hobj⟩ := exportObjects_of_willing hread hwilling
    rcases hresult : exportObjects store lists.flatten enc with ⟨e | n', enc'⟩
    · rw [hresult] at hn
      cases hn
    · rw [hresult] at hobj
      have hclose := ArrayEncoder.close_of_willing hobj
      simp only [exportUsage_of_lists store hlists, hresult, Except.map, hclose]
      exact ⟨_, rfl⟩

end Willing
end HourlyUsage
