import HourlyUsage.Proofs.ArrayDocument
import HourlyUsage.Proofs.ExportLoop
import HourlyUsage.Proofs.WindowPositions

/-!
# The steps of an export

An export lists each window, reads each key that is listed, and encodes each
event that is read.  Written as one list of such steps, it performs them in
order up to the first that fails.  What it has written by then are the events of
the steps before, and an array that can be ended behind them.
-/

namespace HourlyUsage

open Json Text

/-! ## Steps -/

inductive Step where
  | list (q : Query)
  | read (key : String)
  | encode (event : Event)

namespace Step

/-- The event that is encoded, if the step encodes one. -/
def event? : Step → Option Event
  | .encode event => some event
  | _ => none

def run (store : ObjectStore) (step : Step) (enc : ArrayEncoder) :
    Except UsageError Unit × ArrayEncoder :=
  match step with
  | .list q => ((store.list q).map fun _ ↦ (), enc)
  | .read key => ((store.read key).map fun _ ↦ (), enc)
  | .encode event => enc.encode (.ok event.json)

end Step

/-- The events that some steps encode. -/
def encoded (steps : List Step) : List Event := steps.filterMap Step.event?

theorem encoded_append (steps more : List Step) :
    encoded (steps ++ more) = encoded steps ++ encoded more := List.filterMap_append

/-- Performs steps in order.  The first that fails ends it. -/
def runSteps (store : ObjectStore) :
    List Step → ArrayEncoder → Except UsageError Unit × ArrayEncoder
  | [], enc => (.ok (), enc)
  | step :: steps, enc =>
    match step.run store enc with
    | (.error e, enc) => (.error e, enc)
    | (.ok (), enc) => runSteps store steps enc

section Runs

variable {store : ObjectStore} {step : Step} {steps : List Step} {enc mid last : ArrayEncoder}
  {e : UsageError}

theorem runSteps_cons_ok (h : step.run store enc = (.ok (), mid)) :
    runSteps store (step :: steps) enc = runSteps store steps mid := by
  simp only [runSteps, h]

theorem runSteps_cons_error (h : step.run store enc = (.error e, last)) :
    runSteps store (step :: steps) enc = (.error e, last) := by
  simp only [runSteps, h]

theorem runSteps_append_ok {more : List Step} (h : runSteps store steps enc = (.ok (), mid)) :
    runSteps store (steps ++ more) enc = runSteps store more mid := by
  induction steps generalizing enc with
  | nil =>
      obtain ⟨-, rfl⟩ := Prod.mk.inj h
      rfl
  | cons step steps ih =>
      rcases hstep : step.run store enc with ⟨e | u, enc'⟩
      · rw [runSteps_cons_error hstep] at h
        cases h
      · rw [runSteps_cons_ok hstep] at h
        rw [List.cons_append, runSteps_cons_ok hstep, ih h]

theorem runSteps_append_error {more : List Step} (h : runSteps store steps enc = (.error e, last)) :
    runSteps store (steps ++ more) enc = (.error e, last) := by
  induction steps generalizing enc with
  | nil => cases h
  | cons step steps ih =>
      rcases hstep : step.run store enc with ⟨e' | u, enc'⟩
      · rw [runSteps_cons_error hstep] at h
        rw [List.cons_append, runSteps_cons_error hstep, h]
      · rw [runSteps_cons_ok hstep] at h
        rw [List.cons_append, runSteps_cons_ok hstep, ih h]

/-- Either all steps succeed, or there is a first one that fails. -/
theorem runSteps_cases (store : ObjectStore) (steps : List Step) (enc : ArrayEncoder) :
    (∃ last, runSteps store steps enc = (.ok (), last)) ∨
      ∃ done failed rest mid e last, steps = done ++ failed :: rest ∧
        runSteps store done enc = (.ok (), mid) ∧ failed.run store mid = (.error e, last) ∧
        runSteps store steps enc = (.error e, last) := by
  induction steps generalizing enc with
  | nil => exact .inl ⟨enc, rfl⟩
  | cons step steps ih =>
      rcases hstep : step.run store enc with ⟨e | u, enc'⟩
      · exact .inr ⟨[], step, steps, enc, e, enc', rfl, rfl, hstep, runSteps_cons_error hstep⟩
      · rw [runSteps_cons_ok hstep]
        rcases ih enc' with hall | ⟨done, failed, rest, mid, e, last, rfl, hdone, hfailed, hlast⟩
        · exact .inl hall
        · refine .inr ⟨step :: done, failed, rest, mid, e, last, rfl, ?_, hfailed, hlast⟩
          rw [runSteps_cons_ok hstep, hdone]

end Runs

/-! ## What the encoder receives -/

namespace ArrayEncoder

/-- A record whose writing fails leaves a part of its text, and counts as not written. -/
theorem encode_error {enc last : ArrayEncoder} {record : Bytes} {e : UsageError}
    (h : enc.encode (.ok record) = (.error e, last)) :
    last.wroteFirst = enc.wroteFirst ∧
      ∃ n < (chunkOf enc.wroteFirst record).length,
        last.sink.content = enc.sink.content ++ (chunkOf enc.wroteFirst record).take n := by
  obtain ⟨n, hcontent, hok⟩ := enc.sink.writeAll_spec (chunkOf enc.wroteFirst record)
  unfold ArrayEncoder.encode at h
  rcases hw : enc.sink.writeAll (chunkOf enc.wroteFirst record) with ⟨e' | u, s'⟩
  · rw [hw] at hcontent hok
    simp only [hw, Prod.mk.injEq] at h
    obtain ⟨-, rfl⟩ := h
    refine ⟨rfl, n, ?_, hcontent⟩
    by_contra hn
    cases hok.2 (not_lt.1 hn)
  · simp [hw] at h

end ArrayEncoder

theorem receives_of_runSteps {store : ObjectStore} {steps : List Step} {enc last : ArrayEncoder}
    (h : runSteps store steps enc = (.ok (), last)) :
    enc.Receives ((encoded steps).map Event.json) last := by
  induction steps generalizing enc with
  | nil =>
      obtain ⟨-, rfl⟩ := Prod.mk.inj h
      exact .nil enc
  | cons step steps ih =>
      rcases hstep : step.run store enc with ⟨e | u, mid⟩
      · rw [runSteps_cons_error hstep] at h
        cases h
      · rw [runSteps_cons_ok hstep] at h
        have hfirst : enc.Receives ((encoded [step]).map Event.json) mid := by
          cases step with
          | encode event => exact .of_encode hstep
          | list q =>
              obtain ⟨-, rfl⟩ := Prod.mk.inj hstep
              exact .nil enc
          | read key =>
              obtain ⟨-, rfl⟩ := Prod.mk.inj hstep
              exact .nil enc
        have hsteps : encoded (step :: steps) = encoded [step] ++ encoded steps :=
          encoded_append [step] steps
        rw [hsteps, List.map_append]
        exact hfirst.append (ih h)

namespace Step

/-- What a step that fails leaves of the encoder.  A record whose writing fails leaves a part of
its text and counts as not written, and nothing else changes the encoder. -/
def Leaves (mid last : ArrayEncoder) : Step → Prop
  | .encode event =>
    last.wroteFirst = mid.wroteFirst ∧
      ∃ n < (ArrayEncoder.chunkOf mid.wroteFirst event.json).length,
        last.sink.content =
          mid.sink.content ++ (ArrayEncoder.chunkOf mid.wroteFirst event.json).take n
  | _ => last = mid

theorem leaves_of_run {store : ObjectStore} {step : Step} {mid last : ArrayEncoder}
    {e : UsageError} (h : step.run store mid = (.error e, last)) : step.Leaves mid last := by
  cases step with
  | encode event => exact ArrayEncoder.encode_error h
  | list q => exact (Prod.mk.inj h).2.symm
  | read key => exact (Prod.mk.inj h).2.symm

theorem Leaves.eq {step : Step} {mid last : ArrayEncoder} (h : step.Leaves mid last)
    (hstep : step.event? = none) : last = mid := by
  cases step with
  | encode event => cases hstep
  | list q => exact h
  | read key => exact h

end Step

/-! ## The loops as steps -/

namespace ObjectStore

variable (store : ObjectStore)

/-- The keys that a window lists, none where its listing fails. -/
def keysIn (w : Window) : List String := (store.list w.query).toOption.getD []

/-- The events that a key holds, none where it cannot be read. -/
def eventsAt (key : String) : List Event := (store.read key).toOption.getD []

def keySteps (keys : List String) : List Step :=
  keys.flatMap fun key ↦ .read key :: (store.eventsAt key).map .encode

/-- The steps of an export of windows. -/
def steps (ws : List Window) : List Step :=
  ws.flatMap fun w ↦ .list w.query :: store.keySteps (store.keysIn w)

end ObjectStore

/-- What steps come to, with something to return when all succeed. -/
def returning {α : Type} (r : Except UsageError Unit × ArrayEncoder) (a : α) :
    Except UsageError α × ArrayEncoder := (r.1.map fun _ ↦ a, r.2)

section Loops

variable (store : ObjectStore)

theorem exportEvents_eq_runSteps (events : List Event) (enc : ArrayEncoder) :
    exportEvents events enc =
      returning (runSteps store (events.map .encode) enc) events.length := by
  induction events generalizing enc with
  | nil => rfl
  | cons event events ih =>
      rw [exportEvents, List.map_cons]
      rcases hencode : enc.encode (.ok event.json) with ⟨e | u, mid⟩
      · have hstep : (Step.encode event).run store enc = (.error e, mid) := hencode
        rw [runSteps_cons_error hstep]
        rfl
      · have hstep : (Step.encode event).run store enc = (.ok (), mid) := hencode
        rw [runSteps_cons_ok hstep]
        simp only [ih, returning]
        rcases runSteps store (events.map .encode) mid with ⟨e | u, last⟩ <;> rfl

theorem exportObjects_eq_runSteps (keys : List String) (enc : ArrayEncoder) :
    exportObjects store keys enc =
      returning (runSteps store (store.keySteps keys) enc)
        (keys.flatMap store.eventsAt).length := by
  induction keys generalizing enc with
  | nil => rfl
  | cons key keys ih =>
      have hsteps : store.keySteps (key :: keys) =
          .read key :: ((store.eventsAt key).map .encode ++ store.keySteps keys) := rfl
      rw [exportObjects, hsteps]
      cases hread : store.read key with
      | error e =>
          have hstep : (Step.read key).run store enc = (.error e, enc) := by
            simp [Step.run, hread, Except.map]
          rw [runSteps_cons_error hstep]
          rfl
      | ok events =>
          have hstep : (Step.read key).run store enc = (.ok (), enc) := by
            simp [Step.run, hread, Except.map]
          have hevents : store.eventsAt key = events := by
            simp [ObjectStore.eventsAt, hread, Except.toOption]
          rw [runSteps_cons_ok hstep, List.flatMap_cons, List.length_append, hevents]
          simp only [exportEvents_eq_runSteps store]
          rcases hrun : runSteps store (events.map .encode) enc with ⟨e | u, mid⟩
          · rw [runSteps_append_error hrun]
            rfl
          · rw [runSteps_append_ok hrun]
            simp only [returning, Except.map, ih]
            rcases runSteps store (store.keySteps keys) mid with ⟨e | u, last⟩ <;> rfl

/-- What an export of these windows returns when all its steps succeed, added to a summary. -/
def ObjectStore.summaryFrom (before : Summary) (ws : List Window) : Summary :=
  ⟨before.windows + ws.length, before.objects + (ws.flatMap store.keysIn).length,
    before.events + ((ws.flatMap store.keysIn).flatMap store.eventsAt).length⟩

theorem exportWindows_eq_runSteps (fuel : Nat) (s : Schedule) (before : Summary)
    (enc : ArrayEncoder) :
    exportWindows store fuel s before enc =
      returning (runSteps store (store.steps (s.take fuel).1) enc)
        (store.summaryFrom before (s.take fuel).1) := by
  induction fuel generalizing s before enc with
  | zero => rfl
  | succ fuel ih =>
      cases hnext : s.next? with
      | none =>
          simp only [exportWindows, Schedule.take, hnext]
          rfl
      | some found =>
          obtain ⟨w, s'⟩ := found
          have hsteps : store.steps (w :: (s'.take fuel).1) =
              .list w.query :: (store.keySteps (store.keysIn w) ++ store.steps (s'.take fuel).1) :=
            rfl
          simp only [exportWindows, Schedule.take, hnext, hsteps]
          cases hlist : store.list w.query with
          | error e =>
              have hstep : (Step.list w.query).run store enc = (.error e, enc) := by
                simp [Step.run, hlist, Except.map]
              rw [runSteps_cons_error hstep]
              rfl
          | ok keys =>
              have hstep : (Step.list w.query).run store enc = (.ok (), enc) := by
                simp [Step.run, hlist, Except.map]
              have hkeys : store.keysIn w = keys := by
                simp [ObjectStore.keysIn, hlist, Except.toOption]
              rw [runSteps_cons_ok hstep, hkeys]
              simp only [exportObjects_eq_runSteps]
              rcases hrun : runSteps store (store.keySteps keys) enc with ⟨e | u, mid⟩
              · rw [runSteps_append_error hrun]
                rfl
              · rw [runSteps_append_ok hrun]
                simp only [returning, Except.map, ih]
                rcases runSteps store (store.steps (s'.take fuel).1) mid with ⟨e | u, last⟩
                · rfl
                · simp only [ObjectStore.summaryFrom, List.flatMap_cons, List.flatMap_append,
                    List.length_append, List.length_cons, hkeys]
                  congr 3 <;> omega

theorem exportUsage_eq_runSteps (s : Schedule) (enc : ArrayEncoder) :
    exportUsage store s enc =
      returning (runSteps store (store.steps s.windows) enc) (store.summaryFrom {} s.windows) :=
  exportWindows_eq_runSteps store _ s {} enc

theorem encoded_steps (ws : List Window) :
    encoded (store.steps ws) =
      (ws.flatMap store.keysIn).flatMap store.eventsAt := by
  have hevents : ∀ events : List Event, encoded (events.map .encode) = events := by
    intro events
    rw [encoded, List.filterMap_map]
    exact List.filterMap_some
  have hkeys : ∀ keys, encoded (store.keySteps keys) = keys.flatMap store.eventsAt := by
    intro keys
    induction keys with
    | nil => rfl
    | cons key keys ih =>
        have hsteps : encoded (store.keySteps (key :: keys)) =
            encoded ((store.eventsAt key).map .encode ++ store.keySteps keys) := rfl
        rw [hsteps, encoded_append, hevents, ih, List.flatMap_cons]
  induction ws with
  | nil => rfl
  | cons w ws ih =>
      have hsteps : encoded (store.steps (w :: ws)) =
          encoded (store.keySteps (store.keysIn w) ++ store.steps ws) := rfl
      rw [hsteps, encoded_append, hkeys, ih, List.flatMap_cons, List.flatMap_append]

/-- The steps of the windows that are left in a schedule either all succeed, and then the export
counts them and has written all their events; or there is a first that fails, and then the export
returns its error, has written the events of the steps before it, and of its own event at most a
part.  After a window that cannot be listed or a key that cannot be read, the closing brackets
complete the array of the records that were there before and of these events. -/
theorem exportUsage_up_to_first_failure {account : String} {start stop : Instant} {step : Duration}
    {s : Schedule} (h : Schedule.ofRange account start stop step = .ok s) (k : Nat)
    (enc : ArrayEncoder) :
    let ws := s.windows.drop k
    let keys := ws.flatMap store.keysIn
    let events := keys.flatMap store.eventsAt
    (∃ last, runSteps store (store.steps ws) enc = (.ok (), last) ∧
        exportUsage store (s.drop k) enc = (.ok ⟨ws.length, keys.length, events.length⟩, last) ∧
        enc.Receives (events.map Event.json) last) ∨
      ∃ done failed rest mid e last, store.steps ws = done ++ failed :: rest ∧
        runSteps store done enc = (.ok (), mid) ∧ failed.run store mid = (.error e, last) ∧
        exportUsage store (s.drop k) enc = (.error e, last) ∧
        enc.Receives ((encoded done).map Event.json) mid ∧ failed.Leaves mid last ∧
        (failed.event? = none → (last.sink.writeAll ArrayEncoder.closing).1 = .ok () →
          ∀ records, enc.Holds records →
            last.close.2.content =
              ArrayEncoder.document (records ++ (encoded done).map Event.json) ∧
            ∀ vs more, List.Forall₂ (ArrayEncoder.IsTextOf 126) records vs →
              List.Forall₂ (fun event v ↦ Value.parse event.json = .ok v) (encoded done) more →
              Value.parse last.close.2.content = .ok (.array (vs ++ more))) := by
  intro ws keys events
  have hws : (s.drop k).windows = ws := (Schedule.valid_of_ofRange h).windows_drop k
  have hexport := exportUsage_eq_runSteps store (s.drop k) enc
  rw [hws] at hexport
  rcases runSteps_cases store (store.steps ws) enc with
    ⟨last, hlast⟩ | ⟨done, failed, rest, mid, e, last, hsteps, hdone, hfailed, hlast⟩
  · have hreceives := receives_of_runSteps hlast
    rw [encoded_steps] at hreceives
    refine .inl ⟨last, hlast, ?_, hreceives⟩
    rw [hexport, hlast]
    simp [returning, ObjectStore.summaryFrom, Except.map, ws, keys, events]
  · have hreceives := receives_of_runSteps hdone
    have hleaves := Step.leaves_of_run hfailed
    refine .inr ⟨done, failed, rest, mid, e, last, hsteps, hdone, hfailed, ?_, hreceives, hleaves,
      fun hquiet hwrite records henc ↦ ?_⟩
    · rw [hexport, hlast]
      rfl
    · obtain rfl := hleaves.eq hquiet
      have hcontent := (hreceives.holds henc).content_close hwrite
      refine ⟨hcontent, fun vs more hvs hmore ↦ ?_⟩
      rw [hcontent]
      apply ArrayEncoder.parse_document
      apply List.rel_append hvs
      exact ArrayEncoder.isTextOf_events hmore

/-- The second of two hours, in a store with one key that can be read and one that cannot, behind a
record that the encoder holds already. -/
theorem exportUsage_up_to_missing_key :
    let start : Instant := ⟨0, 0, by decide, by decide, by decide⟩
    let stop : Instant := ⟨7200, 0, by decide, by decide, by decide⟩
    let hour : Duration := ⟨3600, 0, by decide, by decide, by decide⟩
    let event : Event := ⟨"kube_managedresource_uid", ⟨"g", "v1", "k", "a", "c"⟩, start, stop, ⟨0⟩⟩
    let store : ObjectStore :=
      ⟨fun _ ↦ .ok ["a", "b"], fun key ↦ if key = "a" then .ok [event] else .error (.io .notFound)⟩
    let s : Schedule := ⟨"a", some start, stop, hour⟩
    let enc : ArrayEncoder := ⟨{ content := utf8 "[\nnull" }, true⟩
    Schedule.ofRange "a" start stop hour = .ok s ∧
      ∃ (done : List Step) (failed : Step) (mid last : ArrayEncoder),
        exportUsage store (s.drop 1) enc = (.error (.io .notFound), last) ∧
        enc.Receives ((encoded done).map Event.json) mid ∧ failed.Leaves mid last ∧
        last.close.2.content = ArrayEncoder.document [utf8 "null", event.json] := by
  intro start stop hour event store s enc
  have hs : Schedule.ofRange "a" start stop hour = .ok s := by decide +kernel
  have herror : (exportUsage store (s.drop 1) enc).1 = .error (.io .notFound) := by decide +kernel
  have hclose : (exportUsage store (s.drop 1) enc).2.close.2.content =
      ArrayEncoder.document [utf8 "null", event.json] := by decide +kernel
  refine ⟨hs, ?_⟩
  rcases exportUsage_up_to_first_failure store hs 1 enc with
    ⟨last, -, hexport, -⟩ | ⟨done, failed, rest, mid, e, last, -, -, -, hexport, hmid, hlast, -⟩
  · rw [hexport] at herror
    cases herror
  · rw [hexport] at herror hclose
    obtain rfl := Except.error.inj herror
    exact ⟨done, failed, mid, last, hexport, hmid, hlast, hclose⟩

end Loops

end HourlyUsage
