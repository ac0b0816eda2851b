import HourlyUsage.Proofs.AtomicExport
import HourlyUsage.Proofs.OffsetText

/-!
# Agreement of the commands

A query, a plan and an export of one range refuse it for the same reason or accept
it together.  The windows of the plan then lead from the bounds of the query to each
other, also in years of any sign and length, and an export that succeeds asks the
store for the key ranges of these windows, in their order and for nothing else.
-/

namespace HourlyUsage

open Text

/-! ## Chains of windows -/

namespace IsChain

variable {account : String} {a b : Instant} {ws : List Window}

/-- Each window begins where the one in front of it ends, with the same offset. -/
theorem adjacent (h : IsChain account a ws b) :
    ws.IsChain fun v w ↦ w.start = v.stop ∧ w.query.startOffset = v.query.endOffset := by
  induction ws generalizing a with
  | nil => exact .nil
  | cons v ws ih =>
      obtain ⟨hv, -, -, hws⟩ := h
      cases ws with
      | nil => exact .singleton v
      | cons w ws =>
          obtain ⟨hw, -⟩ := id hws
          have hfirst := congrArg (fun w ↦ w.query.startOffset) hw
          have hsecond := congrArg (fun w ↦ w.query.endOffset) hv
          exact .cons_cons ⟨congrArg Window.start hw, hfirst.trans hsecond.symm⟩ (ih hws)

theorem head_eq (h : IsChain account a ws b) :
    ∀ w ∈ ws.head?, w.start = a ∧ w.query.startOffset = partitionOffset account a := by
  cases ws with
  | nil => simp
  | cons w ws =>
      rintro _ ⟨⟩
      obtain ⟨hw, -⟩ := h
      exact ⟨congrArg Window.start hw, congrArg (fun w ↦ w.query.startOffset) hw⟩

theorem getLast_eq (h : IsChain account a ws b) :
    ∀ w ∈ ws.getLast?, w.stop = b ∧ w.query.endOffset = partitionOffset account b := by
  induction ws generalizing a with
  | nil => simp
  | cons v ws ih =>
      obtain ⟨hv, -, -, hws⟩ := h
      cases ws with
      | nil =>
          rintro _ ⟨⟩
          obtain rfl : v.stop = b := hws
          exact ⟨rfl, congrArg (fun w ↦ w.query.endOffset) hv⟩
      | cons w ws =>
          rw [List.getLast?_cons_cons]
          exact ih hws

end IsChain

/-! ## The key ranges of an export -/

/-- The export of windows, with the key ranges that it asks the store for. -/
def exportWindowsListed (store : ObjectStore) : (fuel : Nat) → Schedule → Summary →
    ArrayEncoder → List Query × (Except UsageError Summary × ArrayEncoder)
  | 0, _, summary, enc => ([], (.ok summary, enc))
  | fuel + 1, s, summary, enc =>
    match s.next? with
    | none => ([], (.ok summary, enc))
    | some (w, s) =>
      match store.list w.query with
      | .error e => ([w.query], (.error e, enc))
      | .ok keys =>
        match exportObjects store keys enc with
        | (.error e, enc) => ([w.query], (.error e, enc))
        | (.ok n, enc) =>
          let rest := exportWindowsListed store fuel s
            ⟨summary.windows + 1, summary.objects + keys.length, summary.events + n⟩ enc
          (w.query :: rest.1, rest.2)

section Listed

variable (store : ObjectStore)

theorem exportWindowsListed_snd (fuel : Nat) (s : Schedule) (before : Summary)
    (enc : ArrayEncoder) :
    (exportWindowsListed store fuel s before enc).2 = exportWindows store fuel s before enc := by
  induction fuel generalizing s before enc with
  | zero => rfl
  | succ fuel ih =>
      simp only [exportWindowsListed, exportWindows]
      cases s.next? with
      | none => rfl
      | some found =>
          cases hlist : store.list found.1.query with
          | error e => simp only [hlist]
          | ok keys =>
              simp only [hlist]
              rcases exportObjects store keys enc with ⟨e | n, mid⟩
              · rfl
              · exact ih _ _ _

/-- An export lists the first windows of its schedule, and all of them if it succeeds. -/
theorem exportWindowsListed_fst (fuel : Nat) (s : Schedule) (before : Summary)
    (enc : ArrayEncoder) :
    (exportWindowsListed store fuel s before enc).1 <+: (s.take fuel).1.map Window.query ∧
      ∀ sum last, exportWindows store fuel s before enc = (.ok sum, last) →
        (exportWindowsListed store fuel s before enc).1 = (s.take fuel).1.map Window.query ∧
          sum.windows = before.windows + (s.take fuel).1.length := by
  induction fuel generalizing s before enc with
  | zero =>
      refine ⟨List.nil_prefix, ?_⟩
      rintro _ _ ⟨⟩
      exact ⟨rfl, rfl⟩
  | succ fuel ih =>
      simp only [exportWindowsListed, exportWindows, Schedule.take]
      cases s.next? with
      | none =>
          refine ⟨List.nil_prefix, ?_⟩
          rintro _ _ ⟨⟩
          exact ⟨rfl, rfl⟩
      | some found =>
          obtain ⟨w, s'⟩ := found
          have hfirst : [w.query] <+: (w :: (s'.take fuel).1).map Window.query :=
            List.prefix_append [w.query] _
          cases hlist : store.list w.query with
          | error e =>
              simp only [hlist]
              exact ⟨hfirst, fun _ _ hok ↦ by cases hok⟩
          | ok keys =>
              simp only [hlist]
              rcases exportObjects store keys enc with ⟨e | n, mid⟩
              · exact ⟨hfirst, fun _ _ hok ↦ by cases hok⟩
              · obtain ⟨hleads, hall⟩ := ih s'
                  ⟨before.windows + 1, before.objects + keys.length, before.events + n⟩ mid
                refine ⟨List.cons_prefix_cons.2 ⟨rfl, hleads⟩, fun sum last hok ↦ ?_⟩
                obtain ⟨hlisted, hcount⟩ := hall sum last hok
                refine ⟨congrArg (w.query :: ·) hlisted, ?_⟩
                rw [hcount, List.length_cons, Nat.add_right_comm, Nat.add_assoc]

/-- The export into an array of its own, with the key ranges that it asks the store for. -/
def exportArrayListed (s : Schedule) (sink : Sink) :
    List Query × (Except UsageError Summary × Sink) :=
  match ArrayEncoder.start sink with
  | (.error e, enc) => ([], (.error e, enc.sink))
  | (.ok (), enc) =>
    match exportWindowsListed store s.bound s {} enc with
    | (queries, (.error e, enc)) => (queries, (.error e, enc.abandon))
    | (queries, (.ok summary, enc)) =>
      let (r, sink) := enc.close
      (queries, (r.map fun _ ↦ summary, sink))

theorem exportArrayListed_snd (s : Schedule) (sink : Sink) :
    (exportArrayListed store s sink).2 = exportArray store s sink := by
  unfold exportArrayListed exportArray exportUsage
  rcases ArrayEncoder.start sink with ⟨e | ⟨⟩, enc⟩
  · rfl
  · dsimp only
    rw [← exportWindowsListed_snd store s.bound s {} enc]
    rcases exportWindowsListed store s.bound s {} enc with ⟨queries, e | sum, last⟩ <;> rfl

/-- An export that succeeds lists all windows of its schedule, in order. -/
theorem exportArrayListed_fst {s : Schedule} {sink last : Sink} {queries : List Query}
    {sum : Summary} (h : exportArrayListed store s sink = (queries, .ok sum, last)) :
    queries = s.windows.map Window.query ∧ sum.windows = s.windows.length := by
  have hexport := exportArrayListed_snd store s sink
  rw [h] at hexport
  obtain ⟨enc, done, hstart, husage, -⟩ := exportArray_eq_ok hexport.symm
  obtain ⟨-, hall⟩ := exportWindowsListed_fst store s.bound s {} enc
  obtain ⟨hlisted, hcount⟩ := hall sum done husage
  have hsnd := (exportWindowsListed_snd store s.bound s {} enc).trans husage
  unfold exportArrayListed at h
  rcases hrun : exportWindowsListed store s.bound s {} enc with ⟨listed, r⟩
  rw [hrun] at hlisted hsnd
  obtain rfl : r = (.ok sum, done) := hsnd
  simp only [hstart, hrun, Prod.mk.injEq] at h
  exact ⟨h.1.symm.trans hlisted, hcount.trans (Nat.zero_add _)⟩

end Listed

namespace ExportRequest

/-- The export of a schedule to a file, with the key ranges that it asks its store for. -/
def publishListed (tree : Node) (store output : String) (s : Schedule) (staging : Staging) :
    List Query × (Except CommandError Summary × Node) :=
  match FileStore.create tree store FileStore.defaultExtension with
  | .error e => ([], (.error (.usage e), tree))
  | .ok store =>
    match tree.stage staging (utf8 output) with
    | .error e => ([], (.error (.io e), tree))
    | .ok staged =>
      match exportArrayListed (store.view staged.tree) s staging.sink with
      | (queries, (.error e, _)) => (queries, (.error (.usage e), staged.discard))
      | (queries, (.ok summary, sink)) =>
        match staged.publish sink.content (utf8 output) with
        | .error e => (queries, (.error (.io e), staged.discard))
        | .ok tree => (queries, (.ok summary, tree))

/-- The run of an export, with the key ranges that it asks its store for. -/
def runListed (tree : Node) (r : ExportRequest) (staging : Staging) :
    List Query × (Except CommandError ExportReport × Node) :=
  match r.plan.schedule with
  | .error e => ([], (.error e, tree))
  | .ok s =>
    let (queries, result, tree) := publishListed tree r.store r.output s staging
    (queries, (result.map fun summary ↦ ⟨r.output, summary⟩, tree))

section Listed

variable (tree : Node) (staging : Staging)

theorem publishListed_snd (root output : String) (s : Schedule) :
    (publishListed tree root output s staging).2 = publish tree root output s staging := by
  unfold publishListed publish
  cases FileStore.create tree root FileStore.defaultExtension with
  | error e => rfl
  | ok store =>
      cases tree.stage staging (utf8 output) with
      | error e => rfl
      | ok staged =>
          dsimp only
          rw [← exportArrayListed_snd]
          rcases exportArrayListed (store.view staged.tree) s staging.sink with
            ⟨queries, e | sum, sink⟩
          · rfl
          · dsimp only
            cases staged.publish sink.content (utf8 output) <;> rfl

/-- Apart from the key ranges that it notes, the run is the one of the program. -/
theorem runListed_snd (r : ExportRequest) : (r.runListed tree staging).2 = r.run tree staging := by
  unfold runListed run
  cases r.plan.schedule with
  | error e => rfl
  | ok s =>
      dsimp only
      rw [← publishListed_snd]

end Listed

theorem publishListed_fst {tree after : Node} {root output : String} {s : Schedule}
    {staging : Staging} {queries : List Query} {sum : Summary}
    (h : publishListed tree root output s staging = (queries, .ok sum, after)) :
    queries = s.windows.map Window.query ∧ sum.windows = s.windows.length := by
  unfold publishListed at h
  cases hstore : FileStore.create tree root FileStore.defaultExtension with
  | error e => simp [hstore] at h
  | ok store =>
      cases hstaged : tree.stage staging (utf8 output) with
      | error e => simp [hstore, hstaged] at h
      | ok staged =>
          rcases hexport : exportArrayListed (store.view staged.tree) s staging.sink with
            ⟨listed, e | summary, sink⟩
          · simp [hstore, hstaged, hexport] at h
          · cases hpublish : staged.publish sink.content (utf8 output) with
            | error e => simp [hstore, hstaged, hexport, hpublish] at h
            | ok tree =>
                simp only [hstore, hstaged, hexport, hpublish, Prod.mk.injEq] at h
                obtain ⟨rfl, hsum, -⟩ := h
                obtain rfl := Except.ok.inj hsum
                exact exportArrayListed_fst _ hexport

theorem runListed_fst {tree after : Node} {r : ExportRequest} {staging : Staging} {s : Schedule}
    {report : ExportReport} (hs : r.plan.schedule = .ok s)
    (h : r.run tree staging = (.ok report, after)) :
    (r.runListed tree staging).1 = s.windows.map Window.query ∧
      report.summary.windows = s.windows.length := by
  rw [← runListed_snd] at h
  simp only [runListed, hs] at h ⊢
  rcases hpublish : publishListed tree r.store r.output s staging with ⟨listed, e | sum, final⟩
  · simp [hpublish, Except.map] at h
  · simp only [hpublish, Prod.mk.injEq] at h
    obtain rfl : ⟨r.output, sum⟩ = report := Except.ok.inj h.1
    exact publishListed_fst hpublish

theorem run_of_refused {r : ExportRequest} {e : CommandError} (h : r.plan.schedule = .error e)
    (tree : Node) (staging : Staging) : r.run tree staging = (.error e, tree) := by
  simp only [run, h]

end ExportRequest

/-! ## Queries and plans -/

/-- A query cuts its bounds down to hours for the report once, and for the offsets once more. -/
theorem Range.report_eq (r : Range) :
    r.report = (do
      r.checkAccount
      let query ← (Query.ofRange r.account r.start r.stop).mapError .usage
      return ⟨r.account, r.start.truncateToHour, r.stop.truncateToHour, query⟩) := by
  unfold Range.report Query.ofRange Window.ofRange
  cases r.checkAccount with
  | error e => rfl
  | ok u => by_cases h : r.stop < r.start <;> simp only [h, if_true, if_false] <;> rfl

namespace PlanRequest

variable {r : PlanRequest}

theorem schedule_of_blank {e : CommandError} (h : r.range.checkAccount = .error e) :
    r.schedule = .error e := by
  unfold schedule
  rw [h]
  rfl

theorem schedule_of_account (h : r.range.checkAccount = .ok ()) :
    r.schedule =
      (Schedule.ofRange r.range.account r.range.start r.range.stop r.window).mapError .usage := by
  unfold schedule
  rw [h]
  rfl

theorem report_of_refused {e : CommandError} (h : r.schedule = .error e) :
    r.report = .error e := by
  unfold report
  rw [h]
  rfl

theorem report_of_schedule {s : Schedule} (h : r.schedule = .ok s) :
    r.report = .ok ⟨r.range.account, s.step.wholeHours, s.windows⟩ := by
  unfold report
  rw [h]
  rfl

/-- A plan draws its rows with `advance` while there are more, and would fail with a row that is
refused. -/
theorem report_eq_loop (r : PlanRequest) :
    r.report = (do
      let s ← r.schedule
      let rows ← (if s.more then do
          let (w, rest) ← s.advance
          return w :: rest.windows
        else .ok []).mapError .usage
      return ⟨r.range.account, s.step.wholeHours, rows⟩) := by
  unfold report
  cases hs : r.schedule with
  | error e => rfl
  | ok s =>
      have hvalid := Schedule.valid_of_ofRange (schedule_eq_ok hs)
      let shown (rows : List Window) : Except CommandError PlanReport :=
        .ok ⟨r.range.account, s.step.wholeHours, rows⟩
      exact congrArg (fun rows ↦ (rows.mapError CommandError.usage).bind shown)
        hvalid.windows_eq_loop

end PlanRequest

/-- The checks of a range are made in one order, and the windows of a range that passes them lead
from the hour of its start to that of its end. -/
theorem PlanRequest.checks (r : PlanRequest) (hwindow : 3600 ≤ r.window.secs) :
    (∃ e, r.range.report = .error e ∧ r.schedule = .error e) ∨
      ∃ s, r.schedule = .ok s ∧
        r.range.report = .ok ⟨r.range.account, r.range.start.truncateToHour,
          r.range.stop.truncateToHour, (Window.between r.range.account
            r.range.start.truncateToHour r.range.stop.truncateToHour).query⟩ ∧
        IsChain r.range.account r.range.start.truncateToHour s.windows
          r.range.stop.truncateToHour := by
  cases haccount : r.range.checkAccount with
  | error e =>
      refine .inl ⟨e, ?_, schedule_of_blank haccount⟩
      rw [Range.report_eq, haccount]
      rfl
  | ok u =>
      have hschedule := schedule_of_account haccount
      rcases lt_or_ge r.range.stop r.range.start with hlt | hle
      · rw [Schedule.ofRange_of_lt _ hwindow hlt] at hschedule
        refine .inl ⟨.usage .invalidRange, ?_, hschedule⟩
        rw [Range.report_eq, haccount, Query.ofRange, Window.ofRange_of_lt _ hlt]
        rfl
      · have hrange := Schedule.ofRange_of_le r.range.account hwindow hle
        rw [hrange] at hschedule
        refine .inr ⟨_, hschedule, ?_, Schedule.isChain_of_ofRange hrange⟩
        rw [Range.report_eq, haccount, Query.ofRange_of_le _ hle]
        rfl

/-- A query and a plan over windows of at least an hour fail together, with one error, and then so
does every export of the plan.  Where they succeed, the windows of the plan lead from the start of
the query to its end, and there are none exactly if its offsets are equal.  An export with its key
ranges noted comes to the same outcome and the same tree.  If it succeeds, it has listed the ranges
of these windows in their order, and counts them. -/
theorem commands_agree (r : PlanRequest) (hwindow : 3600 ≤ r.window.secs) :
    (∃ e, r.range.report = .error e ∧ r.report = .error e ∧
      ∀ (x : ExportRequest) tree staging, x.plan = r → x.run tree staging = (.error e, tree)) ∨
    ∃ q p, r.range.report = .ok q ∧ r.report = .ok p ∧
      q.query = ⟨partitionOffset q.account q.start, partitionOffset q.account q.stop⟩ ∧
      (p.windows.IsChain fun v w ↦
        w.start = v.stop ∧ w.query.startOffset = v.query.endOffset) ∧
      (p.windows = [] ↔ q.query.startOffset = q.query.endOffset) ∧
      (∀ w ∈ p.windows.head?,
        w.start = q.start ∧ w.query.startOffset = q.query.startOffset) ∧
      (∀ w ∈ p.windows.getLast?, w.stop = q.stop ∧ w.query.endOffset = q.query.endOffset) ∧
      ∀ (x : ExportRequest) tree staging, x.plan = r →
        (x.runListed tree staging).2 = x.run tree staging ∧
          ∀ report after, x.run tree staging = (.ok report, after) →
            (x.runListed tree staging).1 = p.windows.map Window.query ∧
              report.summary.windows = p.windows.length := by
  rcases r.checks hwindow with ⟨e, hquery, hplan⟩ | ⟨s, hplan, hquery, hchain⟩
  · exact .inl ⟨e, hquery, PlanRequest.report_of_refused hplan, fun x tree staging hx ↦
      ExportRequest.run_of_refused (hx ▸ hplan) tree staging⟩
  · refine .inr ⟨_, _, hquery, PlanRequest.report_of_schedule hplan, rfl, hchain.adjacent, ?_,
      hchain.head_eq, hchain.getLast_eq, fun x tree staging hx ↦
      ⟨ExportRequest.runListed_snd tree staging x, fun report after hrun ↦
        ExportRequest.runListed_fst (hx ▸ hplan) hrun⟩⟩
    have hoffsets : partitionOffset r.range.account r.range.start.truncateToHour =
        partitionOffset r.range.account r.range.stop.truncateToHour ↔
          r.range.start.truncateToHour = r.range.stop.truncateToHour := by
      rw [partitionOffset_truncateToHour, partitionOffset_truncateToHour, partitionOffset_eq_iff]
    exact hchain.eq_nil_iff.trans hoffsets.symm

/-- From the leap second at the end of the year 9999 into the year after it, by windows of an hour
and a half, which count as one hour. -/
theorem commands_agree_into_year_10000 :
    let start : Instant := ⟨253402300799, 1999999999, by decide, by decide, by decide⟩
    let stop : Instant := ⟨253402304400, 5, by decide, by decide, by decide⟩
    let step : Duration := ⟨5400, 0, by decide, by decide, by decide⟩
    let r : PlanRequest := ⟨⟨"a", start, stop⟩, step⟩
    3600 ≤ r.window.secs ∧ ∃ q p, r.range.report = .ok q ∧ r.report = .ok p ∧
      q.start.secs = 253402297200 ∧ q.stop.secs = 253402304400 ∧ p.windows ≠ [] ∧
      ∀ w ∈ p.windows.getLast?, w.stop = q.stop ∧ w.query.endOffset = q.query.endOffset := by
  intro start stop step r
  have hwindow : 3600 ≤ r.window.secs := by decide
  have hreport : r.range.report = .ok ⟨"a", start.truncateToHour, stop.truncateToHour,
      (Window.between "a" start.truncateToHour stop.truncateToHour).query⟩ := by
    have haccount : r.range.checkAccount = .ok () := if_neg (by decide +kernel)
    rw [Range.report_eq, haccount, Query.ofRange_of_le "a" (by decide)]
    rfl
  rcases commands_agree r hwindow with ⟨e, hquery, -⟩ |
    ⟨q, p, hquery, hplan, -, -, hempty, -, hlast, -⟩
  · rw [hreport] at hquery
    cases hquery
  · obtain rfl := Except.ok.inj (hreport.symm.trans hquery)
    refine ⟨hwindow, _, p, hreport, hplan, by decide, by decide, fun hnone ↦ ?_, hlast⟩
    have hhours := (partitionOffset_eq_iff "a").1 (hempty.1 hnone)
    exact absurd hhours (by decide)

end HourlyUsage
