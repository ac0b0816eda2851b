import HourlyUsage.Proofs.CommandAgreement

/-!
# Requests within their hours

A request counts by the hours of its bounds and by the whole hours of its window.  Two
requests in order that agree in these get the same key range, the same schedule and the
same reports.  Whether a request is in order is told by its bounds as they are, so a
range that runs backwards is refused even where it stays within one hour.
-/

namespace HourlyUsage

open Text

/-- Durations of equally many whole hours are cut down to the same one. -/
theorem Duration.truncateToHours_eq_iff {d e : Duration} :
    d.truncateToHours = e.truncateToHours ↔ d.wholeHours = e.wholeHours := by
  constructor
  · intro h
    have hsecs := congrArg secs h
    rw [secs_truncateToHours, secs_truncateToHours] at hsecs
    omega
  · intro h
    simp only [truncateToHours, h]

/-! ## Ranges -/

namespace Range

variable {r : Range}

theorem checkAccount_eq_ok : r.checkAccount = .ok () ↔ isBlankText r.account = false := by
  unfold checkAccount
  cases isBlankText r.account <;> simp

/-- Past the check of the account, a range is reported exactly if it has a key range. -/
theorem report_of_account (haccount : r.checkAccount = .ok ()) :
    r.report = ((Query.ofRange r.account r.start r.stop).map fun query ↦
      ⟨r.account, r.start.truncateToHour, r.stop.truncateToHour, query⟩).mapError .usage := by
  rw [report_eq, haccount]
  cases Query.ofRange r.account r.start r.stop <;> rfl

end Range

namespace PlanRequest

/-- The bounds of the range are in order, and the window has at least an hour. -/
structure InOrder (r : PlanRequest) : Prop where
  start_le : r.range.start ≤ r.range.stop
  hour_le : 3600 ≤ r.window.secs

/-- The requests differ at most in what is below the hour. -/
structure SameHours (a b : PlanRequest) : Prop where
  account_eq : a.range.account = b.range.account
  start_eq : a.range.start.truncateToHour = b.range.start.truncateToHour
  stop_eq : a.range.stop.truncateToHour = b.range.stop.truncateToHour
  hours_eq : a.window.wholeHours = b.window.wholeHours

/-! ## Requests of the same hours -/

namespace SameHours

variable {a b : PlanRequest}

theorem checkAccount_eq (h : a.SameHours b) : a.range.checkAccount = b.range.checkAccount := by
  unfold Range.checkAccount
  rw [h.account_eq]

theorem query_eq (h : a.SameHours b) (ha : a.InOrder) (hb : b.InOrder) :
    Query.ofRange a.range.account a.range.start a.range.stop =
      Query.ofRange b.range.account b.range.start b.range.stop := by
  rw [Query.ofRange_of_le _ ha.start_le, Query.ofRange_of_le _ hb.start_le, h.account_eq,
    h.start_eq, h.stop_eq]

theorem ofRange_eq (h : a.SameHours b) (ha : a.InOrder) (hb : b.InOrder) :
    Schedule.ofRange a.range.account a.range.start a.range.stop a.window =
      Schedule.ofRange b.range.account b.range.start b.range.stop b.window := by
  have hstep := Duration.truncateToHours_eq_iff.2 h.hours_eq
  rw [Schedule.ofRange_of_le _ ha.hour_le ha.start_le,
    Schedule.ofRange_of_le _ hb.hour_le hb.start_le, h.account_eq, h.start_eq, h.stop_eq, hstep]

theorem rangeReport_eq (h : a.SameHours b) (ha : a.InOrder) (hb : b.InOrder) :
    a.range.report = b.range.report := by
  rw [Range.report_eq, Range.report_eq, h.checkAccount_eq, h.query_eq ha hb, h.account_eq,
    h.start_eq, h.stop_eq]

theorem schedule_eq (h : a.SameHours b) (ha : a.InOrder) (hb : b.InOrder) :
    a.schedule = b.schedule := by
  unfold schedule
  rw [h.checkAccount_eq, h.ofRange_eq ha hb]

theorem report_eq (h : a.SameHours b) (ha : a.InOrder) (hb : b.InOrder) :
    a.report = b.report := by
  unfold report
  rw [h.schedule_eq ha hb, h.account_eq]

end SameHours

/-! ## Requests in order and reversed ones -/

section Account

variable {r : PlanRequest} (haccount : isBlankText r.range.account = false)

include haccount

theorem reports_of_inOrder (h : r.InOrder) :
    (∃ q, r.range.report = .ok q) ∧ ∃ p, r.report = .ok p := by
  have hchecked := Range.checkAccount_eq_ok.2 haccount
  have hschedule := schedule_of_account hchecked
  rw [Schedule.ofRange_of_le _ h.hour_le h.start_le] at hschedule
  rw [Range.report_of_account hchecked, Query.ofRange_of_le _ h.start_le]
  exact ⟨⟨_, rfl⟩, _, report_of_schedule hschedule⟩

theorem reports_of_reversed (hlt : r.range.stop < r.range.start) (hhour : 3600 ≤ r.window.secs) :
    r.range.report = .error (.usage .invalidRange) ∧
      r.report = .error (.usage .invalidRange) := by
  have hchecked := Range.checkAccount_eq_ok.2 haccount
  have hschedule := schedule_of_account hchecked
  rw [Schedule.ofRange_of_lt _ hhour hlt] at hschedule
  rw [Range.report_of_account hchecked, Query.ofRange, Window.ofRange_of_lt _ hlt]
  exact ⟨rfl, report_of_refused hschedule⟩

end Account

end PlanRequest

/-- Two requests in order that differ at most below the hour have one key range, one schedule and
the same reports, all of which exist for an account that is not blank.  A range that runs backwards
has none of them, whatever the hours of its bounds are. -/
theorem requests_count_by_hours :
    (∀ a b : PlanRequest, a.SameHours b → a.InOrder → b.InOrder →
      (∃ q, Query.ofRange a.range.account a.range.start a.range.stop = .ok q ∧
        Query.ofRange b.range.account b.range.start b.range.stop = .ok q) ∧
      (∃ s, Schedule.ofRange a.range.account a.range.start a.range.stop a.window = .ok s ∧
        Schedule.ofRange b.range.account b.range.start b.range.stop b.window = .ok s) ∧
      a.range.report = b.range.report ∧ a.report = b.report ∧
      (isBlankText a.range.account = false →
        (∃ q, a.range.report = .ok q) ∧ ∃ p, a.report = .ok p)) ∧
    ∀ r : PlanRequest, r.range.stop < r.range.start → 3600 ≤ r.window.secs →
      Query.ofRange r.range.account r.range.start r.range.stop = .error .invalidRange ∧
      Schedule.ofRange r.range.account r.range.start r.range.stop r.window =
        .error .invalidRange ∧
      (isBlankText r.range.account = false →
        r.range.report = .error (.usage .invalidRange) ∧
          r.report = .error (.usage .invalidRange)) := by
  refine ⟨fun a b h ha hb ↦ ⟨?_, ?_, h.rangeReport_eq ha hb, h.report_eq ha hb, fun haccount ↦
    PlanRequest.reports_of_inOrder haccount ha⟩, fun r hlt hhour ↦ ⟨?_, ?_, fun haccount ↦
    PlanRequest.reports_of_reversed haccount hlt hhour⟩⟩
  · have hquery := Query.ofRange_of_le a.range.account ha.start_le
    exact ⟨_, hquery, (h.query_eq ha hb).symm.trans hquery⟩
  · have hschedule := Schedule.ofRange_of_le a.range.account ha.hour_le ha.start_le
    exact ⟨_, hschedule, (h.ofRange_eq ha hb).symm.trans hschedule⟩
  · rw [Query.ofRange, Window.ofRange_of_lt _ hlt]
    rfl
  · exact Schedule.ofRange_of_lt _ hhour hlt

/-- In the hour that ends with 1969, from its first second to its last and to the leap second after
that, by windows of an hour and a half and of an hour; and backwards by the nanosecond before the
leap second. -/
theorem requests_count_by_hours_before_1970 :
    let first : Instant := ⟨-3600, 0, by decide, by decide, by decide⟩
    let last : Instant := ⟨-1, 999999999, by decide, by decide, by decide⟩
    let leap : Instant := ⟨-1, 1000000000, by decide, by decide, by decide⟩
    let hour : Duration := ⟨3600, 0, by decide, by decide, by decide⟩
    let longer : Duration := ⟨5400, 5, by decide, by decide, by decide⟩
    let a : PlanRequest := ⟨⟨"a", first, leap⟩, longer⟩
    let b : PlanRequest := ⟨⟨"a", last, last⟩, hour⟩
    let c : PlanRequest := ⟨⟨"a", leap, last⟩, longer⟩
    a.SameHours b ∧ a.InOrder ∧ b.InOrder ∧ a.range ≠ b.range ∧ a.report = b.report ∧
      (∃ p, a.report = .ok p) ∧ c.range.start.truncateToHour = c.range.stop.truncateToHour ∧
      c.report = .error (.usage .invalidRange) := by
  intro first last leap hour longer a b c
  have hsame : a.SameHours b := ⟨rfl, by decide, by decide, by decide⟩
  have ha : a.InOrder := ⟨by decide, by decide⟩
  have hb : b.InOrder := ⟨by decide, by decide⟩
  have haccount : isBlankText "a" = false := by decide
  obtain ⟨-, -, -, hreport, hok⟩ := requests_count_by_hours.1 a b hsame ha hb
  obtain ⟨-, -, hreversed⟩ := requests_count_by_hours.2 c (by decide) (by decide)
  exact ⟨hsame, ha, hb, by decide, hreport, (hok haccount).2, by decide, (hreversed haccount).2⟩

end HourlyUsage
