import HourlyUsage.Proofs.Tiling
import Mathlib.Tactic.NormNum

/-!
# Where the windows of a range lie

The windows of a range are numbered from its first hour.  Each begins as many
steps behind that hour as its number says and is one step long, but the last one
ends with the range.  However far a schedule has been taken, what it still holds
are the rest of its windows.
-/

namespace HourlyUsage
namespace Schedule

/-! ## Schedules taken in part -/

theorem drop_of_exhausted {s : Schedule} (h : s.next = none) (n : Nat) : s.drop n = s := by
  cases n with
  | zero => rfl
  | succ n => simp only [drop, next?_of_exhausted h]

theorem Valid.drop_succ {s : Schedule} (hs : s.Valid) {t : Instant} (ht : s.next = some t)
    (n : Nat) : s.drop (n + 1) = (s.moveTo (s.stepEnd t)).drop n := by
  simp only [drop, hs.next?_eq ht]

theorem Valid.valid_drop {s : Schedule} (hs : s.Valid) (n : Nat) : (s.drop n).Valid := by
  induction n generalizing s with
  | zero => exact hs
  | succ n ih =>
      cases ht : s.next with
      | none => rwa [drop_of_exhausted ht]
      | some t =>
          rw [hs.drop_succ ht]
          exact ih (hs.moveTo_stepEnd ht)

/-- Taking windows one after the other gives them in order, and dropping as many leaves the same
schedule behind them. -/
theorem Valid.take_eq {s : Schedule} (hs : s.Valid) (n : Nat) :
    s.take n = (s.windows.take n, s.drop n) := by
  induction n generalizing s with
  | zero => simp [take, drop]
  | succ n ih =>
      cases ht : s.next with
      | none =>
          rw [take_of_exhausted ht, drop_of_exhausted ht, windows_of_exhausted ht, List.take_nil]
      | some t =>
          rw [hs.take_succ ht, hs.drop_succ ht, hs.windows_eq ht, ih (hs.moveTo_stepEnd ht),
            List.take_succ_cons]

/-- A schedule from which windows were taken holds the rest of them. -/
theorem Valid.windows_drop {s : Schedule} (hs : s.Valid) (n : Nat) :
    (s.drop n).windows = s.windows.drop n := by
  induction n generalizing s with
  | zero => rfl
  | succ n ih =>
      cases ht : s.next with
      | none => rw [drop_of_exhausted ht, windows_of_exhausted ht, List.drop_nil]
      | some t =>
          rw [hs.drop_succ ht, hs.windows_eq ht, ih (hs.moveTo_stepEnd ht), List.drop_succ_cons]

theorem Valid.next_eq_none_iff {s : Schedule} (hs : s.Valid) :
    s.next = none ↔ s.windows = [] := by
  constructor
  · exact windows_of_exhausted
  · intro h
    cases ht : s.next with
    | none => rfl
    | some t =>
        rw [hs.windows_eq ht] at h
        cases h

/-- Once all windows are taken there is no further one. -/
theorem Valid.advance_drop {s : Schedule} (hs : s.Valid) {n : Nat} (h : s.windows.length ≤ n) :
    (s.drop n).advance = .error .exhausted := by
  apply advance_of_exhausted
  rw [(hs.valid_drop n).next_eq_none_iff, hs.windows_drop, List.drop_eq_nil_iff]
  exact h

/-! ## Positions -/

/-- The window of a number begins that many steps behind the next one, and ends a step later or
with the range. -/
theorem Valid.hourNumber_getElem? {s : Schedule} (hs : s.Valid) :
    ∀ t, s.next = some t → ∀ (i : Nat) (w : Window), s.windows[i]? = some w →
      w = Window.between s.account w.start w.stop ∧ w.start.IsOnHour ∧ w.stop.IsOnHour ∧
        w.start.hourNumber = t.hourNumber + i * s.step.wholeHours ∧
        w.stop.hourNumber =
          min (t.hourNumber + (i + 1) * s.step.wholeHours) s.stop.hourNumber := by
  induction s, hs using Valid.induction with
  | exhausted s hs hnone =>
      intro t ht
      rw [hnone] at ht
      cases ht
  | step s t hs ht ih =>
      intro u hu i w hw
      obtain rfl : t = u := Option.some.inj (ht.symm.trans hu)
      obtain ⟨hon, hnum⟩ := hs.stepEnd_spec ht
      rw [hs.windows_eq ht] at hw
      cases i with
      | zero =>
          obtain rfl := Option.some.inj hw
          refine ⟨rfl, hs.next_onHour t ht, hon, ?_, ?_⟩
          · simp [Window.between]
          · simpa [Window.between] using hnum
      | succ i =>
          rw [List.getElem?_cons_succ] at hw
          have hlt : s.stepEnd t < s.stop := by
            by_contra hge
            have hnone : (s.moveTo (s.stepEnd t)).next = none := if_neg hge
            rw [windows_of_exhausted hnone] at hw
            cases hw
          obtain ⟨hbetween, hstart, hstop, hfirst, hlast⟩ := ih _ (if_pos hlt) i w hw
          -- a step that ends before the range is a whole one
          rw [hon.lt_iff hs.stop_onHour] at hlt
          have hwhole : (s.stepEnd t).hourNumber = t.hourNumber + s.step.wholeHours := by omega
          refine ⟨hbetween, hstart, hstop, ?_, ?_⟩
          · rw [hfirst, hwhole, step_moveTo]
            push_cast
            ring
          · rw [hlast, hwhole, step_moveTo, stop_moveTo]
            push_cast
            congr 1
            ring

end Schedule

/-- The window has the place `i` among windows of one length, in seconds, that lead from one
instant to another: it begins that many lengths behind the first instant, and ends one length later
but not behind the second. -/
structure Window.IsTile (account : String) (first last : Instant) (length : Int) (i : Nat)
    (w : Window) : Prop where
  query_eq : w.query = ⟨partitionOffset account w.start, partitionOffset account w.stop⟩
  start_secs : w.start.secs = first.secs + i * length
  start_nanos : w.start.nanos = 0
  stop_secs : w.stop.secs = min (first.secs + (i + 1) * length) last.secs
  stop_nanos : w.stop.nanos = 0

namespace Schedule

theorem isTile_of_ofRange {account : String} {start stop : Instant} {step : Duration}
    {s : Schedule} (h : ofRange account start stop step = .ok s) {i : Nat} {w : Window}
    (hw : s.windows[i]? = some w) :
    w.IsTile account start.truncateToHour stop.truncateToHour (3600 * step.wholeHours) i := by
  have hs := valid_of_ofRange h
  obtain ⟨hstep, -, rfl⟩ := ofRange_eq_ok h
  have hlt : start.truncateToHour < stop.truncateToHour := by
    by_contra hge
    rw [windows_of_exhausted (if_neg hge)] at hw
    cases hw
  obtain ⟨hbetween, hstart, hstop, hfirst, hlast⟩ :=
    hs.hourNumber_getElem? _ (if_pos hlt) i w hw
  simp only [step_moveTo, stop_moveTo, Duration.wholeHours_truncateToHours hstep,
    Instant.hourNumber_truncateToHour] at hfirst hlast
  obtain ⟨hstartsecs, hstartnanos⟩ := Instant.isOnHour_iff.1 hstart
  obtain ⟨hstopsecs, hstopnanos⟩ := Instant.isOnHour_iff.1 hstop
  refine ⟨congrArg Window.query hbetween, ?_, hstartnanos, ?_, hstopnanos⟩
  · rw [hstartsecs, hfirst, Instant.secs_truncateToHour]
    ring
  · have hscale : ((i : Int) + 1) * (3600 * step.wholeHours) =
        3600 * ((i + 1) * step.wholeHours) := by ring
    rw [hstopsecs, hlast, Instant.secs_truncateToHour, Instant.secs_truncateToHour, hscale]
    omega

end Schedule

/-- No window of a chain begins before another one in front of it has ended. -/
theorem IsChain.pairwise {account : String} {a b : Instant} {ws : List Window}
    (h : IsChain account a ws b) :
    (∀ w ∈ ws, a ≤ w.start ∧ w.start < w.stop) ∧ ws.Pairwise fun v w ↦ v.stop ≤ w.start := by
  induction ws generalizing a with
  | nil => simp
  | cons w ws ih =>
      obtain ⟨hw, hlt, -, hws⟩ := h
      obtain ⟨hall, hpairs⟩ := ih hws
      have hstart : w.start = a := congrArg Window.start hw
      refine ⟨?_, List.pairwise_cons.2 ⟨fun v hv ↦ (hall v hv).1, hpairs⟩⟩
      rintro v (_ | ⟨_, hv⟩)
      · exact ⟨le_of_eq hstart.symm, hstart ▸ hlt⟩
      · exact ⟨le_trans (le_of_lt hlt) (hall v hv).1, (hall v hv).2⟩

namespace Schedule

/-- The windows of a range tile its hours, for all instants and all windows of an hour or more.
They are as many as their length goes into the range, rounded up, each at the place that its
number gives it.  Taking them one by one ends with the last of them, whatever is asked for
then. -/
theorem windows_tile_range (account : String) {start stop : Instant} {step : Duration}
    (hle : start ≤ stop) (hstep : 3600 ≤ step.secs) :
    let first := start.truncateToHour
    let last := stop.truncateToHour
    let length := 3600 * step.wholeHours
    ∃ s, ofRange account start stop step = .ok s ∧
      (∀ n, (s.take n).1 = s.windows.take n) ∧
      (∀ n, s.windows.length ≤ n → (s.take n).2.advance = .error .exhausted) ∧
      (s.windows.length : Int) = ⌈((last.secs - first.secs : Int) : ℚ) / (length : Int)⌉ ∧
      (∀ (i : Nat) (w : Window), s.windows[i]? = some w →
        w.IsTile account first last length i) ∧
      IsChain account first s.windows last ∧
      (∀ w ∈ s.windows, w.start < w.stop ∧ w.stop.secs - w.start.secs ≤ length) ∧
      s.windows.Pairwise (fun v w ↦ v.stop ≤ w.start) ∧
      (first = last → s.windows = []) := by
  intro first last length
  have hrange := ofRange_of_le account hstep hle
  have hs := valid_of_ofRange hrange
  have hchain := isChain_of_ofRange hrange
  refine ⟨_, hrange, fun n ↦ ?_, fun n hn ↦ ?_, ?_, fun i w hw ↦ isTile_of_ofRange hrange hw,
    hchain, fun w hw ↦ ⟨(hchain.pairwise.1 w hw).2, ?_⟩, hchain.pairwise.2, hchain.eq_nil_iff.2⟩
  · rw [hs.take_eq]
  · rw [hs.take_eq]
    exact hs.advance_drop hn
  · have hpos := Duration.wholeHours_pos hstep
    have hspan : last.secs - first.secs = 3600 * (stop.hourNumber - start.hourNumber) := by
      simp only [last, first, Instant.secs_truncateToHour]
      ring
    rw [length_windows_of_ofRange hrange, hspan]
    push_cast [length]
    rw [mul_div_mul_left _ _ (by norm_num)]
  · obtain ⟨i, hi⟩ := List.mem_iff_getElem?.1 hw
    have htile := isTile_of_ofRange hrange hi
    calc w.stop.secs - w.start.secs
        = min (first.secs + ((i : Int) + 1) * length) last.secs - (first.secs + i * length) := by
          rw [htile.start_secs, htile.stop_secs]
      _ ≤ first.secs + ((i : Int) + 1) * length - (first.secs + i * length) :=
          sub_le_sub_right (min_le_left _ _) _
      _ = length := by ring

/-- From the first second that an instant can have to the leap second at the end of the last one,
in windows so long that the end of the second lies beyond all instants. -/
theorem windows_tile_all_instants :
    let start : Instant := ⟨earliestSecond, 1, by decide, by decide, by decide⟩
    let stop : Instant := ⟨latestSecond, 1999999999, by decide, by decide, by decide⟩
    let step : Duration := ⟨10800000003599, 0, by decide, by decide, by decide⟩
    start ≤ stop ∧ 3600 ≤ step.secs ∧
      ∃ s, ofRange "a" start stop step = .ok s ∧ s.windows.length = 2 ∧
        ∃ w, s.windows[1]? = some w ∧ w.start.secs = 2465398771200 ∧
          w.stop.secs = 8210266873200 := by
  intro start stop step
  have hle : start ≤ stop := by decide
  have hstep : 3600 ≤ step.secs := by decide
  obtain ⟨s, hs, -, -, hlength, htile, -⟩ := windows_tile_range "a" hle hstep
  have htwo : s.windows.length = 2 := by
    have hspan : stop.truncateToHour.secs - start.truncateToHour.secs = 16544868102000 := by
      decide
    have hwhole : 3600 * step.wholeHours = 10800000000000 := by decide
    rw [hspan, hwhole] at hlength
    have hceil : ⌈((16544868102000 : Int) : ℚ) / (10800000000000 : Int)⌉ = 2 := by
      rw [Int.ceil_eq_iff]
      norm_num
    omega
  obtain ⟨w, hw⟩ : ∃ w, s.windows[1]? = some w := by
    rw [List.getElem?_eq_getElem (by omega)]
    exact ⟨_, rfl⟩
  refine ⟨hle, hstep, s, hs, htwo, w, hw, ?_, ?_⟩
  · rw [(htile 1 w hw).start_secs]
    decide
  · rw [(htile 1 w hw).stop_secs]
    decide

end Schedule
end HourlyUsage
