import HourlyUsage.Schedule
import HourlyUsage.Proofs.KeyOrder
import Mathlib.Data.Rat.Floor

/-!
# Windows tile their range

A schedule stays on whole hours.  Each of its windows begins where the one before
it ends, no window is empty, and the last one ends with the range.  Their number
is the number of hours left, divided by the hours of a window and rounded up.
-/

namespace HourlyUsage

/-! ## Durations of whole hours -/

namespace Duration

theorem isHourOrLonger_iff {d : Duration} : d.isHourOrLonger = true ↔ 3600 ≤ d.secs := by
  simp [isHourOrLonger]

theorem wholeHours_eq {d : Duration} (h : 3600 ≤ d.secs) : d.wholeHours = d.secs / 3600 := by
  have hs : d.wholeSeconds = d.secs := if_neg (by omega)
  rw [wholeHours, hs, if_neg (by omega)]

theorem wholeHours_pos {d : Duration} (h : 3600 ≤ d.secs) : 0 < d.wholeHours := by
  rw [wholeHours_eq h]
  omega

theorem secs_truncateToHours (d : Duration) : d.truncateToHours.secs = 3600 * d.wholeHours := rfl

theorem wholeHours_truncateToHours {d : Duration} (h : 3600 ≤ d.secs) :
    d.truncateToHours.wholeHours = d.wholeHours := by
  have hpos := wholeHours_pos h
  rw [wholeHours_eq (by rw [secs_truncateToHours]; omega), secs_truncateToHours]
  omega

end Duration

namespace Instant

theorem ofUnix?_of_bounds {secs : Int} (h₁ : earliestSecond ≤ secs) (h₂ : secs ≤ latestSecond) :
    ∃ t, ofUnix? secs 0 = some t ∧ t.secs = secs ∧ t.nanos = 0 := by
  have h : earliestSecond ≤ secs ∧ secs ≤ latestSecond ∧ 0 < 2000000000 ∧
      (1000000000 ≤ 0 → secs % 60 = 59) := ⟨h₁, h₂, by decide, by omega⟩
  exact ⟨_, dif_pos h, rfl, rfl⟩

theorem ofUnix?_eq_some {secs : Int} {nanos : Nat} {t : Instant} (h : ofUnix? secs nanos = some t) :
    t.secs = secs ∧ t.nanos = nanos := by
  unfold ofUnix? at h
  split at h
  · cases h
    exact ⟨rfl, rfl⟩
  · cases h

end Instant

namespace Schedule

/-! ## The invariant -/

/-- The schedule with its next window at an instant, or exhausted if its range is over there. -/
def moveTo (s : Schedule) (t : Instant) : Schedule :=
  { s with next := if t < s.stop then some t else none }

@[simp] theorem account_moveTo (s : Schedule) (t : Instant) :
    (s.moveTo t).account = s.account := rfl

@[simp] theorem stop_moveTo (s : Schedule) (t : Instant) : (s.moveTo t).stop = s.stop := rfl

@[simp] theorem step_moveTo (s : Schedule) (t : Instant) : (s.moveTo t).step = s.step := rfl

/-- What holds of every schedule of a range, before and after any of its windows. -/
structure Valid (s : Schedule) : Prop where
  stop_onHour : s.stop.IsOnHour
  next_onHour : ∀ t, s.next = some t → t.IsOnHour
  next_lt : ∀ t, s.next = some t → t < s.stop
  step_pos : 0 < s.step.wholeHours
  step_whole : s.step.secs = 3600 * s.step.wholeHours

theorem ofRange_of_le (account : String) {start stop : Instant} {step : Duration}
    (hstep : 3600 ≤ step.secs) (hle : start ≤ stop) :
    ofRange account start stop step =
      .ok (moveTo ⟨account, none, stop.truncateToHour, step.truncateToHours⟩
        start.truncateToHour) := by
  have h := Duration.isHourOrLonger_iff.2 hstep
  rw [ofRange, if_neg (by simp [h]), Window.ofRange_of_le account hle]
  rfl

theorem ofRange_of_lt (account : String) {start stop : Instant} {step : Duration}
    (hstep : 3600 ≤ step.secs) (hlt : stop < start) :
    ofRange account start stop step = .error .invalidRange := by
  have h := Duration.isHourOrLonger_iff.2 hstep
  rw [ofRange, if_neg (by simp [h]), Window.ofRange_of_lt account hlt]
  rfl

theorem ofRange_of_short (account : String) (start stop : Instant) {step : Duration}
    (hstep : step.secs < 3600) : ofRange account start stop step = .error .invalidWindow := by
  have h : step.isHourOrLonger = false := by simp [Duration.isHourOrLonger, hstep]
  rw [ofRange, if_pos (by simp [h])]

/-- A schedule of a range exists exactly if its windows are long enough and its bounds in order. -/
theorem ofRange_eq_ok {account : String} {start stop : Instant} {step : Duration} {s : Schedule}
    (h : ofRange account start stop step = .ok s) :
    3600 ≤ step.secs ∧ start ≤ stop ∧
      s = moveTo ⟨account, none, stop.truncateToHour, step.truncateToHours⟩
        start.truncateToHour := by
  rcases Int.lt_or_le step.secs 3600 with hshort | hstep
  · rw [ofRange_of_short account start stop hshort] at h
    cases h
  · rcases lt_or_ge stop start with hlt | hle
    · rw [ofRange_of_lt account hstep hlt] at h
      cases h
    · rw [ofRange_of_le account hstep hle] at h
      exact ⟨hstep, hle, (Except.ok.inj h).symm⟩

theorem moveTo_next {s : Schedule} {t u : Instant} (h : (s.moveTo t).next = some u) :
    u = t ∧ t < s.stop := by
  simp only [moveTo] at h
  split at h
  · next hlt => exact ⟨(Option.some.inj h).symm, hlt⟩
  · cases h

theorem Valid.valid_moveTo {s : Schedule} (hs : s.Valid) {t : Instant} (ht : t.IsOnHour) :
    (s.moveTo t).Valid where
  stop_onHour := hs.stop_onHour
  next_onHour u hu := by
    obtain ⟨rfl, -⟩ := moveTo_next hu
    exact ht
  next_lt u hu := by
    obtain ⟨rfl, hlt⟩ := moveTo_next hu
    exact hlt
  step_pos := hs.step_pos
  step_whole := hs.step_whole

theorem valid_of_ofRange {account : String} {start stop : Instant} {step : Duration} {s : Schedule}
    (h : ofRange account start stop step = .ok s) : s.Valid := by
  obtain ⟨hstep, -, rfl⟩ := ofRange_eq_ok h
  have hbase : Valid ⟨account, none, stop.truncateToHour, step.truncateToHours⟩ := {
    stop_onHour := Instant.isOnHour_truncateToHour stop
    next_onHour := by simp
    next_lt := by simp
    step_pos := by
      simp only [Duration.wholeHours_truncateToHours hstep]
      exact Duration.wholeHours_pos hstep
    step_whole := by
      simp only [Duration.wholeHours_truncateToHours hstep, Duration.secs_truncateToHours] }
  exact hbase.valid_moveTo (Instant.isOnHour_truncateToHour start)

/-! ## One step -/

/-- A step ends on a whole hour, one window on or with the range. -/
theorem Valid.stepEnd_spec {s : Schedule} (hs : s.Valid) {t : Instant} (ht : s.next = some t) :
    (s.stepEnd t).IsOnHour ∧
      (s.stepEnd t).hourNumber = min (t.hourNumber + s.step.wholeHours) s.stop.hourNumber := by
  have hstop := Instant.isOnHour_iff.1 hs.stop_onHour
  have hon := Instant.isOnHour_iff.1 (hs.next_onHour t ht)
  have hwhole := hs.step_whole
  have hupper := s.stop.upper
  have hlower := t.lower
  have hpos := hs.step_pos
  simp only [stepEnd, Instant.addSeconds?, hon.2]
  cases hu : Instant.ofUnix? (t.secs + s.step.secs) 0 with
  | none =>
      -- the step leaves the range of instants, so it leaves that of the schedule
      refine ⟨hs.stop_onHour, ?_⟩
      have hbeyond : ¬ t.secs + s.step.secs ≤ latestSecond := by
        intro hle
        obtain ⟨u, hu', -⟩ := Instant.ofUnix?_of_bounds (by omega) hle
        rw [hu] at hu'
        cases hu'
      simp only [Instant.hourNumber]
      omega
  | some u =>
      obtain ⟨hsecs, hnanos⟩ := Instant.ofUnix?_eq_some hu
      have hnum : u.hourNumber = t.hourNumber + s.step.wholeHours := by
        simp only [Instant.hourNumber]
        omega
      have huon : u.IsOnHour := by
        rw [Instant.isOnHour_iff, hnum]
        omega
      simp only [Instant.earlier]
      split
      · next hle =>
        rw [huon.le_iff hs.stop_onHour] at hle
        exact ⟨huon, by omega⟩
      · next hgt =>
        rw [huon.le_iff hs.stop_onHour] at hgt
        exact ⟨hs.stop_onHour, by omega⟩

theorem Valid.lt_stepEnd {s : Schedule} (hs : s.Valid) {t : Instant} (ht : s.next = some t) :
    t < s.stepEnd t := by
  obtain ⟨hon, hnum⟩ := hs.stepEnd_spec ht
  have htop := ((hs.next_onHour t ht).lt_iff hs.stop_onHour).1 (hs.next_lt t ht)
  have hpos := hs.step_pos
  rw [(hs.next_onHour t ht).lt_iff hon]
  omega

theorem Valid.stepEnd_le {s : Schedule} (hs : s.Valid) {t : Instant} (ht : s.next = some t) :
    s.stepEnd t ≤ s.stop := by
  obtain ⟨hon, hnum⟩ := hs.stepEnd_spec ht
  rw [hon.le_iff hs.stop_onHour]
  omega

/-- A schedule that is not exhausted gives the window of its next step.  The checks of a range
are made again on the way, and never fail. -/
theorem Valid.advance_eq {s : Schedule} (hs : s.Valid) {t : Instant} (ht : s.next = some t) :
    s.advance =
      .ok (Window.between s.account t (s.stepEnd t), s.moveTo (s.stepEnd t)) := by
  have hon : (s.stepEnd t).truncateToHour = s.stepEnd t := (hs.stepEnd_spec ht).1
  have hton : t.truncateToHour = t := hs.next_onHour t ht
  simp only [advance, ht, Window.ofRange_of_le s.account (le_of_lt (hs.lt_stepEnd ht)), hon, hton]
  rfl

theorem advance_of_exhausted {s : Schedule} (h : s.next = none) :
    s.advance = .error .exhausted := by
  simp only [advance, h]

theorem Valid.next?_eq {s : Schedule} (hs : s.Valid) {t : Instant} (ht : s.next = some t) :
    s.next? = some (Window.between s.account t (s.stepEnd t), s.moveTo (s.stepEnd t)) := by
  rw [next?, hs.advance_eq ht]
  rfl

theorem next?_of_exhausted {s : Schedule} (h : s.next = none) : s.next? = none := by
  rw [next?, advance_of_exhausted h]
  rfl

theorem Valid.moveTo_stepEnd {s : Schedule} (hs : s.Valid) {t : Instant} (ht : s.next = some t) :
    (s.moveTo (s.stepEnd t)).Valid :=
  hs.valid_moveTo (hs.stepEnd_spec ht).1

theorem bound_of_next {s : Schedule} {t : Instant} (ht : s.next = some t) :
    s.bound = (s.stop.secs - t.secs).toNat := by
  simp only [bound, ht]

theorem Valid.bound_moveTo_lt {s : Schedule} (hs : s.Valid) {t : Instant} (ht : s.next = some t) :
    (s.moveTo (s.stepEnd t)).bound < s.bound := by
  have hlt := hs.lt_stepEnd ht
  have hon := Instant.isOnHour_iff.1 (hs.next_onHour t ht)
  have hend := Instant.isOnHour_iff.1 (hs.stepEnd_spec ht).1
  have htop := hs.next_lt t ht
  have hstop := Instant.isOnHour_iff.1 hs.stop_onHour
  rw [Instant.lt_def] at hlt htop
  rw [bound_of_next ht]
  cases hn : (s.moveTo (s.stepEnd t)).next with
  | none =>
      simp only [bound, hn]
      omega
  | some u =>
      obtain ⟨rfl, -⟩ := moveTo_next hn
      rw [bound_of_next hn, stop_moveTo]
      omega

/-! ## All steps -/

theorem take_of_exhausted {s : Schedule} (h : s.next = none) (n : Nat) : s.take n = ([], s) := by
  cases n with
  | zero => rfl
  | succ n => simp only [take, next?_of_exhausted h]

theorem Valid.take_succ {s : Schedule} (hs : s.Valid) {t : Instant} (ht : s.next = some t)
    (n : Nat) :
    s.take (n + 1) =
      (Window.between s.account t (s.stepEnd t) :: ((s.moveTo (s.stepEnd t)).take n).1,
        ((s.moveTo (s.stepEnd t)).take n).2) := by
  simp only [take, hs.next?_eq ht]

/-- What holds of exhausted schedules and is passed back over each step holds of all. -/
theorem Valid.induction {P : (s : Schedule) → s.Valid → Prop}
    (exhausted : ∀ s (hs : s.Valid), s.next = none → P s hs)
    (step : ∀ s t (hs : s.Valid) (ht : s.next = some t),
      P (s.moveTo (s.stepEnd t)) (hs.moveTo_stepEnd ht) → P s hs)
    (s : Schedule) (hs : s.Valid) : P s hs := by
  cases ht : s.next with
  | none => exact exhausted s hs ht
  | some t =>
      have := hs.bound_moveTo_lt ht
      exact step s t hs ht (Valid.induction exhausted step _ (hs.moveTo_stepEnd ht))
termination_by s.bound

theorem Valid.bound_pos {s : Schedule} (hs : s.Valid) {t : Instant} (ht : s.next = some t) :
    0 < s.bound :=
  Nat.zero_lt_of_lt (hs.bound_moveTo_lt ht)

theorem Valid.take_of_bound_le {s : Schedule} (hs : s.Valid) :
    ∀ {n : Nat}, s.bound ≤ n → s.take n = s.take s.bound := by
  induction s, hs using Valid.induction with
  | exhausted s hs ht =>
      intro n _
      rw [take_of_exhausted ht, take_of_exhausted ht]
  | step s t hs ht ih =>
      intro n hn
      have hlt := hs.bound_moveTo_lt ht
      obtain ⟨m, rfl⟩ : ∃ m, n = m + 1 := ⟨n - 1, by omega⟩
      obtain ⟨b, hb⟩ : ∃ b, s.bound = b + 1 := ⟨s.bound - 1, by omega⟩
      rw [hb, hs.take_succ ht, hs.take_succ ht, ih (by omega), ih (n := b) (by omega)]

theorem windows_of_exhausted {s : Schedule} (h : s.next = none) : s.windows = [] := by
  rw [windows, take_of_exhausted h]

theorem Valid.windows_eq {s : Schedule} (hs : s.Valid) {t : Instant} (ht : s.next = some t) :
    s.windows =
      Window.between s.account t (s.stepEnd t) :: (s.moveTo (s.stepEnd t)).windows := by
  have hlt := hs.bound_moveTo_lt ht
  obtain ⟨b, hb⟩ : ∃ b, s.bound = b + 1 := ⟨s.bound - 1, by omega⟩
  rw [windows, hb, hs.take_succ ht, (hs.moveTo_stepEnd ht).take_of_bound_le (by omega)]
  rfl

/-- The windows of a schedule, drawn with `advance` while there are more.  No window is refused. -/
theorem Valid.windows_eq_loop {s : Schedule} (hs : s.Valid) :
    (.ok s.windows : Except UsageError (List Window)) =
      if s.more then do
        let (w, rest) ← s.advance
        return w :: rest.windows
      else .ok [] := by
  cases ht : s.next with
  | none => simp [more, ht, windows_of_exhausted ht]
  | some t =>
      simp only [more, ht, Option.isSome_some, if_true, hs.advance_eq ht, hs.windows_eq ht]
      rfl

/-- Taking all windows leaves an exhausted schedule. -/
theorem Valid.take_bound_exhausted {s : Schedule} (hs : s.Valid) :
    (s.take s.bound).2.next = none := by
  induction s, hs using Valid.induction with
  | exhausted s hs ht => rw [take_of_exhausted ht, ht]
  | step s t hs ht ih =>
      have hlt := hs.bound_moveTo_lt ht
      obtain ⟨b, hb⟩ : ∃ b, s.bound = b + 1 := ⟨s.bound - 1, by omega⟩
      rw [hb, hs.take_succ ht, (hs.moveTo_stepEnd ht).take_of_bound_le (by omega)]
      exact ih

end Schedule

/-! ## Chains of windows -/

/-- Windows of an account that follow each other from one whole hour to another, none empty. -/
def IsChain (account : String) : Instant → List Window → Instant → Prop
  | a, [], b => a = b
  | a, w :: ws, b =>
    w = Window.between account a w.stop ∧ a < w.stop ∧ w.stop.IsOnHour ∧ IsChain account w.stop ws b

namespace IsChain

theorem le {account : String} {a b : Instant} {ws : List Window} (h : IsChain account a ws b) :
    a ≤ b := by
  induction ws generalizing a with
  | nil => exact le_of_eq h
  | cons w ws ih =>
      obtain ⟨-, hlt, -, hws⟩ := h
      exact le_trans (le_of_lt hlt) (ih hws)

theorem eq_nil_iff {account : String} {a b : Instant} {ws : List Window}
    (h : IsChain account a ws b) : ws = [] ↔ a = b := by
  cases ws with
  | nil => exact iff_of_true rfl h
  | cons w ws =>
      obtain ⟨-, hlt, -, hws⟩ := h
      exact iff_of_false (List.cons_ne_nil w ws) (ne_of_lt (lt_of_lt_of_le hlt hws.le))

end IsChain

namespace Schedule

theorem Valid.isChain {s : Schedule} (hs : s.Valid) :
    ∀ t, s.next = some t → IsChain s.account t s.windows s.stop := by
  induction s, hs using Valid.induction with
  | exhausted s hs ht =>
      intro t h
      rw [ht] at h
      cases h
  | step s t hs ht ih =>
      intro u hu
      obtain rfl : t = u := Option.some.inj (ht.symm.trans hu)
      rw [hs.windows_eq ht]
      refine ⟨rfl, hs.lt_stepEnd ht, (hs.stepEnd_spec ht).1, ?_⟩
      by_cases hlt : s.stepEnd t < s.stop
      · have hnext : (s.moveTo (s.stepEnd t)).next = some (s.stepEnd t) := if_pos hlt
        exact ih _ hnext
      · have hnext : (s.moveTo (s.stepEnd t)).next = none := if_neg hlt
        rw [windows_of_exhausted hnext]
        exact le_antisymm (hs.stepEnd_le ht) (not_lt.1 hlt)

/-- The windows of a range lead from its first hour to its last. -/
theorem isChain_of_ofRange {account : String} {start stop : Instant} {step : Duration}
    {s : Schedule} (h : ofRange account start stop step = .ok s) :
    IsChain account start.truncateToHour s.windows stop.truncateToHour := by
  have hs := valid_of_ofRange h
  obtain ⟨-, hle, rfl⟩ := ofRange_eq_ok h
  by_cases hlt : start.truncateToHour < stop.truncateToHour
  · exact hs.isChain _ (if_pos hlt)
  · rw [windows_of_exhausted (if_neg hlt)]
    exact le_antisymm (Instant.truncateToHour_le_iff.2 (Instant.hourNumber_mono hle))
      (not_lt.1 hlt)

/-! ## The number of windows -/

theorem ceil_div_eq_ediv (hours : Int) {whole : Int} (h : 0 < whole) :
    ⌈(hours : ℚ) / whole⌉ = (hours + whole - 1) / whole := by
  have hpos : (0 : ℚ) < whole := by exact_mod_cast h
  have hlt := Int.lt_ediv_add_one_mul_self (hours + whole - 1) h
  have hle := Int.ediv_mul_le (hours + whole - 1) (Int.ne_of_gt h)
  rw [Int.ceil_eq_iff, lt_div_iff₀ hpos, div_le_iff₀ hpos]
  generalize (hours + whole - 1) / whole = n at hlt hle
  constructor
  · have hbelow : (n - 1) * whole < hours := by
      rw [Int.sub_mul]
      omega
    exact_mod_cast hbelow
  · have habove : hours ≤ n * whole := by
      rw [Int.add_mul] at hlt
      omega
    exact_mod_cast habove

theorem Valid.remaining_eq {s : Schedule} (hs : s.Valid) {t : Instant}
    (ht : s.next = some t) :
    (s.remaining : Int) =
      (s.stop.hourNumber - t.hourNumber + s.step.wholeHours - 1) / s.step.wholeHours := by
  have hspan : (s.stop.secs - t.secs) / 3600 = s.stop.hourNumber - t.hourNumber := by
    have hon := Instant.isOnHour_iff.1 (hs.next_onHour t ht)
    have hstop := Instant.isOnHour_iff.1 hs.stop_onHour
    omega
  have hlt := ((hs.next_onHour t ht).lt_iff hs.stop_onHour).1 (hs.next_lt t ht)
  have hpos := hs.step_pos
  simp only [remaining, ht, hspan]
  rw [Int.toNat_of_nonneg (Int.ediv_nonneg (by omega) (by omega))]

theorem remaining_of_exhausted {s : Schedule} (h : s.next = none) : s.remaining = 0 := by
  simp only [remaining, h]

/-- Each window lowers the number of those left by one. -/
theorem Valid.remaining_moveTo {s : Schedule} (hs : s.Valid) {t : Instant} (ht : s.next = some t) :
    s.remaining = (s.moveTo (s.stepEnd t)).remaining + 1 := by
  have hpos := hs.step_pos
  have htop := ((hs.next_onHour t ht).lt_iff hs.stop_onHour).1 (hs.next_lt t ht)
  obtain ⟨hon, hnum⟩ := hs.stepEnd_spec ht
  have hrem := hs.remaining_eq ht
  by_cases hlt : s.stepEnd t < s.stop
  · have hnext : (s.moveTo (s.stepEnd t)).next = some (s.stepEnd t) := if_pos hlt
    have hrem' := (hs.moveTo_stepEnd ht).remaining_eq hnext
    rw [hon.lt_iff hs.stop_onHour] at hlt
    have hinner : (s.stepEnd t).hourNumber = t.hourNumber + s.step.wholeHours := by omega
    have hsplit : s.stop.hourNumber - t.hourNumber + s.step.wholeHours - 1 =
        s.stop.hourNumber - (s.stepEnd t).hourNumber + s.step.wholeHours - 1 +
          1 * s.step.wholeHours := by omega
    rw [hsplit, Int.add_mul_ediv_right _ _ (by omega)] at hrem
    rw [stop_moveTo, step_moveTo] at hrem'
    omega
  · have hnext : (s.moveTo (s.stepEnd t)).next = none := if_neg hlt
    rw [hon.lt_iff hs.stop_onHour] at hlt
    have hone : (s.stop.hourNumber - t.hourNumber + s.step.wholeHours - 1) /
        s.step.wholeHours = 1 := by
      rw [Int.ediv_eq_iff_of_pos hpos]
      omega
    rw [remaining_of_exhausted hnext]
    omega

theorem Valid.length_windows {s : Schedule} (hs : s.Valid) : s.windows.length = s.remaining := by
  induction s, hs using Valid.induction with
  | exhausted s hs ht => rw [windows_of_exhausted ht, remaining_of_exhausted ht, List.length_nil]
  | step s t hs ht ih => rw [hs.windows_eq ht, hs.remaining_moveTo ht, List.length_cons, ih]

/-- A range has as many windows as the hours of a window go into its hours, rounded up. -/
theorem length_windows_of_ofRange {account : String} {start stop : Instant} {step : Duration}
    {s : Schedule} (h : ofRange account start stop step = .ok s) :
    (s.windows.length : Int) =
      ⌈((stop.hourNumber - start.hourNumber : Int) : ℚ) / step.wholeHours⌉ := by
  have hs := valid_of_ofRange h
  obtain ⟨hstep, hle, rfl⟩ := ofRange_eq_ok h
  have hpos := Duration.wholeHours_pos hstep
  rw [hs.length_windows, ceil_div_eq_ediv _ hpos]
  by_cases hlt : start.truncateToHour < stop.truncateToHour
  · rw [hs.remaining_eq (if_pos hlt)]
    simp only [stop_moveTo, step_moveTo, Instant.hourNumber_truncateToHour,
      Duration.wholeHours_truncateToHours hstep]
  · have hmono := Instant.hourNumber_mono hle
    rw [Instant.truncateToHour_lt_iff] at hlt
    rw [remaining_of_exhausted (if_neg (by rw [Instant.truncateToHour_lt_iff]; exact hlt)),
      Int.ediv_eq_zero_of_lt (by omega) (by omega)]
    rfl

end Schedule
end HourlyUsage
