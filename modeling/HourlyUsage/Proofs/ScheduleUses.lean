import HourlyUsage.Proofs.CheckedArithmetic
import HourlyUsage.Proofs.WindowPositions

/-!
# Schedules in use

A schedule may be asked, stepped and copied in any order.  Whatever is done with it and its
copies, each of them is the schedule of its range with some of the first windows taken
away: it stays on whole hours, says how many windows are left, and gives the next one
exactly while there is one.
-/

namespace HourlyUsage
namespace Schedule

/-! ## Uses -/

inductive Use where
  | more
  | advance
  | next
  | nth (n : Nat)
  | take (n : Nat)
  | sizeHint
  | clone

inductive Answer where
  | flag (more : Bool)
  | result (r : Except UsageError Window)
  | item (w : Option Window)
  | items (ws : List Window)
  | hint (atLeast : Nat) (atMost : Option Nat)
  | copy (s : Schedule)

/-- The next window, if there is one, and the schedule behind it. -/
def pop (s : Schedule) : Option Window × Schedule :=
  match s.next? with
  | some (w, s) => (some w, s)
  | none => (none, s)

def use (s : Schedule) : Use → Answer × Schedule
  | .more => (.flag s.more, s)
  | .advance =>
    match s.advance with
    | .ok (w, s) => (.result (.ok w), s)
    | .error e => (.result (.error e), s)
  | .next => (.item s.pop.1, s.pop.2)
  | .nth n => (.item (s.drop n).pop.1, (s.drop n).pop.2)
  | .take n => (.items (s.take n).1, (s.take n).2)
  | .sizeHint => (.hint s.remaining (some s.remaining), s)
  | .clone => (.copy s, s)

def Answer.copies : Answer → List Schedule
  | .copy s => [s]
  | _ => []

/-- One use of a schedule with its answer, and the schedule before and behind it. -/
structure Entry where
  before : Schedule
  use : Use
  answer : Answer
  after : Schedule

def entry (s : Schedule) (u : Use) : Entry := ⟨s, u, (s.use u).1, (s.use u).2⟩

/-- The uses of some schedules, each of the one with this number.  Copies are added at the end. -/
def trace : List Schedule → List (Nat × Use) → List Entry
  | _, [] => []
  | pool, (i, u) :: uses =>
    match pool[i]? with
    | none => trace pool uses
    | some s =>
      s.entry u :: trace (pool.set i (s.entry u).after ++ (s.entry u).answer.copies) uses

/-! ## What holds of each use -/

/-- The schedule lies on whole hours within the range that it was made for.  It has exactly as many
windows as it says, which it finds out without leaving 64 bits. -/
structure Sound (account : String) (stop : Instant) (step : Duration) (s : Schedule) : Prop where
  account_eq : s.account = account
  stop_eq : s.stop = stop
  step_eq : s.step = step
  stop_onHour : s.stop.IsOnHour
  next_onHour : ∀ t, s.next = some t → t.IsOnHour ∧ t < s.stop
  step_pos : 0 < s.step.wholeHours
  step_whole : s.step.secs = 3600 * s.step.wholeHours ∧ s.step.nanos = 0
  more_iff : s.more = true ↔ 0 < s.remaining
  length_take : ∀ n, (s.take n).1.length = min n s.remaining
  more_take : ∀ n, (s.take n).2.more = true ↔ n < s.remaining
  checked_advance : Checked.advance s = some s.advance
  checked_remaining : Checked.remaining s = some s.remaining

/-- What a use answers and leaves behind. -/
def Entry.Lawful (x : Entry) : Prop :=
  match x.use with
  | .more => x.answer = .flag (decide (0 < x.before.remaining)) ∧ x.after = x.before
  | .advance =>
    if x.before.more then
      (∃ w, x.answer = .result (.ok w) ∧ x.before.windows.head? = some w) ∧
        x.after.remaining + 1 = x.before.remaining
    else x.answer = .result (.error .exhausted) ∧ x.after = x.before
  | .next =>
    x.answer = .item x.before.windows.head? ∧ x.after.remaining = x.before.remaining - 1
  | .nth n =>
    x.answer = .item x.before.windows[n]? ∧ x.after.remaining = x.before.remaining - (n + 1)
  | .take n =>
    x.answer = .items (x.before.windows.take n) ∧ x.after.remaining = x.before.remaining - n
  | .sizeHint =>
    x.answer = .hint x.before.remaining (some x.before.remaining) ∧ x.after = x.before
  | .clone => x.answer = .copy x.before ∧ x.after = x.before

/-! ## One use -/

section Step

variable {s : Schedule} {account : String} {stop : Instant} {step : Duration}

theorem Valid.more_iff (hs : s.Valid) : s.more = true ↔ 0 < s.remaining := by
  rw [more, Option.isSome_iff_ne_none, ne_eq, hs.next_eq_none_iff, ← hs.length_windows,
    List.length_pos_iff]

theorem Valid.remaining_drop (hs : s.Valid) (n : Nat) :
    (s.drop n).remaining = s.remaining - n := by
  rw [← (hs.valid_drop n).length_windows, hs.windows_drop, List.length_drop, hs.length_windows]

theorem Valid.fields_drop (hs : s.Valid) (n : Nat) :
    (s.drop n).account = s.account ∧ (s.drop n).stop = s.stop ∧ (s.drop n).step = s.step := by
  induction n generalizing s with
  | zero => exact ⟨rfl, rfl, rfl⟩
  | succ n ih =>
      cases ht : s.next with
      | none =>
          rw [drop_of_exhausted ht]
          exact ⟨rfl, rfl, rfl⟩
      | some t =>
          rw [hs.drop_succ ht]
          exact ih (hs.moveTo_stepEnd ht)

theorem Valid.drop_drop (hs : s.Valid) (m n : Nat) : (s.drop m).drop n = s.drop (m + n) := by
  induction m generalizing s with
  | zero => rw [Nat.zero_add, drop]
  | succ m ih =>
      cases ht : s.next with
      | none => rw [drop_of_exhausted ht, drop_of_exhausted ht, drop_of_exhausted ht]
      | some t =>
          rw [hs.drop_succ ht, ih (hs.moveTo_stepEnd ht), Nat.add_right_comm, hs.drop_succ ht]

theorem Valid.pop_eq (hs : s.Valid) : s.pop = (s.windows.head?, s.drop 1) := by
  cases ht : s.next with
  | none => rw [pop, next?_of_exhausted ht, windows_of_exhausted ht, drop_of_exhausted ht]; rfl
  | some t => rw [pop, hs.next?_eq ht, hs.windows_eq ht, hs.drop_succ ht]; rfl

theorem Valid.use_advance (hs : s.Valid) {t : Instant} (ht : s.next = some t) :
    ∃ w, s.windows.head? = some w ∧ s.use .advance = (.result (.ok w), s.drop 1) := by
  refine ⟨Window.between s.account t (s.stepEnd t), ?_, ?_⟩
  · rw [hs.windows_eq ht, List.head?_cons]
  · rw [hs.drop_succ ht, drop]
    simp only [use, hs.advance_eq ht]

theorem use_advance_of_exhausted (h : s.next = none) :
    s.use .advance = (.result (.error .exhausted), s) := by
  simp only [use, advance_of_exhausted h]

theorem Valid.use_next (hs : s.Valid) : s.use .next = (.item s.windows.head?, s.drop 1) := by
  simp only [use, hs.pop_eq]

theorem Valid.use_nth (hs : s.Valid) (n : Nat) :
    s.use (.nth n) = (.item s.windows[n]?, s.drop (n + 1)) := by
  simp only [use, (hs.valid_drop n).pop_eq, hs.windows_drop, List.head?_drop, hs.drop_drop]

theorem Valid.use_take (hs : s.Valid) (n : Nat) :
    s.use (.take n) = (.items (s.windows.take n), s.drop n) := by
  simp only [use, hs.take_eq]

/-- A use takes some of the windows, and nothing else changes. -/
theorem Valid.after_entry (hs : s.Valid) (u : Use) : ∃ n, (s.entry u).after = s.drop n := by
  cases u with
  | advance =>
      cases ht : s.next with
      | none => exact ⟨0, congrArg Prod.snd (use_advance_of_exhausted ht)⟩
      | some t =>
          obtain ⟨w, -, huse⟩ := hs.use_advance ht
          exact ⟨1, congrArg Prod.snd huse⟩
  | next => exact ⟨1, congrArg Prod.snd hs.use_next⟩
  | nth n => exact ⟨n + 1, congrArg Prod.snd (hs.use_nth n)⟩
  | take n => exact ⟨n, congrArg Prod.snd (hs.use_take n)⟩
  | more | sizeHint | clone => exact ⟨0, rfl⟩

/-- A copy is one of the schedule as it was. -/
theorem eq_of_mem_copies {u : Use} {c : Schedule} (h : c ∈ (s.entry u).answer.copies) : c = s := by
  cases u with
  | advance =>
      simp only [entry, use] at h
      cases hadvance : s.advance <;> simp [hadvance, Answer.copies] at h
  | clone => exact List.mem_singleton.1 h
  | more | next | nth n | take n | sizeHint => cases h

theorem Valid.lawful_entry (hs : s.Valid) (u : Use) : (s.entry u).Lawful := by
  cases u with
  | more =>
      have hmore : s.more = decide (0 < s.remaining) :=
        Bool.eq_iff_iff.2 (hs.more_iff.trans decide_eq_true_iff.symm)
      exact ⟨congrArg Answer.flag hmore, rfl⟩
  | advance =>
      cases ht : s.next with
      | none =>
          have hmore : s.more = false := by rw [more, ht, Option.isSome_none]
          simp [Entry.Lawful, entry, use_advance_of_exhausted ht, hmore]
      | some t =>
          have hmore : s.more = true := by rw [more, ht, Option.isSome_some]
          have hleft := hs.more_iff.1 hmore
          obtain ⟨w, hw, huse⟩ := hs.use_advance ht
          simp only [Entry.Lawful, entry, huse, hmore, if_true, hs.remaining_drop]
          exact ⟨⟨w, rfl, hw⟩, Nat.sub_add_cancel hleft⟩
  | next =>
      simp only [Entry.Lawful, entry, hs.use_next, hs.remaining_drop, and_self]
  | nth n =>
      simp only [Entry.Lawful, entry, hs.use_nth, hs.remaining_drop, and_self]
  | take n =>
      simp only [Entry.Lawful, entry, hs.use_take, hs.remaining_drop, and_self]
  | sizeHint | clone => exact ⟨rfl, rfl⟩

theorem Valid.sound (hs : s.Valid) (hnanos : s.step.nanos = 0) :
    Sound s.account s.stop s.step s where
  account_eq := rfl
  stop_eq := rfl
  step_eq := rfl
  stop_onHour := hs.stop_onHour
  next_onHour t ht := ⟨hs.next_onHour t ht, hs.next_lt t ht⟩
  step_pos := hs.step_pos
  step_whole := ⟨hs.step_whole, hnanos⟩
  more_iff := hs.more_iff
  length_take n := by rw [hs.take_eq, List.length_take, hs.length_windows]
  more_take n := by
    rw [hs.take_eq, (hs.valid_drop n).more_iff, hs.remaining_drop]
    exact Nat.sub_pos_iff_lt
  checked_advance := Checked.advance_eq s
  checked_remaining := Checked.remaining_eq hs

namespace Sound

theorem valid (hs : Sound account stop step s) : s.Valid where
  stop_onHour := hs.stop_onHour
  next_onHour t ht := (hs.next_onHour t ht).1
  next_lt t ht := (hs.next_onHour t ht).2
  step_pos := hs.step_pos
  step_whole := hs.step_whole.1

theorem drop (hs : Sound account stop step s) (n : Nat) : Sound account stop step (s.drop n) := by
  obtain ⟨haccount, hstop, hstep⟩ := hs.valid.fields_drop n
  have hnanos : (s.drop n).step.nanos = 0 := hstep ▸ hs.step_whole.2
  have hdrop := (hs.valid.valid_drop n).sound hnanos
  rwa [haccount, hstop, hstep, hs.account_eq, hs.stop_eq, hs.step_eq] at hdrop

end Sound

end Step

/-! ## All uses -/

/-- What holds of each schedule of a pool holds of all that come from them. -/
theorem sound_of_trace {account : String} {stop : Instant} {step : Duration}
    (uses : List (Nat × Use)) :
    ∀ {pool : List Schedule}, (∀ c ∈ pool, Sound account stop step c) →
      ∀ x ∈ trace pool uses,
        Sound account stop step x.before ∧ Sound account stop step x.after ∧ x.Lawful := by
  induction uses with
  | nil => simp [trace]
  | cons first uses ih =>
      obtain ⟨i, u⟩ := first
      intro pool hpool x hx
      rw [trace] at hx
      cases hi : pool[i]? with
      | none =>
          rw [hi] at hx
          exact ih hpool x hx
      | some s =>
          rw [hi] at hx
          have hs : Sound account stop step s := hpool s (List.mem_of_getElem? hi)
          obtain ⟨n, hn⟩ := hs.valid.after_entry u
          have hafter : Sound account stop step (s.entry u).after := hn ▸ hs.drop n
          have hcopies : ∀ c ∈ (s.entry u).answer.copies, Sound account stop step c :=
            fun c hc ↦ eq_of_mem_copies hc ▸ hs
          rcases List.mem_cons.1 hx with rfl | hx
          · exact ⟨hs, hafter, hs.valid.lawful_entry u⟩
          · refine ih (List.forall_mem_append.2 ⟨fun c hc ↦ ?_, hcopies⟩) x hx
            rcases List.mem_or_eq_of_mem_set hc with hc | rfl
            · exact hpool c hc
            · exact hafter

/-- Whatever is done with a schedule of a range and its copies, in any order, each of them stays on
whole hours in front of the end of its range, counts its windows exactly, and gives the next one if
and only if it counts one at least; and no number that is needed for this, or to make a schedule in
the first place, leaves 64 bits. -/
theorem traced_uses (account : String) (start stop : Instant) (step : Duration) :
    Checked.schedule account start stop step = some (ofRange account start stop step) ∧
      ∀ s, ofRange account start stop step = .ok s → ∀ (uses : List (Nat × Use)),
        ∀ x ∈ trace [s] uses,
          Sound account stop.truncateToHour step.truncateToHours x.before ∧
            Sound account stop.truncateToHour step.truncateToHours x.after ∧ x.Lawful := by
  refine ⟨Checked.schedule_eq account start stop step, fun s hs uses ↦ ?_⟩
  have hvalid := valid_of_ofRange hs
  obtain ⟨-, -, rfl⟩ := ofRange_eq_ok hs
  exact sound_of_trace uses (List.forall_mem_singleton.2 (hvalid.sound rfl))

/-- Two windows over all instants, the end of the second beyond all of them.  One is taken, then the
schedule is copied, and both the schedule and its copy go on until they are over. -/
theorem traced_uses_over_all_instants :
    let start : Instant := ⟨earliestSecond, 1, by decide, by decide, by decide⟩
    let stop : Instant := ⟨latestSecond, 1999999999, by decide, by decide, by decide⟩
    let step : Duration := ⟨10800000003599, 0, by decide, by decide, by decide⟩
    let uses : List (Nat × Use) :=
      [(0, .sizeHint), (0, .nth 0), (0, .clone), (0, .advance), (0, .advance), (1, .take 5)]
    ∃ s, ofRange "a" start stop step = .ok s ∧ Checked.remaining s = some 2 ∧
      (trace [s] uses).map (fun x ↦ x.before.remaining) = [2, 2, 1, 1, 0, 1] ∧
      ∀ x ∈ trace [s] uses, x.Lawful := by
  intro start stop step uses
  have hs : ofRange "a" start stop step =
      .ok (moveTo ⟨"a", none, stop.truncateToHour, step.truncateToHours⟩ start.truncateToHour) :=
    ofRange_of_le "a" (by decide) (by decide)
  obtain ⟨-, hall⟩ := traced_uses "a" start stop step
  refine ⟨_, hs, ?_, by decide +kernel, fun x hx ↦ (hall _ hs uses x hx).2.2⟩
  obtain ⟨hsound, -⟩ := hall _ hs uses _ (List.mem_cons_self ..)
  exact hsound.checked_remaining

end Schedule
end HourlyUsage
