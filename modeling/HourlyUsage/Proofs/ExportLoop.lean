import HourlyUsage.Export
import HourlyUsage.Proofs.Listing
import HourlyUsage.Proofs.ObjectFile

/-!
# The export loop

Exporting objects one list after the other is exporting them as one list, so an
export depends on its windows only through the keys that they list together.  In
a file store these are the keys of the whole range: whatever the length of the
windows, the same bytes are written, and the same failure ends the export.
-/

namespace HourlyUsage

open Text

/-! ## Steps in sequence -/

/-- What a part of an export comes to: a count or the failure that ended it, and the encoder. -/
abbrev Counted := Except UsageError Nat × ArrayEncoder

/-- One part of an export after another.  Counts add up, and a failure leaves the rest out. -/
def andThen (r : Counted) (f : ArrayEncoder → Counted) : Counted :=
  match r with
  | (.error e, enc) => (.error e, enc)
  | (.ok n, enc) => ((f enc).1.map fun m ↦ n + m, (f enc).2)

@[simp] theorem andThen_error (e : UsageError) (enc : ArrayEncoder) (f : ArrayEncoder → Counted) :
    andThen (.error e, enc) f = (.error e, enc) := rfl

@[simp] theorem andThen_ok (n : Nat) (enc : ArrayEncoder) (f : ArrayEncoder → Counted) :
    andThen (.ok n, enc) f = ((f enc).1.map fun m ↦ n + m, (f enc).2) := rfl

theorem andThen_zero (enc : ArrayEncoder) (f : ArrayEncoder → Counted) :
    andThen (.ok 0, enc) f = f enc := by
  rcases h : f enc with ⟨e | n, enc'⟩ <;> simp [h, Except.map]

theorem andThen_assoc (r : Counted) (f g : ArrayEncoder → Counted) :
    andThen (andThen r f) g = andThen r fun enc ↦ andThen (f enc) g := by
  rcases r with ⟨e | n, enc⟩
  · rfl
  · rcases hf : f enc with ⟨e | m, enc'⟩
    · simp [hf, Except.map]
    · rcases hg : g enc' with ⟨e | k, enc''⟩ <;> simp [hf, hg, Except.map, Nat.add_assoc]

/-! ## Lists of objects -/

section Objects

variable (store : ObjectStore)

def exportObject (key : String) (enc : ArrayEncoder) : Counted :=
  match store.read key with
  | .error e => (.error e, enc)
  | .ok events => exportEvents events enc

theorem exportObjects_cons (key : String) (keys : List String) (enc : ArrayEncoder) :
    exportObjects store (key :: keys) enc =
      andThen (exportObject store key enc) (exportObjects store keys) := by
  rw [exportObjects, exportObject]
  cases store.read key with
  | error e => rfl
  | ok events => rcases h : exportEvents events enc with ⟨e | n, enc'⟩ <;> simp [h]

theorem exportObjects_append (keys more : List String) (enc : ArrayEncoder) :
    exportObjects store (keys ++ more) enc =
      andThen (exportObjects store keys enc) (exportObjects store more) := by
  induction keys generalizing enc with
  | nil => exact (andThen_zero enc _).symm
  | cons key keys ih =>
      rw [List.cons_append, exportObjects_cons, exportObjects_cons, andThen_assoc]
      exact congrArg _ (funext ih)

/-! ## Windows -/

/-- An export of windows whose listings succeed is one of all keys that they list, whatever was
counted before. -/
theorem exportWindows_of_lists {fuel : Nat} {s : Schedule} {lists : List (List String)}
    (h : ((s.take fuel).1.mapM fun w ↦ store.list w.query) = .ok lists) (before : Summary)
    (enc : ArrayEncoder) :
    exportWindows store fuel s before enc =
      ((exportObjects store lists.flatten enc).1.map fun n ↦
          ⟨before.windows + lists.length, before.objects + lists.flatten.length,
            before.events + n⟩,
        (exportObjects store lists.flatten enc).2) := by
  induction fuel generalizing s lists before enc with
  | zero =>
      obtain rfl : [] = lists := Except.ok.inj h
      rfl
  | succ fuel ih =>
      cases hnext : s.next? with
      | none =>
          simp only [Schedule.take, hnext] at h
          obtain rfl : [] = lists := Except.ok.inj h
          simp only [exportWindows, hnext]
          rfl
      | some found =>
          obtain ⟨w, s'⟩ := found
          simp only [Schedule.take, hnext, List.mapM_cons] at h
          cases hkeys : store.list w.query with
          | error e =>
              rw [hkeys] at h
              cases h
          | ok keys =>
              rw [hkeys] at h
              cases hrest : (s'.take fuel).1.mapM fun w ↦ store.list w.query with
              | error e =>
                  rw [hrest] at h
                  cases h
              | ok rest =>
                  rw [hrest] at h
                  obtain rfl : keys :: rest = lists := Except.ok.inj h
                  simp only [exportWindows, hnext, hkeys, List.flatten_cons, exportObjects_append]
                  rcases hobj : exportObjects store keys enc with ⟨e | n, enc'⟩
                  · rfl
                  · simp only [ih hrest, andThen_ok]
                    rcases exportObjects store rest.flatten enc' with ⟨e | m, enc''⟩
                    · rfl
                    · simp only [Except.map, List.length_cons, List.length_append]
                      congr 3 <;> omega

/-- An export ends with the failure to list its first window, before anything is written. -/
theorem exportWindows_of_list_error {fuel : Nat} {s s' : Schedule} {w : Window} {e : UsageError}
    (hnext : s.next? = some (w, s')) (h : store.list w.query = .error e) (before : Summary)
    (enc : ArrayEncoder) : exportWindows store (fuel + 1) s before enc = (.error e, enc) := by
  simp only [exportWindows, hnext, h]

/-- An export that succeeds has listed all its windows. -/
theorem exists_lists_of_exportWindows {fuel : Nat} {s : Schedule} {before sum : Summary}
    {enc enc' : ArrayEncoder} (h : exportWindows store fuel s before enc = (.ok sum, enc')) :
    ∃ lists, ((s.take fuel).1.mapM fun w ↦ store.list w.query) = .ok lists := by
  induction fuel generalizing s before enc with
  | zero => exact ⟨[], rfl⟩
  | succ fuel ih =>
      cases hnext : s.next? with
      | none => exact ⟨[], by simp only [Schedule.take, hnext]; rfl⟩
      | some found =>
          obtain ⟨w, s'⟩ := found
          simp only [exportWindows, hnext] at h
          cases hkeys : store.list w.query with
          | error e => simp [hkeys] at h
          | ok keys =>
              simp only [hkeys] at h
              rcases hobj : exportObjects store keys enc with ⟨e | n, enc''⟩
              · simp [hobj] at h
              · simp only [hobj] at h
                obtain ⟨rest, hrest⟩ := ih h
                refine ⟨keys :: rest, ?_⟩
                simp only [Schedule.take, hnext, List.mapM_cons, hkeys, hrest]
                rfl

theorem exportUsage_of_lists {s : Schedule} {lists : List (List String)}
    (h : (s.windows.mapM fun w ↦ store.list w.query) = .ok lists) (enc : ArrayEncoder) :
    exportUsage store s enc =
      ((exportObjects store lists.flatten enc).1.map fun n ↦
          ⟨lists.length, lists.flatten.length, n⟩,
        (exportObjects store lists.flatten enc).2) := by
  rw [exportUsage, exportWindows_of_lists store h]
  simp

theorem exportWindows_of_exhausted {s : Schedule} (h : s.next = none) (fuel : Nat)
    (before : Summary) (enc : ArrayEncoder) :
    exportWindows store fuel s before enc = (.ok before, enc) := by
  cases fuel with
  | zero => rfl
  | succ fuel => simp only [exportWindows, Schedule.next?_of_exhausted h]

/-- Further turns than there are windows change nothing. -/
theorem exportWindows_of_bound_le {s : Schedule} (hs : s.Valid) :
    ∀ {fuel : Nat}, s.bound ≤ fuel → ∀ before enc,
      exportWindows store fuel s before enc = exportWindows store s.bound s before enc := by
  induction s, hs using Schedule.Valid.induction with
  | exhausted s hs ht =>
      intro fuel _ before enc
      rw [exportWindows_of_exhausted store ht, exportWindows_of_exhausted store ht]
  | step s t hs ht ih =>
      intro fuel hfuel before enc
      have hlt := hs.bound_moveTo_lt ht
      obtain ⟨m, rfl⟩ : ∃ m, fuel = m + 1 := ⟨fuel - 1, by omega⟩
      obtain ⟨b, hb⟩ : ∃ b, s.bound = b + 1 := ⟨s.bound - 1, by omega⟩
      have hrest : ∀ before enc, exportWindows store m (s.moveTo (s.stepEnd t)) before enc =
          exportWindows store b (s.moveTo (s.stepEnd t)) before enc := fun before enc ↦
        (ih (by omega : _ ≤ m) before enc).trans (ih (by omega : _ ≤ b) before enc).symm
      simp only [hb, exportWindows, hs.next?_eq ht, hrest]

/-- The export of windows as a loop that draws them with `advance` while there are more.  Its turns
have no limit, and it would end with the failure of a window that is refused. -/
theorem exportWindows_eq_loop {s : Schedule} (hs : s.Valid) (before : Summary)
    (enc : ArrayEncoder) :
    exportWindows store s.bound s before enc =
      if s.more then
        match s.advance with
        | .error e => (.error e, enc)
        | .ok (w, rest) =>
          match store.list w.query with
          | .error e => (.error e, enc)
          | .ok keys =>
            match exportObjects store keys enc with
            | (.error e, enc) => (.error e, enc)
            | (.ok n, enc) =>
              exportWindows store rest.bound rest
                ⟨before.windows + 1, before.objects + keys.length, before.events + n⟩ enc
      else (.ok before, enc) := by
  cases ht : s.next with
  | none => simp [Schedule.more, ht, exportWindows_of_exhausted store ht]
  | some t =>
      have hlt := hs.bound_moveTo_lt ht
      obtain ⟨b, hb⟩ : ∃ b, s.bound = b + 1 := ⟨s.bound - 1, by omega⟩
      have hrest := fun before enc ↦
        exportWindows_of_bound_le store (hs.moveTo_stepEnd ht) (by omega : _ ≤ b) before enc
      simp only [Schedule.more, ht, Option.isSome_some, if_true, hs.advance_eq ht, hb,
        exportWindows, hs.next?_eq ht]
      cases store.list (Window.between s.account t (s.stepEnd t)).query with
      | error e => rfl
      | ok keys =>
          dsimp only
          rcases exportObjects store keys enc with ⟨e | n, enc'⟩
          · rfl
          · exact hrest _ _

end Objects

/-! ## Stores that answer alike -/

section Alike

variable {a b : ObjectStore}

theorem exportObjects_congr {keys : List String} (h : ∀ key ∈ keys, a.read key = b.read key)
    (enc : ArrayEncoder) : exportObjects a keys enc = exportObjects b keys enc := by
  induction keys generalizing enc with
  | nil => rfl
  | cons key keys ih =>
      have hkey := h key (List.mem_cons_self ..)
      have hkeys := ih fun k hk ↦ h k (List.mem_cons_of_mem _ hk)
      rw [exportObjects, exportObjects, hkey]
      simp only [hkeys]

theorem exportWindows_congr {fuel : Nat} {s : Schedule}
    (hlist : ∀ w ∈ (s.take fuel).1, a.list w.query = b.list w.query)
    (hread : ∀ w ∈ (s.take fuel).1, ∀ keys, a.list w.query = .ok keys →
      ∀ key ∈ keys, a.read key = b.read key) (before : Summary) (enc : ArrayEncoder) :
    exportWindows a fuel s before enc = exportWindows b fuel s before enc := by
  induction fuel generalizing s before enc with
  | zero => rfl
  | succ fuel ih =>
      cases hnext : s.next? with
      | none => simp only [exportWindows, hnext]
      | some found =>
          obtain ⟨w, s'⟩ := found
          simp only [Schedule.take, hnext, List.forall_mem_cons] at hlist hread
          have hrest := ih hlist.2 hread.2
          simp only [exportWindows, hnext, ← hlist.1]
          cases hkeys : a.list w.query with
          | error e => rfl
          | ok keys => simp only [exportObjects_congr (hread.1 keys hkeys), hrest]

/-- Two stores that list the windows of a schedule alike, and hold the same under the keys that
they list, export alike. -/
theorem exportUsage_congr {s : Schedule}
    (hlist : ∀ w ∈ s.windows, a.list w.query = b.list w.query)
    (hread : ∀ w ∈ s.windows, ∀ keys, a.list w.query = .ok keys →
      ∀ key ∈ keys, a.read key = b.read key) (enc : ArrayEncoder) :
    exportUsage a s enc = exportUsage b s enc :=
  exportWindows_congr hlist hread {} enc

end Alike

/-! ## File stores -/

section Files

variable (store : FileStore) (tree : Node) {account : String} {start stop : Instant}

theorem exportUsage_of_next {objects : ObjectStore} {s : Schedule} (hs : s.Valid) {t : Instant}
    (ht : s.next = some t) {e : UsageError}
    (h : objects.list (Window.between s.account t (s.stepEnd t)).query = .error e)
    (enc : ArrayEncoder) : exportUsage objects s enc = (.error e, enc) := by
  obtain ⟨b, hb⟩ : ∃ b, s.bound = b + 1 := ⟨s.bound - 1, by have := hs.bound_pos ht; omega⟩
  rw [exportUsage, hb]
  exact exportWindows_of_list_error objects (hs.next?_eq ht) h _ enc

/-- An export from a file store goes through the keys of the whole range as one list. -/
theorem exportUsage_view_of_collect {step : Duration} {s : Schedule}
    (h : Schedule.ofRange account start stop step = .ok s) (hstart : start.date.HasFourDigitYear)
    (hstop : stop.date.HasFourDigitYear) {all : List String} (hall : store.collect tree = .ok all)
    (enc : ArrayEncoder) :
    let keys := (Window.between account start.truncateToHour stop.truncateToHour).query.select all
    exportUsage (store.view tree) s enc =
      ((exportObjects (store.view tree) keys enc).1.map fun n ↦ ⟨s.windows.length, keys.length, n⟩,
        (exportObjects (store.view tree) keys enc).2) := by
  have hlists : (s.windows.mapM fun w ↦ (store.view tree).list w.query) =
      .ok (s.windows.map fun w ↦ w.query.select all) := store.mapM_list_of_collect tree hall _
  have hflat := (Schedule.isChain_of_ofRange h).flatten_select (by simpa using hstart)
    (by simpa using hstop) all
  intro keys
  rw [exportUsage_of_lists _ hlists, hflat, List.length_map]

/-- Where a file store cannot be enumerated, an export fails at its first window if it has one. -/
theorem exportUsage_view_of_error {step : Duration} {s : Schedule}
    (h : Schedule.ofRange account start stop step = .ok s) {e : UsageError}
    (he : store.collect tree = .error e) (enc : ArrayEncoder) :
    exportUsage (store.view tree) s enc =
      if start.truncateToHour = stop.truncateToHour then (.ok {}, enc) else (.error e, enc) := by
  have hs := Schedule.valid_of_ofRange h
  have hempty := (Schedule.isChain_of_ofRange h).eq_nil_iff
  cases ht : s.next with
  | none =>
      have hnone := Schedule.windows_of_exhausted ht
      have hlists : (s.windows.mapM fun w ↦ (store.view tree).list w.query) = .ok [] := by
        rw [hnone]
        rfl
      rw [if_pos (hempty.1 hnone)]
      exact exportUsage_of_lists _ hlists enc
  | some t =>
      have hsome : s.windows ≠ [] := by
        rw [hs.windows_eq ht]
        exact List.cons_ne_nil _ _
      rw [if_neg fun heq ↦ hsome (hempty.2 heq)]
      exact exportUsage_of_next hs ht ((store.list_eq_error tree).2 he) enc

/-- Beside the number of windows, an export from a file store is the same for all schedules of a
range: one outcome, one encoder and one number of objects serve them all. -/
theorem exportUsage_view_uniform (account : String) (hstart : start.date.HasFourDigitYear)
    (hstop : stop.date.HasFourDigitYear) (enc : ArrayEncoder) :
    ∃ (r : Counted) (objects : Nat), ∀ step s,
      Schedule.ofRange account start stop step = .ok s →
        exportUsage (store.view tree) s enc =
          (r.1.map fun n ↦ ⟨s.windows.length, objects, n⟩, r.2) := by
  cases hall : store.collect tree with
  | ok all =>
      exact ⟨_, _, fun _ _ h ↦ exportUsage_view_of_collect store tree h hstart hstop hall enc⟩
  | error e =>
      by_cases hsame : start.truncateToHour = stop.truncateToHour
      · refine ⟨(.ok 0, enc), 0, fun step s h ↦ ?_⟩
        have hnone := (Schedule.isChain_of_ofRange h).eq_nil_iff.2 hsame
        rw [exportUsage_view_of_error store tree h hall, if_pos hsame, hnone]
        rfl
      · refine ⟨(.error e, enc), 0, fun step s h ↦ ?_⟩
        rw [exportUsage_view_of_error store tree h hall, if_neg hsame]
        rfl

/-- The length of the windows makes no difference to an export, whatever the sink does.  Two
exports of a range leave equal encoders on equal sinks, and come either to the same failure or to
the same counts of objects and events.  Each counts its own windows, which are the hours of the
range over those of a window, rounded up. -/
theorem exportUsage_eq_for_any_windows (account : String) {v w : Duration}
    (hstart : start.date.HasFourDigitYear) (hstop : stop.date.HasFourDigitYear)
    (hv : 3600 ≤ v.secs) (hw : 3600 ≤ w.secs) :
    (stop < start ∧ Schedule.ofRange account start stop v = .error .invalidRange ∧
      Schedule.ofRange account start stop w = .error .invalidRange) ∨
    (start ≤ stop ∧ ∃ s t, Schedule.ofRange account start stop v = .ok s ∧
      Schedule.ofRange account start stop w = .ok t ∧ ∀ enc,
        (exportUsage (store.view tree) s enc).2 = (exportUsage (store.view tree) t enc).2 ∧
        ((exportUsage (store.view tree) s enc).1.map fun sum ↦ (sum.objects, sum.events)) =
          ((exportUsage (store.view tree) t enc).1.map fun sum ↦ (sum.objects, sum.events)) ∧
        (∀ sum, (exportUsage (store.view tree) s enc).1 = .ok sum →
          (sum.windows : Int) =
            ⌈((stop.hourNumber - start.hourNumber : Int) : ℚ) / v.wholeHours⌉) ∧
        ∀ sum, (exportUsage (store.view tree) t enc).1 = .ok sum →
          (sum.windows : Int) =
            ⌈((stop.hourNumber - start.hourNumber : Int) : ℚ) / w.wholeHours⌉) := by
  rcases lt_or_ge stop start with hlt | hle
  · exact .inl ⟨hlt, Schedule.ofRange_of_lt account hv hlt, Schedule.ofRange_of_lt account hw hlt⟩
  refine .inr ⟨hle, _, _, Schedule.ofRange_of_le account hv hle,
    Schedule.ofRange_of_le account hw hle, fun enc ↦ ?_⟩
  have hs := Schedule.ofRange_of_le account hv hle
  have ht := Schedule.ofRange_of_le account hw hle
  obtain ⟨r, objects, h⟩ := exportUsage_view_uniform store tree account hstart hstop enc
  rw [h v _ hs, h w _ ht, ← Schedule.length_windows_of_ofRange hs,
    ← Schedule.length_windows_of_ofRange ht]
  rcases r with ⟨e | n, enc'⟩
  · simp [Except.map]
  · refine ⟨rfl, rfl, ?_, ?_⟩
    · rintro sum ⟨⟩
      rfl
    · rintro sum ⟨⟩
      rfl

/-- Windows of an hour and of a day over the leap day of 2000, in a store of one object with one
event. -/
theorem exportUsage_eq_for_hours_and_days :
    let start : Instant := ⟨951782400, 0, by decide, by decide, by decide⟩
    let stop : Instant := ⟨951868800, 0, by decide, by decide, by decide⟩
    let hour : Duration := ⟨3600, 0, by decide, by decide, by decide⟩
    let day : Duration := ⟨86400, 0, by decide, by decide, by decide⟩
    let event : Event := ⟨"n", ⟨"", "", "", "a", ""⟩, start, stop, ⟨0⟩⟩
    let store : FileStore := ⟨"store", "json"⟩
    let tree := (Node.dir []).plant (.file (event.json ++ [Ascii.newline]))
      (Path.names (utf8 "store/account=a/date=2000-02-29/hour=07/x.json"))
    start.date.HasFourDigitYear ∧ stop.date.HasFourDigitYear ∧ 3600 ≤ hour.secs ∧
      3600 ≤ day.secs ∧ start ≤ stop ∧
      ∃ s t, Schedule.ofRange "a" start stop hour = .ok s ∧
        Schedule.ofRange "a" start stop day = .ok t ∧
        (∀ enc,
          (exportUsage (store.view tree) s enc).2 = (exportUsage (store.view tree) t enc).2 ∧
          ((exportUsage (store.view tree) s enc).1.map fun sum ↦ (sum.objects, sum.events)) =
            ((exportUsage (store.view tree) t enc).1.map fun sum ↦ (sum.objects, sum.events))) ∧
        (exportUsage (store.view tree) s ⟨{}, false⟩).1 = .ok ⟨24, 1, 1⟩ ∧
        (exportUsage (store.view tree) t ⟨{}, false⟩).1 = .ok ⟨1, 1, 1⟩ := by
  intro start stop hour day event store tree
  have hstart : start.date.HasFourDigitYear := by decide +kernel
  have hstop : stop.date.HasFourDigitYear := by decide +kernel
  have hhour : 3600 ≤ hour.secs := by decide
  have hday : 3600 ≤ day.secs := by decide
  have hle : start ≤ stop := by decide
  let key := "account=a/date=2000-02-29/hour=07/x.json"
  have hcheck : Path.check (utf8 store.root) = .ok () := by decide +kernel
  have hroot : tree.resolve (utf8 store.root) = .ok [utf8 "store"] :=
    Node.resolve_of_direct? hcheck (by decide +kernel)
  have hcollect : store.collect tree = .ok [key] := by
    rw [FileStore.collect_of_lengths hroot rfl (by decide +kernel)]
    decide +kernel
  have hread : (store.view tree).read key = .ok [event] := by
    have hdirect : tree.direct? [] (Path.names (utf8 store.root) ++ Path.names (utf8 key)) =
        some (utf8 "store" :: Path.names (utf8 key)) := by decide +kernel
    exact FileStore.read_of_direct? hcheck (by decide +kernel) (by decide +kernel)
      (by decide +kernel) hdirect rfl (by decide +kernel)
  have hselect : (Window.between "a" start.truncateToHour stop.truncateToHour).query.select [key] =
      [key] := by decide +kernel
  have hobjects : (exportObjects (store.view tree) [key] ⟨{}, false⟩).1 = .ok 1 := by
    rw [exportObjects, hread]
    decide +kernel
  have hcounts : ∀ step s, Schedule.ofRange "a" start stop step = .ok s →
      (exportUsage (store.view tree) s ⟨{}, false⟩).1 = .ok ⟨s.windows.length, 1, 1⟩ := by
    intro step s hs
    rw [exportUsage_view_of_collect store tree hs hstart hstop hcollect, hselect, hobjects]
    rfl
  rcases exportUsage_eq_for_any_windows store tree "a" hstart hstop hhour hday with
    ⟨hlt, -⟩ | ⟨-, s, t, hs, ht, h⟩
  · exact absurd hle (not_le_of_gt hlt)
  · obtain ⟨-, -, hhours, hdays⟩ := h ⟨{}, false⟩
    have hspan : stop.hourNumber - start.hourNumber = 24 := by decide
    have hone : hour.wholeHours = 1 := by decide
    have hmany : day.wholeHours = 24 := by decide
    have hs' := hcounts hour s hs
    have ht' := hcounts day t ht
    have hslength : s.windows.length = 24 := by
      have hceil := hhours _ hs'
      rw [hspan, hone] at hceil
      norm_num at hceil
      exact_mod_cast hceil
    have htlength : t.windows.length = 1 := by
      have hceil := hdays _ ht'
      rw [hspan, hmany] at hceil
      norm_num at hceil
      exact_mod_cast hceil
    rw [hslength] at hs'
    rw [htlength] at ht'
    exact ⟨hstart, hstop, hhour, hday, hle, s, t, hs, ht,
      fun enc ↦ ⟨(h enc).1, (h enc).2.1⟩, hs', ht'⟩

end Files

end HourlyUsage
