import HourlyUsage.Command
import HourlyUsage.Proofs.ExportContent
import HourlyUsage.Proofs.FreshName
import HourlyUsage.Proofs.ObjectFile
import HourlyUsage.Proofs.StagedStore

/-!
# Exports are atomic

A staged file is gone without a trace when it is discarded, and while it is
there the store of an export lists and reads what it did before.  So an export
that fails leaves its tree as it was, and one that succeeds has replaced the
entry at its output path by the array of the events that were in the store, and
nothing else.
-/

namespace HourlyUsage

open Text

/-! ## Staged files -/

/-- What an export relies on in the names of its staged files: no entry has them, and they have
no extension. -/
structure Staging.Lawful (staging : Staging) : Prop where
  fresh : ∀ es, Entries.find? (staging.name es) es = none
  plain : ∀ es, extension? (staging.name es) = none

theorem Staging.lawful_default : Staging.Lawful {} :=
  ⟨find?_freshName, fun _ ↦ extension?_stagedName _⟩

namespace Node

variable {tree : Node} {staging : Staging} {path : Bytes} {staged : Staged}

theorem stage_spec (h : tree.stage staging path = .ok staged) :
    ∃ es, tree.get? staged.directory = some (.dir es) ∧ staged.name = staging.name es ∧
      staged.tree = tree.update (Entries.set staged.name (.file [])) staged.directory := by
  unfold stage at h
  cases hcheck : Path.check (Path.join (Path.absolute (Path.parent path)) (stagedName 0)) with
  | error e => simp [hcheck, bind, Except.bind] at h
  | ok u =>
      cases hwalk : tree.walk Path.linkLimit [] (Path.names (Path.parent path) ++ [Path.dot]) with
      | error e => simp [hcheck, hwalk, bind, Except.bind] at h
      | ok directory =>
          simp only [hcheck, hwalk, bind, Except.bind] at h
          rcases hnode : tree.get? directory with _ | ⟨_ | _ | es⟩ <;> simp only [hnode] at h
          · cases h
          · cases h
          · cases h
          · obtain rfl := Except.ok.inj h
            exact ⟨es, hnode, rfl, rfl⟩

theorem addsFile_of_stage (hstaging : staging.Lawful) (h : tree.stage staging path = .ok staged) :
    AddsFile staged.name [] staged.directory tree staged.tree := by
  obtain ⟨es, hdir, hname, htree⟩ := stage_spec h
  rw [htree]
  exact AddsFile.of_update hdir (hname ▸ hstaging.fresh es) []

/-- A file can be staged in a directory that no link leads to. -/
theorem stage_of_direct? {l : List Name} {es : Entries}
    (hcheck : Path.check (Path.join (Path.absolute (Path.parent path)) (stagedName 0)) = .ok ())
    (h : tree.direct? [] (Path.names (Path.parent path) ++ [Path.dot]) = some l)
    (hdir : tree.get? l = some (.dir es)) :
    tree.stage staging path =
      .ok ⟨tree.update (Entries.set (staging.name es) (.file [])) l, l, staging.name es⟩ := by
  simp only [stage, hcheck, walk_of_direct? h, bind, Except.bind, hdir]
  rfl

/-- A staged file that is given up leaves no trace. -/
theorem discard_of_stage (hstaging : staging.Lawful) (h : tree.stage staging path = .ok staged) :
    staged.discard = tree := by
  obtain ⟨es, hdir, hname, htree⟩ := stage_spec h
  have hnew : Entries.find? staged.name es = none := hname ▸ hstaging.fresh es
  rw [Staged.discard, htree, update_update]
  exact update_eq_self hdir (by rw [Function.comp, Entries.erase_set, Entries.erase_of_new hnew])

end Node

/-- The staged file is moved to the last name of its path, in the directory of that path, and
whether it can be does not depend on its content. -/
theorem Staged.publish_spec {s : Staged} {content path : Bytes} {after : Node}
    (h : s.publish content path = .ok after) :
    ∃ directory last, (Path.names path).getLast? = some last ∧
      s.tree.walk Path.linkLimit [] ((Path.names path).dropLast ++ [Path.dot]) = .ok directory ∧
      ∀ content', s.publish content' path =
        .ok (s.discard.update (Entries.set last (.file content')) directory) := by
  unfold publish at h ⊢
  by_cases hnul : path.contains 0 = true
  · rw [if_pos hnul] at h
    cases h
  rw [if_neg hnul] at h
  cases hcheck : Path.check path with
  | error e => simp [hcheck, bind, Except.bind] at h
  | ok u =>
      cases hlast : (Path.names path).getLast? with
      | none => simp [hcheck, hlast, bind, Except.bind, throw, throwThe, MonadExceptOf.throw] at h
      | some last =>
          cases hwalk : s.tree.walk Path.linkLimit []
              ((Path.names path).dropLast ++ [Path.dot]) with
          | error e => simp [hcheck, hlast, hwalk, bind, Except.bind] at h
          | ok directory =>
              refine ⟨directory, last, rfl, rfl, fun content' ↦ ?_⟩
              rw [if_neg hnul]
              simp only [hcheck, hlast, hwalk, bind, Except.bind] at h ⊢
              split at h
              · cases h
              next hdots =>
              rw [if_neg hdots]
              split at h
              · cases h
              next hlong =>
              rw [if_neg hlong]
              split at h
              · cases h
              next hslash =>
              rw [if_neg hslash]
              split at h
              · cases h
              · rfl

/-- A staged file can be moved to a name that no directory has, in a directory that no link leads
to. -/
theorem Staged.publish_of_direct? {s : Staged} {path : Bytes} {l : List Name} {last : Name}
    (hcheck : Path.check path = .ok ()) (hlast : (Path.names path).getLast? = some last)
    (h : s.tree.direct? [] ((Path.names path).dropLast ++ [Path.dot]) = some l)
    (hname : Path.IsEntryName last ∧ last.length ≤ Path.nameLimit)
    (hslash : Path.endsInSlash path = false)
    (hnode : ∀ es, s.tree.get? (l ++ [last]) ≠ some (.dir es)) (content : Bytes) :
    s.publish content path = .ok (s.discard.update (Entries.set last (.file content)) l) := by
  obtain ⟨hnul, -, -⟩ := Path.check_eq_ok_iff.1 hcheck
  obtain ⟨⟨-, -, hdot, hdots⟩, hlength⟩ := hname
  unfold publish
  rw [if_neg (by rwa [List.contains_iff_mem])]
  simp only [hcheck, hlast, Node.walk_of_direct? h, bind, Except.bind, hslash]
  rw [if_neg (not_or_intro hdot hdots), if_neg (Nat.not_lt.2 hlength), if_neg Bool.false_ne_true]
  rfl

/-! ## The events of an export -/

theorem ObjectStore.eventsOf_congr {a b : ObjectStore} {keys : List String}
    (h : ∀ key ∈ keys, b.read key = a.read key) : b.eventsOf keys = a.eventsOf keys := by
  have hmap : keys.mapM b.read = keys.mapM a.read := by
    induction keys with
    | nil => rfl
    | cons key keys ih =>
        rw [List.mapM_cons, List.mapM_cons, h key (List.mem_cons_self ..),
          ih fun k hk ↦ h k (List.mem_cons_of_mem _ hk)]
  rw [eventsOf, eventsOf, hmap]

namespace FileStore

/-- The store that an export reads, of the objects below a root. -/
def atRoot (root : String) : FileStore := ⟨root, defaultExtension⟩

variable {name : Name} {content : Bytes} {l : List Name} {a b : Node} {store : FileStore}

/-- A new file without an extension leaves the events of a well-formed store as they are. -/
theorem eventsIn_of_addsFile (h : AddsFile name content l a b) (hplain : extension? name = none)
    (hwf : a.WellFormed) {location : List Name}
    (hroot : a.resolve (utf8 store.root) = .ok location) (ws : List Window) :
    (store.view b).eventsIn ws = (store.view a).eventsIn ws := by
  have hcollect := collect_of_addsFile h hplain hroot
  have hlist : (store.view b).list = (store.view a).list := by
    funext q
    exact congrArg (Except.map q.select) hcollect
  unfold ObjectStore.eventsIn
  rw [hlist]
  cases hlists : (ws.mapM fun w ↦ (store.view a).list w.query) with
  | error e => rfl
  | ok lists =>
      refine ObjectStore.eventsOf_congr fun key hkey ↦ ?_
      cases hall : store.collect a with
      | error e =>
          obtain rfl : ws = [] := by
            by_contra hne
            have herror := store.mapM_list_of_error a hall hne
            cases herror.symm.trans hlists
          obtain rfl : [] = lists := Except.ok.inj hlists
          cases hkey
      | ok all =>
          obtain rfl : ws.map (fun w ↦ w.query.select all) = lists :=
            Except.ok.inj ((store.mapM_list_of_collect a hall ws).symm.trans hlists)
          obtain ⟨keys, hkeys, hmem⟩ := List.mem_flatten.1 hkey
          obtain ⟨w, -, rfl⟩ := List.mem_map.1 hkeys
          exact read_of_addsFile h hwf hall (Query.mem_select.1 hmem).1

/-- A store that was opened holds the same events while a file is staged. -/
theorem eventsIn_of_stage {tree : Node} {staging : Staging} {path : Bytes} {staged : Staged}
    {root : String} (hwf : tree.WellFormed) (hstaging : staging.Lawful)
    (hcreate : create tree root defaultExtension = .ok store)
    (hstage : tree.stage staging path = .ok staged) (ws : List Window) :
    (store.view staged.tree).eventsIn ws = (store.view tree).eventsIn ws := by
  obtain ⟨-, location, -, hroot, -⟩ := create_spec hcreate
  have hplain : extension? staged.name = none := by
    obtain ⟨es, -, hname, -⟩ := Node.stage_spec hstage
    exact hname ▸ hstaging.plain es
  exact eventsIn_of_addsFile (Node.addsFile_of_stage hstaging hstage) hplain hwf hroot ws

/-- Over years of four digits, the events of a schedule are those of one query over its range. -/
theorem eventsOf_of_eventsIn {tree : Node} {account : String} {start stop : Instant}
    {step : Duration} {s : Schedule} (hs : Schedule.ofRange account start stop step = .ok s)
    (hstart : start.date.HasFourDigitYear) (hstop : stop.date.HasFourDigitYear) {q : Query}
    (hq : Query.ofRange account start stop = .ok q) {keys : List String}
    (hkeys : store.list tree q = .ok keys) :
    (store.view tree).eventsIn s.windows = (store.view tree).eventsOf keys := by
  obtain ⟨all, hall, rfl⟩ := (store.list_eq_ok tree).1 hkeys
  have hlists : (s.windows.mapM fun w ↦ (store.view tree).list w.query) = _ :=
    store.mapM_list_of_collect tree hall s.windows
  have hflat := (Schedule.isChain_of_ofRange hs).flatten_select (by simpa using hstart)
    (by simpa using hstop) all
  obtain ⟨-, hle, -⟩ := Schedule.ofRange_eq_ok hs
  obtain rfl := Except.ok.inj (hq.symm.trans (Query.ofRange_of_le account hle))
  rw [ObjectStore.eventsIn, hlists, ← hflat]
  rfl

end FileStore

/-! ## Exports to a file -/

/-- The tree `after` has a file of this content at a path, and apart from the entry there it is
the tree `before`. -/
def Replaces (before after : Node) (path content : Bytes) : Prop :=
  ∃ directory last, (Path.names path).getLast? = some last ∧
    before.walk Path.linkLimit [] ((Path.names path).dropLast ++ [Path.dot]) = .ok directory ∧
    after.get? (directory ++ [last]) = some (.file content) ∧
    after.update (Entries.erase last) directory = before.update (Entries.erase last) directory

namespace Staged

variable {tree : Node} {staging : Staging} {path output content : Bytes} {staged : Staged}
  {after : Node}

/-- Moving the staged file to its path changes the tree that it was staged in at that path only. -/
theorem replaces_of_publish (hstaging : staging.Lawful)
    (hstage : tree.stage staging path = .ok staged)
    (h : staged.publish content output = .ok after) : Replaces tree after output content := by
  obtain ⟨directory, last, hlast, hwalk, hpublish⟩ := publish_spec h
  have hafter := Except.ok.inj (h.symm.trans (hpublish content))
  rw [Node.discard_of_stage hstaging hstage] at hafter
  have hbefore := (Node.addsFile_of_stage hstaging hstage).walk_dot hwalk
  obtain ⟨-, es, hdir⟩ := Node.walk_dot_eq_ok hbefore
  refine ⟨directory, last, hlast, hbefore, ?_, ?_⟩
  · rw [hafter, Node.get?_concat (Node.get?_update_self hdir), Entries.find?_set_self]
  · rw [hafter, Node.update_update]
    exact Node.update_congr hdir (Entries.erase_set last _ es)

end Staged

theorem PlanRequest.schedule_eq_ok {r : PlanRequest} {s : Schedule} (h : r.schedule = .ok s) :
    Schedule.ofRange r.range.account r.range.start r.range.stop r.window = .ok s := by
  unfold schedule at h
  cases haccount : r.range.checkAccount with
  | error e =>
      rw [haccount] at h
      cases h
  | ok u =>
      rw [haccount] at h
      cases hs : Schedule.ofRange r.range.account r.range.start r.range.stop r.window with
      | error e =>
          rw [hs] at h
          cases h
      | ok s' =>
          rw [hs] at h
          cases h
          rfl

namespace ExportRequest

variable {tree : Node} {staging : Staging}

/-- A schedule that could not be exported changes nothing.  One that was exported changes the
entry at its output path, to the array of the events that were in the store. -/
theorem publish_all_or_nothing (hwf : tree.WellFormed) (hstaging : staging.Lawful)
    (root output : String) (s : Schedule) :
    match publish tree root output s staging with
    | (.error _, after) => after = tree
    | (.ok _, after) => ∃ events,
        ((FileStore.atRoot root).view tree).eventsIn s.windows = .ok events ∧
          Replaces tree after (utf8 output) (ArrayEncoder.document (events.map Event.json)) := by
  unfold publish
  cases hcreate : FileStore.create tree root FileStore.defaultExtension with
  | error e => rfl
  | ok store =>
      obtain rfl : store = FileStore.atRoot root := (FileStore.create_spec hcreate).1
      cases hstage : tree.stage staging (utf8 output) with
      | error e => rfl
      | ok staged =>
          have hdiscard := Node.discard_of_stage hstaging hstage
          have hsame := FileStore.eventsIn_of_stage hwf hstaging hcreate hstage s.windows
          dsimp only
          rcases hexport : exportArray ((FileStore.atRoot root).view staged.tree) s
            staging.sink with ⟨e | sum, sink⟩
          · exact hdiscard
          · cases hpublish : staged.publish sink.content (utf8 output) with
            | error e => simpa only [hpublish] using hdiscard
            | ok after =>
                obtain ⟨events, hevents, hcontent⟩ := content_of_exportArray rfl hexport
                rw [hsame] at hevents
                have hreplaces := Staged.replaces_of_publish hstaging hstage hpublish
                simp only [hpublish]
                exact ⟨events, hevents, hcontent ▸ hreplaces⟩

theorem run_of_schedule (hwf : tree.WellFormed) (hstaging : staging.Lawful) {r : ExportRequest}
    {s : Schedule} (hschedule : r.plan.schedule = .ok s) :
    match r.run tree staging with
    | (.error _, after) => after = tree
    | (.ok _, after) => ∃ events,
        ((FileStore.atRoot r.store).view tree).eventsIn s.windows = .ok events ∧
          Replaces tree after (utf8 r.output) (ArrayEncoder.document (events.map Event.json)) := by
  have hpublish := publish_all_or_nothing hwf hstaging r.store r.output s
  simp only [run, hschedule]
  rcases hresult : publish tree r.store r.output s staging with ⟨e | sum, after⟩ <;>
    rwa [hresult] at hpublish

/-- What an export needs to succeed: windows, a store that can be opened, events that can be listed
and read, and an output path where a file can be staged and moved, on a disk that takes it. -/
theorem run_succeeds (hwf : tree.WellFormed) (hstaging : staging.Lawful)
    (hdisk : staging.disk.Willing) {r : ExportRequest} {s : Schedule} {store : FileStore}
    {events : List Event} {staged : Staged} {after : Node} (hschedule : r.plan.schedule = .ok s)
    (hcreate : FileStore.create tree r.store FileStore.defaultExtension = .ok store)
    (hevents : (store.view tree).eventsIn s.windows = .ok events)
    (hstage : tree.stage staging (utf8 r.output) = .ok staged)
    (hpublish : staged.publish [] (utf8 r.output) = .ok after) :
    ∃ report after, r.run tree staging = (.ok report, after) := by
  have hsame := FileStore.eventsIn_of_stage hwf hstaging hcreate hstage s.windows
  have hsink : staging.sink.Willing :=
    ⟨⟨hdisk.mode_eq, hdisk.limit_eq, hdisk.chunk_ne, hdisk.script_all⟩, hdisk.flushFails_eq⟩
  obtain ⟨sum, hsum⟩ := exportArray_of_willing (hsame.trans hevents) hsink
  obtain ⟨directory, last, -, -, hmoved⟩ := Staged.publish_spec hpublish
  unfold run publish
  simp only [hschedule, hcreate, hstage]
  rcases hexport : exportArray (store.view staged.tree) s staging.sink with ⟨e | sum', sink⟩
  · rw [hexport] at hsum
    cases hsum
  · simp only [hmoved]
    exact ⟨_, _, rfl⟩

/-- An export is all or nothing, wherever its output lies in a tree as file systems keep them.  If
it fails, the tree is as it was.  If it succeeds, the tree differs at the output path only, where
a file holds the array of the events that were in the store: those of the windows of the range,
which over years of four digits are those of the keys in the range. -/
theorem run_all_or_nothing (hwf : tree.WellFormed) (hstaging : staging.Lawful)
    (r : ExportRequest) :
    match r.run tree staging with
    | (.error _, after) => after = tree
    | (.ok _, after) => ∃ s events, r.plan.schedule = .ok s ∧
        ((FileStore.atRoot r.store).view tree).eventsIn s.windows = .ok events ∧
        Replaces tree after (utf8 r.output) (ArrayEncoder.document (events.map Event.json)) ∧
        (r.plan.range.start.date.HasFourDigitYear → r.plan.range.stop.date.HasFourDigitYear →
          ∀ q keys,
            Query.ofRange r.plan.range.account r.plan.range.start r.plan.range.stop = .ok q →
            (FileStore.atRoot r.store).list tree q = .ok keys →
            ((FileStore.atRoot r.store).view tree).eventsOf keys = .ok events) := by
  cases hschedule : r.plan.schedule with
  | error e =>
      have hrefused : r.run tree staging = (.error e, tree) := by simp only [run, hschedule]
      rw [hrefused]
  | ok s =>
      have hrun := run_of_schedule hwf hstaging hschedule
      rcases hresult : r.run tree staging with ⟨e | report, after⟩
      · rw [hresult] at hrun
        exact hrun
      · rw [hresult] at hrun
        obtain ⟨events, hevents, hreplaces⟩ := hrun
        refine ⟨s, events, rfl, hevents, hreplaces, fun hstart hstop q keys hq hkeys ↦ ?_⟩
        rw [← hevents]
        have hrange := PlanRequest.schedule_eq_ok hschedule
        exact (FileStore.eventsOf_of_eventsIn hrange hstart hstop hq hkeys).symm

/-- A day is exported over a symbolic link inside the store that holds its one object. -/
theorem run_all_or_nothing_over_link_in_store :
    let start : Instant := ⟨951782400, 0, by decide, by decide, by decide⟩
    let stop : Instant := ⟨951868800, 0, by decide, by decide, by decide⟩
    let day : Duration := ⟨86400, 0, by decide, by decide, by decide⟩
    let event : Event := ⟨"n", ⟨"", "", "", "a", ""⟩, start, stop, Binary64.ofNat 1⟩
    let r : ExportRequest := ⟨⟨⟨"a", start, stop⟩, day⟩, "usage", "usage/out"⟩
    let tree := Node.dir [(utf8 "usage", .dir [(utf8 "out", .link (utf8 "nowhere")),
      (utf8 "account=a", .dir [(utf8 "date=2000-02-29", .dir [(utf8 "hour=00", .dir
        [(utf8 "x.json", .file (event.json ++ [Ascii.newline]))])])])])]
    tree.WellFormed ∧ Staging.Lawful {} ∧ start.date.HasFourDigitYear ∧
      stop.date.HasFourDigitYear ∧ ∃ report after, r.run tree = (.ok report, after) ∧
        Replaces tree after (utf8 "usage/out") (ArrayEncoder.document [event.json]) := by
  intro start stop day event r tree
  have hwf : tree.WellFormed := by
    simp only [tree, Node.WellFormed, Node.WellFormedEntries, and_true, true_and]
    decide
  have hstart : start.date.HasFourDigitYear := by decide +kernel
  have hstop : stop.date.HasFourDigitYear := by decide +kernel
  have hschedule : r.plan.schedule = .ok ⟨"a", some start, stop, day⟩ := by decide +kernel
  have hrange := PlanRequest.schedule_eq_ok hschedule
  have hq := Query.ofRange_of_le "a" (by decide : start ≤ stop)
  have hcheck : Path.check (utf8 r.store) = .ok () := by decide +kernel
  have hroot : tree.resolve (utf8 r.store) = .ok [utf8 "usage"] :=
    Node.resolve_of_direct? hcheck (by decide +kernel)
  let key := "account=a/date=2000-02-29/hour=00/x.json"
  have hlist : (FileStore.atRoot r.store).list tree
      (Window.between "a" start.truncateToHour stop.truncateToHour).query = .ok [key] := by
    rw [FileStore.list, FileStore.collect_of_lengths hroot rfl (by decide +kernel)]
    decide +kernel
  have hread : (FileStore.atRoot r.store).read tree key = .ok [event] := by
    have hdirect : tree.direct? [] (Path.names (utf8 r.store) ++ Path.names (utf8 key)) =
        some (utf8 "usage" :: Path.names (utf8 key)) := by decide +kernel
    exact FileStore.read_of_direct? hcheck (by decide +kernel) (by decide +kernel)
      (by decide +kernel) hdirect rfl (by decide +kernel)
  have hevents := FileStore.eventsOf_of_eventsIn hrange hstart hstop hq hlist
  have hkeys : ((FileStore.atRoot r.store).view tree).eventsOf [key] = .ok [event] := by
    rw [ObjectStore.eventsOf_cons_eq_ok]
    exact ⟨[event], [], hread, rfl, rfl⟩
  have hstage : tree.stage {} (utf8 r.output) = .ok _ :=
    Node.stage_of_direct? (by decide +kernel) (by decide +kernel : _ = some [utf8 "usage"]) rfl
  have hlast : (Path.names (utf8 r.output)).getLast? = some (utf8 "out") := by decide +kernel
  obtain ⟨report, after, hrun⟩ := run_succeeds hwf Staging.lawful_default
    ⟨⟨rfl, rfl, by decide, nofun⟩, rfl⟩ hschedule (FileStore.create_of_resolve hroot rfl)
    (hevents.trans hkeys) hstage (Staged.publish_of_direct? (l := [utf8 "usage"])
      (by decide +kernel) hlast (by decide +kernel) (by decide +kernel) (by decide +kernel)
      (fun es h ↦ by cases h) [])
  have h := run_all_or_nothing hwf Staging.lawful_default r
  rw [hrun] at h
  obtain ⟨s, events, -, -, hreplaces, hrange⟩ := h
  obtain rfl : [event] = events :=
    Except.ok.inj (hkeys.symm.trans (hrange hstart hstop _ _ hq hlist))
  exact ⟨hwf, Staging.lawful_default, hstart, hstop, report, after, hrun, hreplaces⟩

/-- From the last hour of the year 9999 into the next year the offsets are not in the order of the
hours, and an export succeeds without the event of its first hour. -/
theorem not_run_all_or_nothing_into_year_10000 :
    let start : Instant := ⟨253402297200, 0, by decide, by decide, by decide⟩
    let stop : Instant := ⟨253402300800, 0, by decide, by decide, by decide⟩
    let hour : Duration := ⟨3600, 0, by decide, by decide, by decide⟩
    let event : Event := ⟨"n", ⟨"", "", "", "a", ""⟩, start, stop, Binary64.ofNat 1⟩
    let r : ExportRequest := ⟨⟨⟨"a", start, stop⟩, hour⟩, "store", "out.json"⟩
    let tree := Node.dir [(utf8 "store", .dir [(utf8 "account=a", .dir
      [(utf8 "date=9999-12-31", .dir [(utf8 "hour=23", .dir
        [(utf8 "x.json", .file (event.json ++ [Ascii.newline]))])])])])]
    tree.WellFormed ∧ start < stop ∧
      (FileStore.atRoot "store").read tree (partitionOffset "a" start ++ "x.json") =
        .ok [event] ∧
      ∃ report after, r.run tree = (.ok report, after) ∧
        after.get? [utf8 "out.json"] = some (.file (ArrayEncoder.document [])) ∧
        ArrayEncoder.document [] ≠ ArrayEncoder.document [event.json] := by
  intro start stop hour event r tree
  have hwf : tree.WellFormed := by
    simp only [tree, Node.WellFormed, Node.WellFormedEntries, and_true]
    decide
  let s : Schedule := ⟨"a", some start, stop, hour⟩
  have hschedule : r.plan.schedule = .ok s := by decide +kernel
  have hcheck : Path.check (utf8 r.store) = .ok () := by decide +kernel
  have hroot : tree.resolve (utf8 r.store) = .ok [utf8 "store"] :=
    Node.resolve_of_direct? hcheck (by decide +kernel)
  let key := "account=a/date=9999-12-31/hour=23/x.json"
  have hread : (FileStore.atRoot r.store).read tree key = .ok [event] := by
    have hdirect : tree.direct? [] (Path.names (utf8 r.store) ++ Path.names (utf8 key)) =
        some (utf8 "store" :: Path.names (utf8 key)) := by decide +kernel
    exact FileStore.read_of_direct? hcheck (by decide +kernel) (by decide +kernel)
      (by decide +kernel) hdirect rfl (by decide +kernel)
  have hevents : ((FileStore.atRoot r.store).view tree).eventsIn s.windows = .ok [] := by
    have hcollect : (FileStore.atRoot r.store).collect tree = .ok [key] := by
      rw [FileStore.collect_of_lengths hroot rfl (by decide +kernel)]
      decide +kernel
    have hnone : (s.windows.map fun w ↦ w.query.select [key]) = [[]] := by decide +kernel
    have hlists := FileStore.mapM_list_of_collect _ tree hcollect s.windows
    rw [hnone] at hlists
    exact congrArg (Except.bind · _) hlists
  have hkey : partitionOffset "a" start ++ "x.json" = key := by decide +kernel
  have hlast : (Path.names (utf8 r.output)).getLast? = some (utf8 "out.json") := by decide +kernel
  have hstage : tree.stage {} (utf8 r.output) = .ok _ :=
    Node.stage_of_direct? (by decide +kernel) (by decide +kernel : _ = some []) rfl
  obtain ⟨report, after, hrun⟩ := run_succeeds hwf Staging.lawful_default
    ⟨⟨rfl, rfl, by decide, nofun⟩, rfl⟩ hschedule (FileStore.create_of_resolve hroot rfl)
    hevents hstage (Staged.publish_of_direct? (l := [])
      (by decide +kernel) hlast (by decide +kernel) (by decide +kernel) (by decide +kernel)
      (fun es h ↦ by cases h) [])
  have h := run_of_schedule hwf Staging.lawful_default hschedule
  rw [hrun] at h
  obtain ⟨events, hsame, directory, last, hlast', hwalk, hfile, -⟩ := h
  obtain rfl : [] = events := Except.ok.inj (hevents.symm.trans hsame)
  obtain rfl : utf8 "out.json" = last := Option.some.inj (hlast.symm.trans hlast')
  obtain rfl : [] = directory := by
    have hdirect : tree.direct? [] ((Path.names (utf8 r.output)).dropLast ++ [Path.dot]) =
        some [] := by decide +kernel
    exact Except.ok.inj ((Node.walk_of_direct? hdirect Path.linkLimit).symm.trans hwalk)
  exact ⟨hwf, by decide, hkey ▸ hread, report, after, hrun, hfile, by decide +kernel⟩

end ExportRequest
end HourlyUsage
