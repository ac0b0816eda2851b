import HourlyUsage.Proofs.ExportLoop
import HourlyUsage.Proofs.PathLengths
import HourlyUsage.Proofs.WindowPositions

/-!
# Exports of one account

The offsets of a range begin with its account, so every key between them does.
An export therefore finds nothing of other accounts: stores that hold the same
objects for an account export it alike, whatever else is in them.  The one thing
that is shared is the enumeration of a file store, which fails as a whole.
-/

namespace HourlyUsage

open Text

/-! ## Keys of an account -/

/-- Is this a key of the account, by what it begins with? -/
def isKeyOf (account key : String) : Bool := (utf8 (accountPrefix account)).isPrefixOf (utf8 key)

theorem isKeyOf_iff {account key : String} :
    isKeyOf account key = true ↔ ∃ rest, key = accountPrefix account ++ rest := by
  rw [isKeyOf, List.isPrefixOf_iff_prefix, prefix_iff]

/-- A range between two hours of an account holds no key of another one. -/
theorem isKeyOf_of_contains {account key : String} {t u : Instant}
    (h : (Query.mk (partitionOffset account t) (partitionOffset account u)).contains key = true) :
    isKeyOf account key = true := by
  simp only [Query.contains, Bool.and_eq_true, Bool.not_eq_true', byteLt, decide_eq_true_eq,
    decide_eq_false_iff_not, utf8_partitionOffset] at h
  rw [isKeyOf, List.isPrefixOf_iff_prefix]
  exact prefix_of_between h.1 h.2

theorem Schedule.isKeyOf_of_mem_windows {account : String} {start stop : Instant}
    {step : Duration} {s : Schedule} (h : Schedule.ofRange account start stop step = .ok s)
    {w : Window} (hw : w ∈ s.windows) {key : String} (hkey : w.query.contains key = true) :
    isKeyOf account key = true := by
  obtain ⟨i, hi⟩ := List.mem_iff_getElem?.1 hw
  rw [(Schedule.isTile_of_ofRange h hi).query_eq] at hkey
  exact isKeyOf_of_contains hkey

/-! ## Objects of an account -/

/-- Two enumerations that find the same up to order, or fail alike. -/
def SameUpToOrder {ε α : Type} : Except ε (List α) → Except ε (List α) → Prop
  | .ok xs, .ok ys => xs.Perm ys
  | .error e, .error e' => e = e'
  | _, _ => False

namespace FileStore

/-- The objects of an account by their keys, each with what its file holds, as far as the store can
be enumerated. -/
def objectsOf (store : FileStore) (tree : Node) (account : String) :
    Except UsageError (List (String × Except IoError Bytes)) :=
  (store.collect tree).map fun keys ↦
    (keys.filter (isKeyOf account)).map fun key ↦ (key, tree.readFile (store.keyPath key))

section Alike

variable {a b : FileStore} {t u : Node} {account : String} {q : Query}
  (h : SameUpToOrder (a.objectsOf t account) (b.objectsOf u account))
  (hq : ∀ key, q.contains key = true → isKeyOf account key = true)

include h hq

theorem list_eq_of_objectsOf : a.list t q = b.list u q := by
  unfold list
  unfold objectsOf at h
  cases ha : a.collect t with
  | error e =>
      cases hb : b.collect u with
      | error e' =>
          rw [ha, hb] at h
          exact congrArg Except.error h
      | ok more =>
          rw [ha, hb] at h
          exact h.elim
  | ok keys =>
      cases hb : b.collect u with
      | error e' =>
          rw [ha, hb] at h
          exact h.elim
      | ok more =>
          rw [ha, hb] at h
          have hown : (keys.filter (isKeyOf account)).Perm (more.filter (isKeyOf account)) := by
            simpa [Function.comp_def] using List.Perm.map Prod.fst h
          have hwithin : ∀ l : List String,
              l.filter q.contains = (l.filter (isKeyOf account)).filter q.contains := by
            intro l
            rw [List.filter_filter]
            apply List.filter_congr
            intro key _
            cases hkey : q.contains key with
            | false => rfl
            | true => rw [hq key hkey, Bool.and_true]
          have hselect : q.select keys = q.select more := by
            apply Query.select_of_perm
            rw [hwithin keys, hwithin more]
            exact hown.filter _
          exact congrArg Except.ok hselect

theorem read_eq_of_objectsOf {keys : List String} (hkeys : a.list t q = .ok keys) {key : String}
    (hkey : key ∈ keys) : a.read t key = b.read u key := by
  obtain ⟨all, ha, rfl⟩ := (a.list_eq_ok t).1 hkeys
  obtain ⟨hall, hcontains⟩ := Query.mem_select.1 hkey
  unfold objectsOf at h
  cases hb : b.collect u with
  | error e' =>
      rw [ha, hb] at h
      exact h.elim
  | ok more =>
      rw [ha, hb] at h
      have hmem : (key, t.readFile (a.keyPath key)) ∈
          (all.filter (isKeyOf account)).map fun key ↦ (key, t.readFile (a.keyPath key)) :=
        List.mem_map.2 ⟨key, List.mem_filter.2 ⟨hall, hq key hcontains⟩, rfl⟩
      obtain ⟨key', -, hsame⟩ := List.mem_map.1 ((List.Perm.mem_iff h).1 hmem)
      obtain ⟨rfl, hread⟩ := Prod.mk.inj hsame
      simp only [read, hread]

end Alike

/-- The objects of an account with a single one, in a store that can be enumerated. -/
theorem objectsOf_of_single {store : FileStore} {tree : Node} {account key : String}
    {keys : List String} {content : Bytes} (hcollect : store.collect tree = .ok keys)
    (hkey : keys.filter (isKeyOf account) = [key])
    (hread : tree.readFile (store.keyPath key) = .ok content) :
    store.objectsOf tree account = .ok [(key, .ok content)] := by
  rw [objectsOf, hcollect]
  simp [Except.map, hkey, hread]

end FileStore

/-! ## Isolation -/

/-- A range of an account and all windows of it hold keys of that account alone.  So two file
stores that hold the same objects for the account, with whatever else, are exported alike: with
the same outcome, and with the same bytes on every sink.  A store that cannot be enumerated, for
whichever account, must fail as the other one does. -/
theorem export_isolated (account : String) {start stop : Instant} (hle : start ≤ stop) :
    (∃ q, Query.ofRange account start stop = .ok q ∧
      ∀ key, q.contains key = true → ∃ rest, key = accountPrefix account ++ rest) ∧
    ∀ step s, Schedule.ofRange account start stop step = .ok s →
      (∀ w ∈ s.windows, ∀ key, w.query.contains key = true →
        ∃ rest, key = accountPrefix account ++ rest) ∧
      ∀ (a b : FileStore) (t u : Node),
        SameUpToOrder (a.objectsOf t account) (b.objectsOf u account) →
        (∀ k enc, exportUsage (a.view t) (s.drop k) enc =
          exportUsage (b.view u) (s.drop k) enc) ∧
        ∀ sink, exportArray (a.view t) s sink = exportArray (b.view u) s sink := by
  refine ⟨⟨_, Query.ofRange_of_le account hle, fun key hkey ↦ ?_⟩, fun step s hs ↦ ⟨?_, ?_⟩⟩
  · exact isKeyOf_iff.1 (isKeyOf_of_contains hkey)
  · intro w hw key hkey
    exact isKeyOf_iff.1 (Schedule.isKeyOf_of_mem_windows hs hw hkey)
  · intro a b t u hsame
    have husage : ∀ k enc, exportUsage (a.view t) (s.drop k) enc =
        exportUsage (b.view u) (s.drop k) enc := by
      intro k enc
      have hown : ∀ w ∈ (s.drop k).windows, ∀ key, w.query.contains key = true →
          isKeyOf account key = true := by
        intro w hw key hkey
        rw [(Schedule.valid_of_ofRange hs).windows_drop k] at hw
        exact Schedule.isKeyOf_of_mem_windows hs (List.mem_of_mem_drop hw) hkey
      apply exportUsage_congr
      · exact fun w hw ↦ FileStore.list_eq_of_objectsOf hsame (hown w hw)
      · intro w hw keys hkeys key hkey
        exact FileStore.read_eq_of_objectsOf hsame (hown w hw) hkeys hkey
    refine ⟨husage, fun sink ↦ ?_⟩
    have hwhole := husage 0
    simp only [Schedule.drop] at hwhole
    simp only [exportArray, hwhole]

/-- A store with a neighbour whose name goes on from that of the account, and one with a neighbour
whose name ends before it. -/
theorem export_isolated_from_neighbours :
    let start : Instant := ⟨0, 0, by decide, by decide, by decide⟩
    let stop : Instant := ⟨3600, 0, by decide, by decide, by decide⟩
    let hour : Duration := ⟨3600, 0, by decide, by decide, by decide⟩
    let store : FileStore := ⟨"store", "json"⟩
    let key := "account=a/date=1970-01-01/x.json"
    let objects : Node := .dir [(utf8 "date=1970-01-01", .dir [(utf8 "x.json", .file [])])]
    let t : Node := .dir [(utf8 "store",
      .dir [(utf8 "account=a", objects), (utf8 "account=a2", objects)])]
    let u : Node := .dir [(utf8 "store",
      .dir [(utf8 "account=", objects), (utf8 "account=a", objects)])]
    start ≤ stop ∧ store.objectsOf t "a" = .ok [(key, .ok [])] ∧
      SameUpToOrder (store.objectsOf t "a") (store.objectsOf u "a") ∧
      ∃ s, Schedule.ofRange "a" start stop hour = .ok s ∧
        ∀ sink, exportArray (store.view t) s sink = exportArray (store.view u) s sink := by
  intro start stop hour store key objects t u
  have hle : start ≤ stop := by decide
  have hs := Schedule.ofRange_of_le "a" (by decide : 3600 ≤ hour.secs) hle
  have hcheck : Path.check (utf8 store.root) = .ok () := by decide +kernel
  have hroot_t : t.resolve (utf8 store.root) = .ok [utf8 "store"] :=
    Node.resolve_of_direct? hcheck (by decide +kernel)
  have hroot_u : u.resolve (utf8 store.root) = .ok [utf8 "store"] :=
    Node.resolve_of_direct? hcheck (by decide +kernel)
  have hnames : ∀ name ∈ Path.names (utf8 key), Path.IsEntryName name ∧ 0 ∉ name := by
    decide +kernel
  have hdirect_t : t.direct? [] (Path.names (utf8 store.root) ++ Path.names (utf8 key)) =
      some (utf8 "store" :: Path.names (utf8 key)) := by decide +kernel
  have hdirect_u : u.direct? [] (Path.names (utf8 store.root) ++ Path.names (utf8 key)) =
      some (utf8 "store" :: Path.names (utf8 key)) := by decide +kernel
  have hobjects_t : store.objectsOf t "a" = .ok [(key, .ok [])] := by
    apply FileStore.objectsOf_of_single
      (FileStore.collect_of_lengths hroot_t rfl (by decide +kernel)) (by decide +kernel)
    exact FileStore.readFile_keyPath hcheck (by decide +kernel) hnames (by decide +kernel)
      hdirect_t rfl
  have hobjects_u : store.objectsOf u "a" = .ok [(key, .ok [])] := by
    apply FileStore.objectsOf_of_single
      (FileStore.collect_of_lengths hroot_u rfl (by decide +kernel)) (by decide +kernel)
    exact FileStore.readFile_keyPath hcheck (by decide +kernel) hnames (by decide +kernel)
      hdirect_u rfl
  have hsame : SameUpToOrder (store.objectsOf t "a") (store.objectsOf u "a") := by
    rw [hobjects_t, hobjects_u]
    exact List.Perm.refl _
  have hisolated := (export_isolated "a" hle).2 hour _ hs
  exact ⟨hle, hobjects_t, hsame, _, hs, (hisolated.2 store store t u hsame).2⟩

/-- The objects of the account do not decide alone.  Two stores of one root hold the same single
object for the account, and its file is read alike, but in one of them the directory of another
account has a path that is too long, and no export from that store gets past its enumeration. -/
theorem export_fails_over_long_directory :
    let start : Instant := ⟨0, 0, by decide, by decide, by decide⟩
    let stop : Instant := ⟨3600, 0, by decide, by decide, by decide⟩
    let hour : Duration := ⟨3600, 0, by decide, by decide, by decide⟩
    let s : Schedule := ⟨"a", some start, stop, hour⟩
    let store : FileStore := ⟨"store" ++ String.ofList (List.replicate 4040 '/'), "json"⟩
    let key := "account=a/date=1970-01-01/hour=00/x.json"
    let account : Name × Node :=
      (utf8 "account=a", .dir [(utf8 "date=1970-01-01", .dir [(utf8 "hour=00",
        .dir [(utf8 "x.json", .file [])])])])
    let other : Name × Node := (utf8 "account=" ++ List.replicate 60 Ascii.lowerB, .dir [])
    let t : Node := .dir [(utf8 "store", .dir [account])]
    let u : Node := .dir [(utf8 "store", .dir [account, other])]
    (FileStore.keys "json" (.dir [account])).filter (isKeyOf "a") = [key] ∧
      (FileStore.keys "json" (.dir [account, other])).filter (isKeyOf "a") = [key] ∧
      t.readFile (store.keyPath key) = u.readFile (store.keyPath key) ∧
      Schedule.ofRange "a" start stop hour = .ok s ∧
      ∀ enc, exportUsage (store.view t) s enc = (.ok ⟨1, 1, 0⟩, enc) ∧
        exportUsage (store.view u) s enc = (.error (.io .nameTooLong), enc) := by
  intro start stop hour s store key account other t u
  have hs : Schedule.ofRange "a" start stop hour = .ok s := by decide +kernel
  have hroot : utf8 store.root = utf8 "store" ++ List.replicate 4040 Ascii.slash := by
    rw [utf8_append]
    exact congrArg _ (charBytes_replicate_slash 4040)
  have hlength : (utf8 store.root).length = 4045 := by
    rw [hroot, List.length_append, List.length_replicate]
    rfl
  have hsteps : Path.steps (utf8 store.root) = [utf8 "store", Path.dot] := by
    rw [hroot, Path.steps_append_slashes]
    decide
  have hlimit : Path.pathLimit = 4095 := rfl
  have hcheck : Path.check (utf8 store.root) = .ok () := by
    refine Path.check_eq_ok_iff.2 ⟨fun hzero ↦ ?_, List.ne_nil_of_length_pos (by omega), by omega⟩
    rw [hroot] at hzero
    rcases List.mem_append.1 hzero with hzero | hzero
    · exact absurd hzero (by decide)
    · cases List.eq_of_mem_replicate hzero
  have hroot_t : t.resolve (utf8 store.root) = .ok [utf8 "store"] := by
    apply Node.resolve_of_direct? hcheck
    rw [hsteps]
    decide +kernel
  have hroot_u : u.resolve (utf8 store.root) = .ok [utf8 "store"] := by
    apply Node.resolve_of_direct? hcheck
    rw [hsteps]
    decide +kernel
  have hkeys : FileStore.keys "json" (.dir [account]) = [key] := by decide +kernel
  have hkeys' : FileStore.keys "json" (.dir [account, other]) = [key] := by decide +kernel
  have hown : isKeyOf "a" key = true := by decide +kernel
  have hcollect_t : store.collect t = .ok [key] := by
    have hlengths : ∀ d ∈ (Node.dir [account]).directories,
        (d.map fun name ↦ name.length + 1).sum ≤ 50 := by decide +kernel
    rw [FileStore.collect_of_lengths hroot_t rfl fun d hd ↦ ?_]
    · exact congrArg Except.ok hkeys
    · have := hlengths d hd
      omega
  have hcollect_u : store.collect u = .error (.io .nameTooLong) := by
    have hmem : [other.1] ∈ (Node.dir [account, other]).directories := by decide +kernel
    have hkeyOf : (keyOf? [other.1]).isSome = true := by decide +kernel
    apply FileStore.collect_of_long_directory hroot_u rfl hmem hkeyOf
    have hlong := (Path.length_join (utf8 store.root) other.1).1
    have hother : other.1.length = 68 := by decide +kernel
    rw [List.foldl_cons, List.foldl_nil]
    omega
  have hnames : ∀ name ∈ Path.names (utf8 key), Path.IsEntryName name ∧ 0 ∉ name := by
    decide +kernel
  have hrootNames : Path.names (utf8 store.root) = [utf8 "store"] := by
    rw [hroot, Path.names_append_slashes]
    decide +kernel
  have hroom : (utf8 store.root).length +
      ((Path.names (utf8 key)).map fun name ↦ name.length + 1).sum ≤ Path.pathLimit := by
    have hsum : ((Path.names (utf8 key)).map fun name ↦ name.length + 1).sum = 41 := by
      decide +kernel
    omega
  have hdirect_t : t.direct? [] (Path.names (utf8 store.root) ++ Path.names (utf8 key)) =
      some (utf8 "store" :: Path.names (utf8 key)) := by
    rw [hrootNames]
    decide +kernel
  have hdirect_u : u.direct? [] (Path.names (utf8 store.root) ++ Path.names (utf8 key)) =
      some (utf8 "store" :: Path.names (utf8 key)) := by
    rw [hrootNames]
    decide +kernel
  have hread_t : t.readFile (store.keyPath key) = .ok [] :=
    FileStore.readFile_keyPath hcheck (by decide +kernel) hnames hroom hdirect_t rfl
  have hread_u : u.readFile (store.keyPath key) = .ok [] :=
    FileStore.readFile_keyPath hcheck (by decide +kernel) hnames hroom hdirect_u rfl
  refine ⟨by rw [hkeys]; simp [hown], by rw [hkeys']; simp [hown], by rw [hread_t, hread_u], hs,
    fun enc ↦ ⟨?_, ?_⟩⟩
  · have hselect : (Window.between "a" start.truncateToHour
        stop.truncateToHour).query.select [key] = [key] := by decide +kernel
    have hread : (store.view t).read key = .ok [] := by
      simp only [FileStore.view, FileStore.read, hread_t]
      rfl
    have hwindows : s.windows.length = 1 := by decide +kernel
    have hexport : exportObjects (store.view t) [key] enc = (.ok 0, enc) := by
      rw [exportObjects, hread]
      rfl
    rw [exportUsage_view_of_collect store t hs (by decide +kernel) (by decide +kernel) hcollect_t,
      hselect, hwindows, hexport]
    rfl
  · rw [exportUsage_view_of_error store u hs hcollect_u, if_neg (by decide)]

end HourlyUsage
