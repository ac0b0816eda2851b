import HourlyUsage.ObjectStore
import HourlyUsage.Proofs.PathWalk
import Mathlib.Data.List.Nodup

/-!
# Stores beside a new file

In a tree whose directories hold distinct entries under proper names, the key
of an object leads back to its file.  A new file whose name has no extension is
no object, so a store lists the same keys with it and reads the same events for
each of them.
-/

namespace HourlyUsage

open Text

/-! ## Names and paths -/

namespace Path

/-- The names that a directory can give to its entries. -/
def IsEntryName (name : Name) : Prop :=
  name ≠ [] ∧ Ascii.slash ∉ name ∧ name ≠ dot ∧ name ≠ dotDot

instance (name : Name) : Decidable (IsEntryName name) :=
  inferInstanceAs (Decidable (name ≠ [] ∧ Ascii.slash ∉ name ∧ name ≠ dot ∧ name ≠ dotDot))

variable {name : Name} {l : List Name}

theorem names_append_slash (p q : Bytes) : names (p ++ Ascii.slash :: q) = names p ++ names q := by
  simp only [names, List.splitOn_append_cons_self, List.filter_append]

theorem names_of_isEntryName (h : IsEntryName name) : names name = [name] := by
  simp [names, List.splitOn_eq_singleton h.2.1, h.1]

theorem names_join (path : Bytes) (h : IsEntryName name) :
    names (join path name) = names path ++ [name] := by
  unfold join
  split
  · next hpath =>
    rcases hpath with hempty | hslash
    · rw [List.isEmpty_iff.1 hempty, List.nil_append, names_of_isEntryName h]
      rfl
    · obtain ⟨front, rfl⟩ : ∃ front, path = front ++ [Ascii.slash] := by
        rw [endsInSlash, beq_iff_eq, List.getLast?_eq_some_iff] at hslash
        exact hslash
      rw [List.append_assoc, List.singleton_append, names_append_slash, names_append_slash,
        names_of_isEntryName h]
      simp [names]
  · rw [names_append_slash, names_of_isEntryName h]

theorem endsInSlash_join (path : Bytes) (h : IsEntryName name) :
    endsInSlash (join path name) = false := by
  obtain ⟨front, last, rfl⟩ := (List.eq_nil_or_concat name).resolve_left h.1
  have hlast : last ≠ Ascii.slash := by
    rintro rfl
    exact h.2.1 (by simp)
  have hsnoc : ∀ p : Bytes, endsInSlash (p ++ [last]) = false := by simp [endsInSlash, hlast]
  rw [join, List.concat_eq_append]
  split
  · rw [← List.append_assoc]
    exact hsnoc _
  · rw [← List.cons_append, ← List.append_assoc]
    exact hsnoc _

theorem names_foldl_join (path : Bytes) (h : ∀ name ∈ l, IsEntryName name) :
    names (l.foldl join path) = names path ++ l := by
  induction l generalizing path with
  | nil => simp
  | cons name l ih =>
      rw [List.foldl_cons, ih _ fun n hn ↦ h n (List.mem_cons_of_mem _ hn),
        names_join path (h name (List.mem_cons_self ..)), List.append_assoc, List.singleton_append]

/-- The steps to what lies below a directory are those of its path and the names from there. -/
theorem steps_foldl_join (path : Bytes) (hl : l ≠ []) (h : ∀ name ∈ l, IsEntryName name) :
    steps (l.foldl join path) = names path ++ l := by
  have hslash : endsInSlash (l.foldl join path) = false := by
    obtain ⟨front, last, rfl⟩ := (List.eq_nil_or_concat l).resolve_left hl
    rw [List.concat_eq_append, List.foldl_append]
    exact endsInSlash_join _ (h last (by simp))
  rw [steps, hslash, if_neg Bool.false_ne_true, names_foldl_join path h]

end Path

/-! ## Extensions -/

/-- The last point of a name makes an extension of what follows it, unless it is in front. -/
theorem extension?_append_point (stem : Bytes) {rest : Bytes} (h : Ascii.point ∉ rest) :
    extension? (stem ++ Ascii.point :: rest) = if stem = [] then none else some rest := by
  have hall : ∀ b ∈ rest.reverse, (b != Ascii.point) = true := by
    intro b hb
    rw [bne_iff_ne]
    rintro rfl
    exact h (List.mem_reverse.1 hb)
  have hafter : ((stem ++ Ascii.point :: rest).reverse.takeWhile fun b ↦ b != Ascii.point) =
      rest.reverse := by
    rw [List.reverse_append, List.reverse_cons, List.append_assoc,
      List.takeWhile_append_of_pos hall]
    simp
  have hcontains : (stem ++ Ascii.point :: rest).contains Ascii.point = true := by simp
  have hlonger : rest.length + 1 < (stem ++ Ascii.point :: rest).length ↔ stem ≠ [] := by
    rw [List.length_append, List.length_cons, ← List.length_pos_iff]
    omega
  simp only [extension?, if_pos hcontains, hafter, List.reverse_reverse, hlonger]
  split <;> simp_all

theorem extension?_eq_some_iff {name extension : Bytes} :
    extension? name = some extension ↔
      ∃ stem, stem ≠ [] ∧ Ascii.point ∉ extension ∧ name = stem ++ Ascii.point :: extension := by
  constructor
  · intro h
    by_cases hmem : Ascii.point ∈ name.reverse
    · obtain ⟨behind, front, hsplit, hbehind⟩ := List.eq_append_cons_of_mem hmem
      have hpoint : Ascii.point ∉ behind.reverse := mt List.mem_reverse.1 hbehind
      obtain rfl : name = front.reverse ++ Ascii.point :: behind.reverse := by
        rw [← List.reverse_reverse name, hsplit]
        simp
      rw [extension?_append_point _ hpoint] at h
      obtain ⟨hne, h⟩ := Option.ite_none_left_eq_some.1 h
      obtain rfl := Option.some.inj h
      exact ⟨_, hne, hpoint, rfl⟩
    · have hnone : ¬ name.contains Ascii.point = true := by simpa using hmem
      rw [extension?, if_neg hnone] at h
      cases h
  · rintro ⟨stem, hne, hpoint, rfl⟩
    rw [extension?_append_point stem hpoint, if_neg hne]

/-! ## Keys -/

theorem utf8_intercalate_slash (names : List String) :
    utf8 (String.intercalate "/" names) = List.intercalate [Ascii.slash] (names.map utf8) := by
  induction names with
  | nil => simp [utf8]
  | cons name names ih =>
      cases names with
      | nil => simp
      | cons next names =>
          have hslash : utf8 "/" = [Ascii.slash] := by decide
          rw [String.intercalate_cons_cons, utf8_append, utf8_append, ih, hslash]
          simp only [List.map_cons, List.intercalate_cons_cons]

theorem map_utf8_of_mapM {location : List Name} {names : List String}
    (h : location.mapM ofUtf8? = some names) : names.map utf8 = location := by
  induction location generalizing names with
  | nil => simpa using h.symm
  | cons name location ih =>
      rw [List.mapM_cons] at h
      obtain ⟨first, hfirst, h⟩ := Option.bind_eq_some_iff.1 h
      obtain ⟨others, hothers, h⟩ := Option.bind_eq_some_iff.1 h
      obtain rfl := Option.some.inj h
      rw [List.map_cons, utf8_of_ofUtf8? hfirst, ih hothers]

/-- The names in a key are the location that it stands for. -/
theorem names_of_keyOf? {location : List Name} {key : String} (hkey : keyOf? location = some key)
    (hne : location ≠ []) (h : ∀ name ∈ location, Path.IsEntryName name) :
    Path.names (utf8 key) = location := by
  obtain ⟨names, hnames, rfl⟩ := Option.map_eq_some_iff.1 hkey
  rw [Path.names, utf8_intercalate_slash, map_utf8_of_mapM hnames,
    List.splitOn_intercalate Ascii.slash (fun name hname ↦ (h name hname).2.1) hne,
    List.filter_eq_self]
  intro name hname
  simpa using (h name hname).1

/-! ## Well-formed trees -/

namespace Node

mutual

/-- Do all directories at and below a node hold distinct entries under proper names? -/
def WellFormed : Node → Prop
  | .dir es => (es.map Prod.fst).Nodup ∧ WellFormedEntries es
  | _ => True

def WellFormedEntries : List (Name × Node) → Prop
  | [] => True
  | (name, node) :: es => Path.IsEntryName name ∧ node.WellFormed ∧ WellFormedEntries es

end

mutual

instance decidableWellFormed : ∀ node : Node, Decidable node.WellFormed
  | .file _ => isTrue trivial
  | .link _ => isTrue trivial
  | .dir es =>
    have := decidableWellFormedEntries es
    inferInstanceAs (Decidable ((es.map Prod.fst).Nodup ∧ WellFormedEntries es))

instance decidableWellFormedEntries : ∀ es : List (Name × Node), Decidable (WellFormedEntries es)
  | [] => isTrue trivial
  | (name, node) :: es =>
    have := decidableWellFormed node
    have := decidableWellFormedEntries es
    inferInstanceAs (Decidable (Path.IsEntryName name ∧ node.WellFormed ∧ WellFormedEntries es))

end

end Node

theorem Entries.find?_of_not_mem {name : Name} {es : Entries} (h : name ∉ es.map Prod.fst) :
    find? name es = none := by
  induction es with
  | nil => rfl
  | cons e es ih =>
      obtain ⟨n, node⟩ := e
      rw [List.map_cons, List.mem_cons, not_or] at h
      rw [find?, if_neg (Ne.symm h.1), ih h.2]

namespace Node

theorem WellFormedEntries.of_mem {es : Entries} (h : WellFormedEntries es) {e : Name × Node}
    (he : e ∈ es) : Path.IsEntryName e.1 ∧ e.2.WellFormed := by
  induction es with
  | nil => cases he
  | cons first es ih =>
      obtain ⟨hname, hnode, hes⟩ := h
      rcases List.mem_cons.1 he with rfl | he
      · exact ⟨hname, hnode⟩
      · exact ih hes he

theorem WellFormedEntries.of_find? {name : Name} {node : Node} {es : Entries}
    (h : WellFormedEntries es) (hfind : Entries.find? name es = some node) : node.WellFormed :=
  (h.of_mem (Entries.mem_of_find? hfind)).2

theorem WellFormed.get? {tree node : Node} {l : List Name} (h : tree.WellFormed)
    (hnode : tree.get? l = some node) : node.WellFormed := by
  induction l generalizing tree with
  | nil => exact Option.some.inj hnode ▸ h
  | cons name l ih =>
      obtain ⟨es, child, rfl, hchild, hrest⟩ := get?_cons_eq_some hnode
      exact ih (h.2.of_find? hchild) hrest

theorem WellFormed.isEntryName_of_get? {tree node : Node} {l : List Name} (h : tree.WellFormed)
    (hnode : tree.get? l = some node) : ∀ name ∈ l, Path.IsEntryName name := by
  induction l generalizing tree with
  | nil => exact nofun
  | cons name l ih =>
      obtain ⟨es, child, rfl, hchild, hrest⟩ := get?_cons_eq_some hnode
      obtain ⟨hname, hwf⟩ := h.2.of_mem (Entries.mem_of_find? hchild)
      exact List.forall_mem_cons.2 ⟨hname, ih hwf hrest⟩

/-- The files that a well-formed tree enumerates are those found at their locations. -/
theorem WellFormed.mem_files_iff {node : Node} (h : node.WellFormed) {l : List Name}
    {content : Bytes} : (l, content) ∈ node.files ↔ node.get? l = some (.file content) := by
  induction l generalizing node with
  | nil => cases node <;> simp [files, filesOf_eq_flatMap, Node.get?, eq_comm]
  | cons name l ih =>
      cases node with
      | file content => simp [files, Node.get?]
      | link target => simp [files, Node.get?]
      | dir es =>
          rw [files, mem_filesOf_iff h.1, Node.get?, Option.bind_eq_some_iff]
          exact exists_congr fun child ↦ and_congr_right fun hchild ↦ ih (h.2.of_find? hchild)

/-- The directories that a well-formed tree enumerates are those found at their locations. -/
theorem WellFormed.mem_directories_iff {node : Node} (h : node.WellFormed) {l : List Name} :
    l ∈ node.directories ↔ ∃ es, node.get? l = some (.dir es) := by
  induction l generalizing node with
  | nil => cases node <;> simp [directories, Node.get?]
  | cons name l ih =>
      cases node with
      | file content => simp [directories, Node.get?]
      | link target => simp [directories, Node.get?]
      | dir es =>
          rw [directories, List.mem_cons, or_iff_right (List.cons_ne_nil name l),
            mem_directoriesOf_iff h.1]
          simp only [Node.get?, Option.bind_eq_some_iff]
          rw [exists_comm]
          refine exists_congr fun child ↦ ?_
          rw [exists_and_left]
          exact and_congr_right fun hchild ↦ ih (h.2.of_find? hchild)

mutual

/-- No two files of a well-formed tree have one location. -/
theorem WellFormed.nodup_files :
    ∀ {node : Node}, node.WellFormed → (node.files.map Prod.fst).Nodup
  | .file _, _ => by simp [files]
  | .link _, _ => List.nodup_nil
  | .dir _, h => h.2.nodup_filesOf h.1

theorem WellFormedEntries.nodup_filesOf :
    ∀ {es : Entries}, WellFormedEntries es → (es.map Prod.fst).Nodup →
      ((filesOf es).map Prod.fst).Nodup
  | [], _, _ => List.nodup_nil
  | (name, node) :: es, ⟨_, hnode, hes⟩, hdistinct => by
      rw [List.map_cons, List.nodup_cons] at hdistinct
      rw [filesOf, List.map_append, List.map_map]
      refine List.Nodup.append ?_ (hes.nodup_filesOf hdistinct.2) ?_
      · have hbelow := hnode.nodup_files.map (List.cons_injective (a := name))
        rwa [List.map_map] at hbelow
      · intro l hfirst hothers
        obtain ⟨f, -, rfl⟩ := List.mem_map.1 hfirst
        obtain ⟨⟨l, content⟩, hg, rfl⟩ := List.mem_map.1 hothers
        obtain ⟨child, hchild, -⟩ := (mem_filesOf_iff hdistinct.2).1 hg
        exact hdistinct.1 (List.mem_map.2 ⟨_, Entries.mem_of_find? hchild, rfl⟩)

end

end Node

/-! ## A new file beside the objects -/

namespace AddsFile

variable {name : Name} {content : Bytes} {l : List Name} {a b : Node}

theorem keys_eq (h : AddsFile name content l a b) (hplain : extension? name = none)
    (extension : String) : FileStore.keys extension b = FileStore.keys extension a := by
  obtain ⟨fs, gs, ha, hb⟩ := h.exists_files_eq
  have hnew : isObject extension (l ++ [name]) = false := by simp [isObject, hplain]
  simp [FileStore.keys, ha, hb, hnew]

theorem isListable_eq (h : AddsFile name content l a b) (root : String) :
    FileStore.isListable root b = FileStore.isListable root a := by
  rw [FileStore.isListable, FileStore.isListable, h.directories_eq]

/-- A path that did not miss the new file resolves as it did. -/
theorem resolve_eq (h : AddsFile name content l a b) {path : Bytes}
    (hfound : a.walk Path.linkLimit [] (Path.steps path) ≠ .error .notFound) :
    b.resolve path = a.resolve path := by
  rcases h.walk_eq Path.linkLimit [] (Path.steps path) with heq | ⟨hmissed, -⟩
  · rw [Node.resolve, Node.resolve, heq]
  · exact absurd hmissed hfound

end AddsFile

theorem Node.resolve_eq_ok {tree : Node} {path : Bytes} {location : List Name} :
    tree.resolve path = .ok location ↔
      Path.check path = .ok () ∧ tree.walk Path.linkLimit [] (Path.steps path) = .ok location := by
  unfold resolve
  cases hcheck : Path.check path <;> simp [bind, Except.bind]

theorem Node.walk_of_resolve {tree : Node} {path : Bytes} {location : List Name}
    (h : tree.resolve path = .ok location) :
    tree.walk Path.linkLimit [] (Path.steps path) = .ok location := (resolve_eq_ok.1 h).2

namespace FileStore

variable {name : Name} {content : Bytes} {l : List Name} {a b : Node} {store : FileStore}

/-- What a store that was opened was found to be. -/
theorem create_spec {root extension : String} (h : create a root extension = .ok store) :
    store = ⟨root, extension⟩ ∧ ∃ location es, a.resolve (utf8 store.root) = .ok location ∧
      a.get? location = some (.dir es) := by
  unfold create at h
  cases hdir : a.isDirectory (utf8 root) with
  | error e => simp [hdir] at h
  | ok found =>
      cases found with
      | false => simp [hdir] at h
      | true =>
          simp only [hdir, Except.ok.injEq] at h
          subst h
          refine ⟨rfl, ?_⟩
          unfold Node.isDirectory at hdir
          cases hroot : a.resolve (utf8 root) with
          | error e => simp [hroot, bind, Except.bind] at hdir
          | ok location =>
              simp only [hroot, bind, Except.bind] at hdir
              rcases hnode : a.get? location with _ | ⟨_ | _ | es⟩
              · simp [hnode, pure, Except.pure] at hdir
              · simp [hnode, pure, Except.pure] at hdir
              · simp [hnode, pure, Except.pure] at hdir
              · exact ⟨location, es, rfl, hnode⟩

theorem create_of_resolve {root extension : String} {location : List Name} {es : Entries}
    (hroot : a.resolve (utf8 root) = .ok location) (hdir : a.get? location = some (.dir es)) :
    create a root extension = .ok ⟨root, extension⟩ := by
  simp only [create, Node.isDirectory, hroot, bind, Except.bind, hdir]
  rfl

theorem collect_of_resolve {location : List Name}
    (hroot : a.resolve (utf8 store.root) = .ok location) :
    store.collect a =
      match a.get? location with
      | some (.dir es) =>
        if isListable store.root (.dir es) then .ok (keys store.extension (.dir es))
        else .error (.io .nameTooLong)
      | _ => .error (.io .notADirectory) := by
  have hok : (Except.ok location).mapError UsageError.io = .ok location := rfl
  simp only [collect, hroot, hok, bind, Except.bind]
  rcases a.get? location with _ | ⟨_ | _ | es⟩
  · rfl
  · rfl
  · rfl
  · cases hlist : isListable store.root (.dir es) <;> simp [hlist] <;> rfl

/-- What a store that collects its keys was found to be. -/
theorem collect_spec {keys : List String} (h : store.collect a = .ok keys) :
    ∃ location es, a.resolve (utf8 store.root) = .ok location ∧
      a.get? location = some (.dir es) ∧ keys = FileStore.keys store.extension (.dir es) := by
  cases hroot : a.resolve (utf8 store.root) with
  | error e =>
      unfold collect at h
      rw [hroot] at h
      cases h
  | ok location =>
      rw [collect_of_resolve hroot] at h
      rcases hnode : a.get? location with _ | ⟨_ | _ | es⟩ <;> simp only [hnode] at h
      · cases h
      · cases h
      · cases h
      · split at h
        · exact ⟨location, es, rfl, hnode, (Except.ok.inj h).symm⟩
        · cases h

/-- A new file without an extension adds no key. -/
theorem collect_of_addsFile (h : AddsFile name content l a b) (hplain : extension? name = none)
    {location : List Name} (hroot : a.resolve (utf8 store.root) = .ok location) :
    store.collect b = store.collect a := by
  have hrootb : b.resolve (utf8 store.root) = .ok location := by
    rw [h.resolve_eq (by simp [Node.walk_of_resolve hroot]), hroot]
  rw [collect_of_resolve hroot, collect_of_resolve hrootb]
  rcases hnode : a.get? location with _ | node
  · rcases h.get?_of_get?_eq_none hnode with hb | hl
    · simp only [hb]
    · simp only [hl, h.get?_new]
  · obtain ⟨node', hnode', rfl | ⟨l', hbelow⟩⟩ := h.get?_of_get? hnode
    · rw [hnode']
    · obtain ⟨es, es', rfl, rfl⟩ : ∃ es es', node = .dir es ∧ node' = .dir es' := by
        cases hbelow <;> exact ⟨_, _, rfl, rfl⟩
      simp only [hnode', hbelow.isListable_eq, hbelow.keys_eq hplain]

/-- The path of a file below a directory leads to the file, unless a name on it is too long. -/
theorem walk_foldl_join {path content : Bytes} {location names : List Name} {es : Entries}
    (hpath : a.resolve path = .ok location) (hdir : a.get? location = some (.dir es))
    (hfile : (Node.dir es).get? names = some (.file content)) (hne : names ≠ [])
    (hnames : ∀ name ∈ names, Path.IsEntryName name) :
    a.walk Path.linkLimit [] (Path.steps (names.foldl Path.join path)) = .ok (location ++ names) ∨
      a.walk Path.linkLimit [] (Path.steps (names.foldl Path.join path)) = .error .nameTooLong ∧
        ∃ name ∈ names, Path.nameLimit < name.length := by
  have hat : a.get? (location ++ names) = some (.file content) := by
    rw [Node.get?_append, hdir, Option.bind_some, hfile]
  have hwalk : a.walk Path.linkLimit [] (Path.names path) = .ok location := by
    have hwalk := Node.walk_of_resolve hpath
    unfold Path.steps at hwalk
    split at hwalk
    · exact (Node.walk_dot_eq_ok hwalk).1
    · exact hwalk
  -- From the directory on, the path is the location itself.
  obtain ⟨fewer, happend⟩ := Node.walk_append a Path.linkLimit [] (Path.names path)
  rw [Path.steps_foldl_join _ hne hnames, happend, hwalk]
  rw [← List.reverse_reverse location] at hat
  have hends : a.walk fewer location.reverse names = .ok (location.reverse.reverse ++ names) ∨
      a.walk fewer location.reverse names = .error .nameTooLong ∧
        ∃ name ∈ names, Path.nameLimit < name.length :=
    Node.walk_of_get? (fun n hn ↦ (hnames n hn).2.2) hat (by simp)
  rwa [List.reverse_reverse] at hends

/-- A key is listed for a file, and its path leads to that file or is refused. -/
theorem walk_keyPath (hwf : a.WellFormed) {keys : List String} (hkeys : store.collect a = .ok keys)
    {key : String} (hkey : key ∈ keys) :
    ∃ location content, a.get? location = some (.file content) ∧
      (a.walk Path.linkLimit [] (Path.steps (store.keyPath key)) = .ok location ∨
        a.walk Path.linkLimit [] (Path.steps (store.keyPath key)) = .error .nameTooLong) := by
  obtain ⟨root, es, hroot, hdir, rfl⟩ := collect_spec hkeys
  obtain ⟨f, hf, hkeyOf⟩ := List.mem_filterMap.1 hkey
  obtain ⟨-, hkeyOf⟩ := Option.ite_none_right_eq_some.1 hkeyOf
  have hes := hwf.get? hdir
  have hfile := hes.mem_files_iff.1 hf
  have hnames := hes.isEntryName_of_get? hfile
  have hne : f.1 ≠ [] := by
    intro hnil
    rw [hnil] at hfile
    cases hfile
  have hat : a.get? (root ++ f.1) = some (.file f.2) := by
    rw [Node.get?_append, hdir, Option.bind_some, hfile]
  refine ⟨root ++ f.1, f.2, hat, ?_⟩
  rw [keyPath, names_of_keyOf? hkeyOf hne hnames]
  exact (walk_foldl_join hroot hdir hfile hne hnames).imp_right And.left

theorem readFile_of_addsFile (h : AddsFile name content l a b) (hwf : a.WellFormed)
    {keys : List String} (hkeys : store.collect a = .ok keys) {key : String} (hkey : key ∈ keys) :
    b.readFile (store.keyPath key) = a.readFile (store.keyPath key) := by
  obtain ⟨location, content, hat, hends⟩ := walk_keyPath hwf hkeys hkey
  have hresolve : b.resolve (store.keyPath key) = a.resolve (store.keyPath key) :=
    h.resolve_eq (by rcases hends with hends | hends <;> simp [hends])
  unfold Node.readFile
  rw [hresolve]
  cases hfound : a.resolve (store.keyPath key) with
  | error e => rfl
  | ok found =>
      rw [Node.walk_of_resolve hfound] at hends
      obtain rfl : found = location := by simpa using hends
      obtain ⟨node', hnode', hgains⟩ := h.get?_of_get? hat
      obtain rfl : node' = .file content := by
        rcases hgains.eq_or_dir with h | ⟨_, _, h, -⟩
        · exact h
        · cases h
      simp only [bind, Except.bind, hat, hnode']

theorem read_of_addsFile (h : AddsFile name content l a b) (hwf : a.WellFormed)
    {keys : List String} (hkeys : store.collect a = .ok keys) {key : String} (hkey : key ∈ keys) :
    store.read b key = store.read a key := by
  rw [read, read, readFile_of_addsFile h hwf hkeys hkey]

end FileStore
end HourlyUsage
