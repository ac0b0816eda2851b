import HourlyUsage.Proofs.EnumerationOrder
import HourlyUsage.Proofs.PathLengths
import HourlyUsage.Proofs.PrintedText

/-!
# What a store lists

A store lists the files below its root that have its extension, each by the names that lead to it
through directories alone.  Keys are listed once, in byte order, and each key leads back to the
file that it was made of.  Both hold as far as the system takes the paths: one directory with a
path that is too long fails every listing, and one file with such a path cannot be read.
-/

namespace HourlyUsage

open Text

/-! ## Names that a file system stores -/

namespace Node

mutual

/-- The names of all entries at and below a node. -/
def entryNames : Node → List Name
  | .dir es => entryNamesOf es
  | _ => []

def entryNamesOf : List (Name × Node) → List Name
  | [] => []
  | (name, node) :: es => name :: (node.entryNames ++ entryNamesOf es)

end

theorem mem_entryNamesOf_of_mem {es : Entries} {e : Name × Node} (he : e ∈ es) {name : Name}
    (h : name = e.1 ∨ name ∈ e.2.entryNames) : name ∈ entryNamesOf es := by
  induction es with
  | nil => cases he
  | cons first es ih =>
      rw [entryNamesOf, List.mem_cons, List.mem_append]
      rcases List.mem_cons.1 he with rfl | he
      · exact h.imp_right .inl
      · exact .inr (.inr (ih he))

theorem mem_entryNames_of_get? {node found : Node} {l : List Name} (h : node.get? l = some found) :
    ∀ name ∈ l, name ∈ node.entryNames := by
  induction l generalizing node with
  | nil => exact nofun
  | cons first l ih =>
      obtain ⟨es, child, rfl, hchild, hrest⟩ := get?_cons_eq_some h
      have hentry := Entries.mem_of_find? hchild
      refine List.forall_mem_cons.2 ⟨mem_entryNamesOf_of_mem hentry (.inl rfl), fun name hname ↦ ?_⟩
      exact mem_entryNamesOf_of_mem hentry (.inr (ih hrest name hname))

/-- The tree is one that a file system can hold: directories have distinct entries, and the names
of these are of some bytes, not of too many, with no slash and no zero among them, and not `.` or
`..`. -/
structure Storable (tree : Node) : Prop where
  wellFormed : tree.WellFormed
  names_noNul : ∀ name ∈ tree.entryNames, 0 ∉ name
  names_length : ∀ name ∈ tree.entryNames, name.length ≤ Path.nameLimit

end Node

/-! ## Keys -/

/-- The name has this extension behind a stem. -/
def HasExtension (extension name : String) : Prop :=
  ∃ stem, stem ≠ "" ∧ '.' ∉ extension.toList ∧ name = stem ++ "." ++ extension

theorem hasExtension_iff {extension name : String} :
    HasExtension extension name ↔ extension? (utf8 name) = some (utf8 extension) := by
  have hpoint : Ascii.point ∈ utf8 extension ↔ '.' ∈ extension.toList := by
    rw [utf8_eq_charBytes]
    exact @mem_charBytes_iff '.' (by decide) extension.toList
  have hjoin : ∀ stem : String, utf8 (stem ++ "." ++ extension) =
      utf8 stem ++ Ascii.point :: utf8 extension := by
    have hbyte : utf8 "." = [Ascii.point] := by decide
    intro stem
    rw [utf8_append, utf8_append, hbyte, List.append_assoc, List.singleton_append]
  rw [extension?_eq_some_iff, hpoint]
  constructor
  · rintro ⟨stem, hne, hplain, rfl⟩
    exact ⟨utf8 stem, fun h ↦ hne (utf8_inj h), hplain, hjoin stem⟩
  · rintro ⟨bytes, hne, hplain, hname⟩
    have hchars := (utf8_eq_charBytes name).symm.trans hname
    obtain ⟨stem, rfl⟩ := IsText.of_append_cons (by decide) hchars
    refine ⟨stem, ?_, hplain, utf8_inj (hname.trans (hjoin stem).symm)⟩
    rintro rfl
    exact hne rfl

theorem mapM_ofUtf8?_map (names : List String) : (names.map utf8).mapM ofUtf8? = some names := by
  induction names with
  | nil => rfl
  | cons name names ih => rw [List.map_cons, List.mapM_cons, ofUtf8?_utf8, ih]; rfl

theorem keyOf?_eq_some_iff {location : List Name} {key : String} :
    keyOf? location = some key ↔
      ∃ names : List String, location = names.map utf8 ∧ key = String.intercalate "/" names := by
  constructor
  · intro h
    obtain ⟨names, hnames, rfl⟩ := Option.map_eq_some_iff.1 h
    exact ⟨names, (map_utf8_of_mapM hnames).symm, rfl⟩
  · rintro ⟨names, rfl, rfl⟩
    rw [keyOf?, mapM_ofUtf8?_map, Option.map_some]

namespace FileStore

/-- The key is made of the names that lead from the root of a store, through directories alone, to
a file whose name has the extension of the store. -/
def IsObjectKey (extension : String) (root : Node) (key : String) : Prop :=
  ∃ (dirs : List String) (name : String) (content : Bytes),
    key = String.intercalate "/" (dirs ++ [name]) ∧ HasExtension extension name ∧
      root.get? ((dirs ++ [name]).map utf8) = some (.file content)

/-- The path of what these names lead to from the root of a store. -/
def pathBelow (store : FileStore) (names : List String) : Bytes :=
  (names.map utf8).foldl Path.join (utf8 store.root)

theorem mem_keys_iff {extension : String} {root : Node} (hwf : root.WellFormed) {key : String} :
    key ∈ keys extension root ↔ IsObjectKey extension root key := by
  rw [keys, List.mem_filterMap]
  constructor
  · rintro ⟨f, hf, hkey⟩
    obtain ⟨hobject, hkey⟩ := Option.ite_none_right_eq_some.1 hkey
    obtain ⟨names, hnames, rfl⟩ := keyOf?_eq_some_iff.1 hkey
    have hfile := hwf.mem_files_iff.1 hf
    rcases List.eq_nil_or_concat' names with rfl | ⟨dirs, name, rfl⟩
    · rw [hnames] at hobject
      cases hobject
    · refine ⟨dirs, name, f.2, rfl, hasExtension_iff.2 ?_, hnames ▸ hfile⟩
      simpa [isObject, hnames] using hobject
  · rintro ⟨dirs, name, content, rfl, hextension, hfile⟩
    have hobject : isObject extension ((dirs ++ [name]).map utf8) = true := by
      simp [isObject, hasExtension_iff.1 hextension]
    refine ⟨_, hwf.mem_files_iff.2 hfile, ?_⟩
    rw [if_pos hobject]
    exact keyOf?_eq_some_iff.2 ⟨_, rfl, rfl⟩

/-- Files at different locations have different keys. -/
theorem nodup_keys (extension : String) {root : Node} (hwf : root.WellFormed) :
    (keys extension root).Nodup := by
  have hfiles := List.pairwise_map.1 hwf.nodup_files
  have hlocation : ∀ f ∈ root.files, ∀ key,
      (if isObject extension f.1 then keyOf? f.1 else none) = some key →
        Path.names (utf8 key) = f.1 := by
    intro f hf key hkey
    obtain ⟨hobject, hkey⟩ := Option.ite_none_right_eq_some.1 hkey
    have hne : f.1 ≠ [] := by
      intro hnil
      rw [hnil] at hobject
      cases hobject
    exact names_of_keyOf? hkey hne (hwf.isEntryName_of_get? (hwf.mem_files_iff.1 hf))
  rw [keys, List.Nodup, List.pairwise_filterMap]
  refine hfiles.imp_of_mem fun hf hg hne key hkey key' hkey' heq ↦ hne ?_
  rw [← hlocation _ hf key hkey, ← hlocation _ hg key' hkey', heq]

end FileStore

/-! ## Listings -/

/-- Keys of which none is there twice are listed in strict order. -/
theorem Query.pairwise_byteLt_select {keys : List String} (h : keys.Nodup) (q : Query) :
    (q.select keys).Pairwise fun a b ↦ byteLt a b = true := by
  have hnodup : (q.select keys).Nodup := (List.mergeSort_perm _ _).nodup_iff.2 (h.filter _)
  refine ((q.pairwise_select keys).and hnodup).imp fun {a b} ⟨hle, hne⟩ ↦ ?_
  by_contra hlt
  have hge : keyLe b a = true := by simpa [keyLe] using hlt
  exact hne (keyLe_antisymm hle hge)

namespace FileStore

variable {store : FileStore} {tree root : Node} {location : List Name} {es : Entries}

/-- The system takes the paths of all directories that a listing enters: those that are reached by
names that are text. -/
def DirectoriesFit (store : FileStore) (root : Node) : Prop :=
  ∀ (names : List String) (es : Entries), root.get? (names.map utf8) = some (.dir es) →
    (store.pathBelow names).length ≤ Path.pathLimit

theorem isListable_iff (hwf : root.WellFormed) :
    isListable store.root root = true ↔ store.DirectoriesFit root := by
  rw [isListable, List.all_eq_true]
  constructor
  · intro h names es hdir
    have hkey : keyOf? (names.map utf8) = some (String.intercalate "/" names) :=
      keyOf?_eq_some_iff.2 ⟨names, rfl, rfl⟩
    simpa [hkey, pathBelow] using h _ (hwf.mem_directories_iff.2 ⟨es, hdir⟩)
  · intro h d hd
    obtain ⟨es, hdir⟩ := hwf.mem_directories_iff.1 hd
    cases hkey : keyOf? d with
    | none => rfl
    | some key =>
        obtain ⟨names, rfl, -⟩ := keyOf?_eq_some_iff.1 hkey
        simpa [pathBelow] using h names es hdir

/-- What a listing gives, once for all ranges. -/
theorem list_of_resolve (hwf : (Node.dir es).WellFormed)
    (hroot : tree.resolve (utf8 store.root) = .ok location)
    (hdir : tree.get? location = some (.dir es)) (q : Query) :
    (store.DirectoriesFit (.dir es) →
      store.list tree q = .ok (q.select (keys store.extension (.dir es)))) ∧
    (¬ store.DirectoriesFit (.dir es) → store.list tree q = .error (.io .nameTooLong)) := by
  have hcollect := collect_of_resolve hroot
  simp only [hdir] at hcollect
  rw [← isListable_iff hwf, list, hcollect]
  exact ⟨fun h ↦ by rw [if_pos h]; rfl, fun h ↦ by rw [if_neg h]; rfl⟩

/-! ## Paths of keys -/

section Paths

variable {names : List String} {content : Bytes}

theorem keyPath_intercalate (hne : names ≠ [])
    (hnames : ∀ name ∈ names.map utf8, Path.IsEntryName name) :
    store.keyPath (String.intercalate "/" names) = store.pathBelow names := by
  have hlocation := names_of_keyOf? (keyOf?_eq_some_iff.2 ⟨names, rfl, rfl⟩) (by simpa) hnames
  rw [keyPath, hlocation, pathBelow]

theorem resolve_pathBelow (htree : tree.Storable)
    (hroot : tree.resolve (utf8 store.root) = .ok location)
    (hdir : tree.get? location = some (.dir es)) (hne : names ≠ [])
    (hfile : (Node.dir es).get? (names.map utf8) = some (.file content)) :
    tree.resolve (store.pathBelow names) =
      if (store.pathBelow names).length ≤ Path.pathLimit then .ok (location ++ names.map utf8)
      else .error .nameTooLong := by
  have hat : tree.get? (location ++ names.map utf8) = some (.file content) := by
    rw [Node.get?_append, hdir, Option.bind_some, hfile]
  have hstored : ∀ name ∈ names.map utf8, name ∈ tree.entryNames := fun name hname ↦
    Node.mem_entryNames_of_get? hat name (List.mem_append_right _ hname)
  have hentry := (htree.wellFormed.get? hdir).isEntryName_of_get? hfile
  have hcheck := Path.check_foldl_join (Node.resolve_eq_ok.1 hroot).1 fun name hname ↦
    htree.names_noNul name (hstored name hname)
  rw [pathBelow, Node.resolve, hcheck]
  split
  · rcases walk_foldl_join hroot hdir hfile (by simpa) hentry with hwalk | ⟨-, name, hname, hlong⟩
    · exact hwalk
    · exact absurd hlong (Nat.not_lt.2 (htree.names_length name (hstored name hname)))
  · rfl

/-- A file that is listed is opened by its key, and no other, if the system takes its path. -/
theorem read_pathBelow (htree : tree.Storable)
    (hroot : tree.resolve (utf8 store.root) = .ok location)
    (hdir : tree.get? location = some (.dir es))
    (hfile : (Node.dir es).get? (names.map utf8) = some (.file content)) :
    let key := String.intercalate "/" names
    store.keyPath key = store.pathBelow names ∧
      ((store.pathBelow names).length ≤ Path.pathLimit →
        tree.resolve (store.keyPath key) = .ok (location ++ names.map utf8) ∧
          store.read tree key = eventsOfFile key content) ∧
      (Path.pathLimit < (store.pathBelow names).length →
        store.read tree key = .error (.io .nameTooLong)) := by
  intro key
  have hne : names ≠ [] := by
    rintro rfl
    cases hfile
  have hentry := (htree.wellFormed.get? hdir).isEntryName_of_get? hfile
  have hpath : store.keyPath key = store.pathBelow names := keyPath_intercalate hne hentry
  have hresolve := resolve_pathBelow htree hroot hdir hne hfile
  have hat : tree.get? (location ++ names.map utf8) = some (.file content) := by
    rw [Node.get?_append, hdir, Option.bind_some, hfile]
  refine ⟨hpath, fun hshort ↦ ?_, fun hlong ↦ ?_⟩
  · rw [if_pos hshort] at hresolve
    refine ⟨hpath ▸ hresolve, ?_⟩
    simp only [read, hpath, Node.readFile, hresolve, bind, Except.bind, hat]
    rfl
  · rw [if_neg (Nat.not_le.2 hlong)] at hresolve
    simp only [read, hpath, Node.readFile, hresolve, bind, Except.bind]
    rfl

end Paths

/-- A store lists exactly the keys of its objects within a range, each once and in byte order, if
the system takes the paths of all directories that it enters, and else fails.  Orders of
enumeration make no difference.  The key of a file leads back to it, and the file is read, if the
system takes its path. -/
theorem list_and_read (htree : tree.Storable)
    (hcreate : create tree store.root store.extension = .ok store) :
    ∃ location es, tree.resolve (utf8 store.root) = .ok location ∧
      tree.get? location = some (.dir es) ∧
      (store.DirectoriesFit (.dir es) → ∀ q : Query, ∃ keys, store.list tree q = .ok keys ∧
        (keys.Pairwise fun a b ↦ byteLt a b = true) ∧
        ∀ key, key ∈ keys ↔
          IsObjectKey store.extension (.dir es) key ∧ q.contains key = true) ∧
      (¬ store.DirectoriesFit (.dir es) → ∀ q, store.list tree q = .error (.io .nameTooLong)) ∧
      (∀ other, tree.Reordered other → store.view other = store.view tree) ∧
      ∀ (names : List String) (content : Bytes),
        (Node.dir es).get? (names.map utf8) = some (.file content) →
          let key := String.intercalate "/" names
          store.keyPath key = store.pathBelow names ∧
            ((store.pathBelow names).length ≤ Path.pathLimit →
              tree.resolve (store.keyPath key) = .ok (location ++ names.map utf8) ∧
                store.read tree key = eventsOfFile key content) ∧
            (Path.pathLimit < (store.pathBelow names).length →
              store.read tree key = .error (.io .nameTooLong)) := by
  obtain ⟨-, location, es, hroot, hdir⟩ := create_spec hcreate
  have hwf := htree.wellFormed.get? hdir
  refine ⟨location, es, hroot, hdir, fun hfit q ↦ ?_, fun hfit q ↦ ?_, fun other h ↦ ?_, ?_⟩
  · refine ⟨_, (list_of_resolve hwf hroot hdir q).1 hfit, ?_, fun key ↦ ?_⟩
    · exact q.pairwise_byteLt_select (nodup_keys _ hwf)
    · rw [Query.mem_select, mem_keys_iff hwf]
  · exact (list_of_resolve hwf hroot hdir q).2 hfit
  · exact store.view_of_reordered h htree.wellFormed
  · exact fun names content hfile ↦ read_pathBelow htree hroot hdir hfile

/-- A directory `a` and a file `a.json`, of which the names and the keys are in different orders,
beside a link, a name without a stem, another extension and an object in a directory whose name is
no text.  The root enumerates its entries in one order and in the opposite one. -/
theorem list_and_read_beside_links :
    let store : FileStore := ⟨"store", "json"⟩
    let es : Entries := [(utf8 "a", .dir [(utf8 ".json", .file []), (utf8 "x.json", .file [])]),
      (utf8 "link.json", .link (utf8 "a.json")), (utf8 "a.jsonl", .file []),
      ([0xFF], .dir [(utf8 "y.json", .file [])]), (utf8 "a.json", .file [])]
    let tree : Node := .dir [(utf8 "store", .dir es)]
    let other : Node := .dir [(utf8 "store", .dir es.reverse)]
    tree.Storable ∧ create tree store.root store.extension = .ok store ∧ tree.Reordered other ∧
      store.list other ⟨"", "b"⟩ = .ok ["a.json", "a/x.json"] ∧
      store.read other "a/x.json" = .ok [] := by
  intro store es tree other
  have htree : tree.Storable := ⟨by decide +kernel, by decide +kernel, by decide +kernel⟩
  have hroot : tree.resolve (utf8 store.root) = .ok [utf8 "store"] :=
    Node.resolve_of_direct? (by decide +kernel) (by decide +kernel)
  have hcreate : create tree store.root store.extension = .ok store :=
    create_of_resolve hroot rfl
  have hother : tree.Reordered other :=
    .dir (@Node.ReorderedEntries.cons _ _ _ _ [] [] (.of_perm (List.reverse_perm es).symm) .nil)
  obtain ⟨location, entries, hlocation, hdir, hlist, -, horder, hread⟩ :=
    list_and_read htree hcreate
  obtain rfl : [utf8 "store"] = location := Except.ok.inj (hroot.symm.trans hlocation)
  obtain rfl : es = entries := Node.dir.inj (Option.some.inj hdir)
  have hview := horder other hother
  have hfit : store.DirectoriesFit (.dir es) :=
    (isListable_iff (htree.wellFormed.get? hdir)).1 (by decide +kernel)
  have hkeys : store.list tree ⟨"", "b"⟩ = .ok ["a.json", "a/x.json"] := by
    obtain ⟨keys, hkeys, -⟩ := hlist hfit ⟨"", "b"⟩
    have hlisted := (list_of_resolve (htree.wellFormed.get? hdir) hroot hdir ⟨"", "b"⟩).1 hfit
    have hfound : (FileStore.keys store.extension (.dir es)).filter (Query.mk "" "b").contains =
        ["a/x.json", "a.json"] := by decide +kernel
    have hselect : (Query.mk "" "b").select (FileStore.keys store.extension (.dir es)) =
        ["a.json", "a/x.json"] :=
      Query.select_eq_of_perm (hfound ▸ List.Perm.swap _ _ _) (by decide +kernel)
    rw [hkeys, Except.ok.inj (hkeys.symm.trans hlisted), hselect]
  have hopened := ((hread ["a", "x.json"] [] rfl).2.1 (by decide +kernel)).2
  have hkey : String.intercalate "/" ["a", "x.json"] = "a/x.json" := by decide +kernel
  rw [hkey] at hopened
  refine ⟨htree, hcreate, hother, ?_, ?_⟩
  · exact (congrFun (congrArg ObjectStore.list hview) _).trans hkeys
  · exact (congrFun (congrArg ObjectStore.read hview) _).trans hopened

/-- Slashes at the end of a root count.  Behind 4090 of them the path of an empty directory is too
long, and an object beside it is not listed.  Behind 4087 it is listed, but cannot be read. -/
theorem objects_lost_below_long_root :
    let root (slashes : Nat) : String := "store" ++ String.ofList (List.replicate slashes '/')
    let es : Entries := [(utf8 "d", .dir []), (utf8 "x.json", .file [])]
    let tree : Node := .dir [(utf8 "store", .dir es)]
    let q : Query := ⟨"", "z"⟩
    tree.Storable ∧ IsObjectKey "json" (.dir es) "x.json" ∧ q.contains "x.json" = true ∧
      (∃ store, create tree (root 4090) "json" = .ok store ∧
        store.list tree q = .error (.io .nameTooLong)) ∧
      ∃ store, create tree (root 4087) "json" = .ok store ∧
        store.list tree q = .ok ["x.json"] ∧
        store.read tree "x.json" = .error (.io .nameTooLong) := by
  intro root es tree q
  have htree : tree.Storable := ⟨by decide +kernel, by decide +kernel, by decide +kernel⟩
  have hwf : (Node.dir es).WellFormed := htree.wellFormed.2.2.1
  have hbytes : ∀ n, utf8 (root n) = utf8 "store" ++ List.replicate n Ascii.slash := by
    intro n
    rw [utf8_append]
    exact congrArg _ (charBytes_replicate_slash n)
  have hlength : ∀ n, (utf8 (root n)).length = 5 + n := by
    intro n
    rw [hbytes, List.length_append, List.length_replicate]
    rfl
  have hlimit : Path.pathLimit = 4095 := rfl
  have hopen : ∀ n, 0 < n → 5 + n ≤ 4095 → ∃ store : FileStore,
      create tree (root n) "json" = .ok store ∧ store.extension = "json" ∧
        tree.resolve (utf8 store.root) = .ok [utf8 "store"] ∧
          (utf8 store.root).length = 5 + n := by
    intro n hpos hn
    obtain ⟨m, rfl⟩ := Nat.exists_eq_succ_of_ne_zero (Nat.ne_of_gt hpos)
    have hroot : tree.resolve (utf8 (root (m + 1))) = .ok [utf8 "store"] := by
      rw [hbytes]
      exact Node.resolve_append_slashes (by decide +kernel) hn (by decide +kernel)
    exact ⟨⟨root (m + 1), "json"⟩, create_of_resolve hroot rfl, rfl, hroot, hlength _⟩
  obtain ⟨unlisted, hunlisted, -, hroot, hroom⟩ := hopen 4090 (by omega) (by omega)
  obtain ⟨unread, hunread, hextension, hroot', hroom'⟩ := hopen 4087 (by omega) (by omega)
  have hobject : IsObjectKey "json" (.dir es) "x.json" :=
    ⟨[], "x.json", [], by decide +kernel, ⟨"x", by decide, by decide, by decide⟩, rfl⟩
  refine ⟨htree, hobject, by decide +kernel, ⟨unlisted, hunlisted, ?_⟩, ⟨unread, hunread, ?_, ?_⟩⟩
  · refine (list_of_resolve hwf hroot rfl q).2 fun hfit ↦ ?_
    have hdir : (Path.join (utf8 unlisted.root) (utf8 "d")).length ≤ Path.pathLimit :=
      hfit ["d"] [] rfl
    have hlonger := (Path.length_join (utf8 unlisted.root) (utf8 "d")).1
    have hname : (utf8 "d").length = 1 := by decide
    omega
  · have hfit : unread.DirectoriesFit (.dir es) := by
      have hnames : ∀ d ∈ (Node.dir es).directories,
          (d.map fun name ↦ name.length + 1).sum ≤ 3 := by decide +kernel
      refine (isListable_iff hwf).1 (isListable_of_lengths fun d hd ↦ ?_)
      have hd := hnames d hd
      omega
    have hfound : (keys "json" (.dir es)).filter q.contains = ["x.json"] := by decide +kernel
    have hselect := Query.select_eq_of_perm (List.Perm.of_eq hfound) (List.pairwise_singleton _ _)
    rw [(list_of_resolve hwf hroot' rfl q).1 hfit, hextension, hselect]
  · have hlong : Path.pathLimit < (unread.pathBelow ["x.json"]).length := by
      have hlonger := (Path.length_join (utf8 unread.root) (utf8 "x.json")).1
      have hname : (utf8 "x.json").length = 6 := by decide
      refine Nat.lt_of_lt_of_le ?_ hlonger
      omega
    have hfile : (Node.dir es).get? (["x.json"].map utf8) = some (.file []) := rfl
    have hrefused := (read_pathBelow htree hroot' rfl hfile).2.2 hlong
    have hkey : String.intercalate "/" ["x.json"] = "x.json" := by decide
    rwa [hkey] at hrefused

end FileStore
end HourlyUsage
