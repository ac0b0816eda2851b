import HourlyUsage.Proofs.ByteOrder
import HourlyUsage.Proofs.StagedStore
import Mathlib.Algebra.GroupWithZero.Nat

/-!
# Lengths of paths

A path is taken up to a fixed number of bytes, counted with all its slashes.  The paths of
what lies below a directory grow with the names on the way, so their lengths decide whether a
store can be enumerated and which of its objects can be opened.
-/

namespace HourlyUsage

open Text

namespace Path

theorem names_append_slashes (path : Bytes) (n : Nat) :
    names (path ++ List.replicate n Ascii.slash) = names path := by
  induction n with
  | zero => rw [List.replicate_zero, List.append_nil]
  | succ n ih =>
      rw [List.replicate_succ', ← List.append_assoc, names_append_slash, ih]
      exact List.append_nil _

theorem steps_append_slashes (path : Bytes) (n : Nat) :
    steps (path ++ List.replicate (n + 1) Ascii.slash) = names path ++ [dot] := by
  have hends : endsInSlash (path ++ List.replicate (n + 1) Ascii.slash) = true := by
    rw [List.replicate_succ', ← List.append_assoc, endsInSlash, List.getLast?_concat]
    rfl
  rw [steps, if_pos hends, names_append_slashes]

theorem length_join (path : Bytes) (name : Name) :
    path.length + name.length ≤ (join path name).length ∧
      (join path name).length ≤ path.length + name.length + 1 := by
  unfold join
  split
  · simp
  · simp only [List.length_append, List.length_cons]
    omega

theorem length_foldl_join_le (path : Bytes) (l : List Name) :
    (l.foldl join path).length ≤ path.length + (l.map fun name ↦ name.length + 1).sum := by
  induction l generalizing path with
  | nil => simp
  | cons name l ih =>
      have hrest := ih (join path name)
      have hfirst := (length_join path name).2
      simp only [List.foldl_cons, List.map_cons, List.sum_cons]
      omega

theorem mem_foldl_join {path : Bytes} {l : List Name} {b : UInt8} (h : b ∈ l.foldl join path) :
    b ∈ path ∨ b = Ascii.slash ∨ ∃ name ∈ l, b ∈ name := by
  induction l generalizing path with
  | nil => exact .inl h
  | cons name l ih =>
      rcases ih h with hjoin | hslash | ⟨n, hn, hb⟩
      · unfold join at hjoin
        split at hjoin
        · rcases List.mem_append.1 hjoin with hpath | hname
          · exact .inl hpath
          · exact .inr (.inr ⟨name, List.mem_cons_self .., hname⟩)
        · rcases List.mem_append.1 hjoin with hpath | hname
          · exact .inl hpath
          · rcases List.mem_cons.1 hname with hslash | hname
            · exact .inr (.inl hslash)
            · exact .inr (.inr ⟨name, List.mem_cons_self .., hname⟩)
      · exact .inr (.inl hslash)
      · exact .inr (.inr ⟨n, List.mem_cons_of_mem _ hn, hb⟩)

theorem check_eq_ok_iff {path : Bytes} :
    check path = .ok () ↔ 0 ∉ path ∧ path ≠ [] ∧ path.length ≤ pathLimit := by
  unfold check
  split
  · simp_all
  · split
    · simp_all
    · split <;> simp_all

theorem le_length_foldl_join (path : Bytes) (l : List Name) :
    path.length ≤ (l.foldl join path).length := by
  induction l generalizing path with
  | nil => exact Nat.le_refl _
  | cons name l ih =>
      have hfirst := (length_join path name).1
      exact Nat.le_trans (Nat.le_of_add_right_le hfirst) (ih (join path name))

/-- Below a path that is taken, the length alone decides. -/
theorem check_foldl_join {path : Bytes} {l : List Name} (hpath : check path = .ok ())
    (hzero : ∀ name ∈ l, 0 ∉ name) :
    check (l.foldl join path) =
      if (l.foldl join path).length ≤ pathLimit then .ok () else .error .nameTooLong := by
  obtain ⟨hpath, hne, -⟩ := check_eq_ok_iff.1 hpath
  have hnul : ¬ (l.foldl join path).contains 0 = true := by
    rw [List.contains_iff_mem]
    intro hmem
    rcases mem_foldl_join hmem with hmem | hslash | ⟨name, hname, hmem⟩
    · exact hpath hmem
    · cases hslash
    · exact hzero name hname hmem
  have hfull : ¬ (l.foldl join path).isEmpty = true := by
    rw [List.isEmpty_iff]
    intro hnil
    have hle := le_length_foldl_join path l
    rw [hnil] at hle
    exact hne (List.eq_nil_of_length_eq_zero (Nat.le_zero.1 hle))
  rw [check, if_neg hnul, if_neg hfull]
  split
  · next hlong => rw [if_neg (Nat.not_le.2 hlong)]
  · next hshort => rw [if_pos (Nat.not_lt.1 hshort)]

end Path

theorem charBytes_replicate_slash (n : Nat) :
    charBytes (List.replicate n '/') = List.replicate n Ascii.slash := by
  have hslash : charBytes ['/'] = [Ascii.slash] := by decide
  induction n with
  | zero => rfl
  | succ n ih => rw [List.replicate_succ, charBytes_cons, ih, hslash, List.replicate_succ]; rfl

/-- Slashes behind a path ask for a directory, and take their room. -/
theorem Node.resolve_append_slashes {tree : Node} {path : Bytes} {n : Nat} {location : List Name}
    (hcheck : Path.check path = .ok ()) (hlength : path.length + n < Path.pathLimit)
    (h : tree.direct? [] (Path.names path ++ [Path.dot]) = some location) :
    tree.resolve (path ++ List.replicate (n + 1) Ascii.slash) = .ok location := by
  obtain ⟨hnul, hne, -⟩ := Path.check_eq_ok_iff.1 hcheck
  have hlong : Path.check (path ++ List.replicate (n + 1) Ascii.slash) = .ok () := by
    refine Path.check_eq_ok_iff.2 ⟨fun hmem ↦ ?_, List.append_ne_nil_of_left_ne_nil hne _, ?_⟩
    · rcases List.mem_append.1 hmem with hmem | hmem
      · exact hnul hmem
      · cases List.eq_of_mem_replicate hmem
    · rw [List.length_append, List.length_replicate]
      omega
  apply resolve_of_direct? hlong
  rw [Path.steps_append_slashes, h]

theorem Node.readFile_of_direct? {tree : Node} {path content : Bytes} {location : List Name}
    (hcheck : Path.check path = .ok ())
    (h : tree.direct? [] (Path.steps path) = some location)
    (hfile : tree.get? location = some (.file content)) : tree.readFile path = .ok content := by
  simp only [readFile, resolve_of_direct? hcheck h, bind, Except.bind, hfile]
  rfl

namespace FileStore

variable {store : FileStore} {tree : Node} {location : List Name} {es : Entries}

theorem isListable_of_lengths {root : String} {node : Node}
    (h : ∀ d ∈ node.directories,
      (utf8 root).length + (d.map fun name ↦ name.length + 1).sum ≤ Path.pathLimit) :
    isListable root node = true := by
  refine List.all_eq_true.2 fun d hd ↦ ?_
  have hlength := Nat.le_trans (Path.length_foldl_join_le (utf8 root) d) (h d hd)
  simp [hlength]

theorem collect_of_lengths (hroot : tree.resolve (utf8 store.root) = .ok location)
    (hnode : tree.get? location = some (.dir es))
    (h : ∀ d ∈ (Node.dir es).directories,
      (utf8 store.root).length + (d.map fun name ↦ name.length + 1).sum ≤ Path.pathLimit) :
    store.collect tree = .ok (keys store.extension (.dir es)) := by
  rw [collect_of_resolve hroot]
  simp only [hnode, if_pos (isListable_of_lengths h)]

theorem readFile_keyPath {key : String} {content : Bytes}
    (hcheck : Path.check (utf8 store.root) = .ok ()) (hne : Path.names (utf8 key) ≠ [])
    (hnames : ∀ name ∈ Path.names (utf8 key), Path.IsEntryName name ∧ 0 ∉ name)
    (hlength : (utf8 store.root).length +
      ((Path.names (utf8 key)).map fun name ↦ name.length + 1).sum ≤ Path.pathLimit)
    (h : tree.direct? [] (Path.names (utf8 store.root) ++ Path.names (utf8 key)) = some location)
    (hfile : tree.get? location = some (.file content)) :
    tree.readFile (store.keyPath key) = .ok content := by
  have hkeyPath := Path.check_foldl_join hcheck fun name hname ↦ (hnames name hname).2
  rw [if_pos (Nat.le_trans (Path.length_foldl_join_le _ _) hlength)] at hkeyPath
  apply Node.readFile_of_direct? hkeyPath _ hfile
  rw [Path.steps_foldl_join _ hne fun name hname ↦ (hnames name hname).1, h]

theorem read_of_readFile {key : String} {content : Bytes}
    (h : tree.readFile (store.keyPath key) = .ok content) :
    store.read tree key = eventsOfFile key content := by
  simp only [read, h, Except.mapError, bind, Except.bind]

/-- One directory with a path that is too long fails the enumeration of the whole store. -/
theorem collect_of_long_directory (hroot : tree.resolve (utf8 store.root) = .ok location)
    (hnode : tree.get? location = some (.dir es)) {d : List Name}
    (hd : d ∈ (Node.dir es).directories) (hkey : (keyOf? d).isSome = true)
    (hlong : Path.pathLimit < (d.foldl Path.join (utf8 store.root)).length) :
    store.collect tree = .error (.io .nameTooLong) := by
  have hlistable : ¬ isListable store.root (.dir es) = true := by
    intro hall
    have hd := List.all_eq_true.1 hall d hd
    rw [Bool.or_eq_true, decide_eq_true_eq] at hd
    rcases hd with hnone | hle
    · rw [Option.isNone_iff_eq_none] at hnone
      rw [hnone] at hkey
      cases hkey
    · omega
  rw [collect_of_resolve hroot]
  simp only [hnode, if_neg hlistable]

end FileStore

end HourlyUsage
