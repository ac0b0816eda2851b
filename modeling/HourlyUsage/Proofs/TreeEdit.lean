import HourlyUsage.FileTree.Basic

/-!
# Edits of a file tree

Edits of one directory compose, and one that gives the entries back gives the
tree back.  A new file in a directory leaves everything else of the tree in its
place: all other locations, the order of enumeration and the directories.
-/

namespace HourlyUsage

open Text

/-! ## Entries of a directory -/

namespace Entries

theorem find?_append (name : Name) (es fs : Entries) :
    find? name (es ++ fs) = (find? name es).or (find? name fs) := by
  induction es with
  | nil => rfl
  | cons e es ih =>
      obtain ⟨n, node⟩ := e
      by_cases h : n = name <;> simp [find?, h, ih]

theorem find?_set_self (name : Name) (node : Node) (es : Entries) :
    find? name (set name node es) = some node := by
  induction es with
  | nil => simp [set, find?]
  | cons e es ih =>
      obtain ⟨n, old⟩ := e
      by_cases h : n = name <;> simp [set, find?, h, ih]

theorem set_set (name : Name) (a b : Node) (es : Entries) :
    set name a (set name b es) = set name a es := by
  induction es with
  | nil => simp [set]
  | cons e es ih =>
      obtain ⟨n, old⟩ := e
      by_cases h : n = name <;> simp [set, h, ih]

theorem set_of_find? {name : Name} {node : Node} {es : Entries} (h : find? name es = some node) :
    set name node es = es := by
  induction es with
  | nil => cases h
  | cons e es ih =>
      obtain ⟨n, old⟩ := e
      by_cases hn : n = name
      · simp only [find?, if_pos hn, Option.some.injEq] at h
        simp [set, hn, h]
      · simp only [find?, if_neg hn] at h
        simp [set, hn, ih h]

theorem set_of_new {name : Name} {es : Entries} (h : find? name es = none) (node : Node) :
    set name node es = es ++ [(name, node)] := by
  induction es with
  | nil => rfl
  | cons e es ih =>
      obtain ⟨n, old⟩ := e
      by_cases hn : n = name
      · simp [find?, hn] at h
      · simp only [find?, if_neg hn] at h
        simp [set, hn, ih h]

/-- Where an entry of a name exists, setting the name changes its first entry alone. -/
theorem exists_split {name : Name} {node : Node} {es : Entries} (h : find? name es = some node) :
    ∃ pre post, es = pre ++ (name, node) :: post ∧ find? name pre = none ∧
      ∀ other, set name other es = pre ++ (name, other) :: post := by
  induction es with
  | nil => cases h
  | cons e es ih =>
      obtain ⟨n, old⟩ := e
      by_cases hn : n = name
      · simp only [find?, if_pos hn, Option.some.injEq] at h
        refine ⟨[], es, by simp [hn, h], rfl, fun other ↦ by simp [set, hn]⟩
      · simp only [find?, if_neg hn] at h
        obtain ⟨pre, post, hes, hpre, hset⟩ := ih h
        refine ⟨(n, old) :: pre, post, by simp [hes], ?_, fun other ↦ ?_⟩
        · simp [find?, hn, hpre]
        · simp [set, hn, hset other]

theorem mem_of_find? {name : Name} {node : Node} {es : Entries} (h : find? name es = some node) :
    (name, node) ∈ es := by
  obtain ⟨pre, post, rfl, -, -⟩ := exists_split h
  exact List.mem_append_right _ (List.mem_cons_self ..)

theorem find?_of_mem {name : Name} {node : Node} {es : Entries}
    (hdistinct : (es.map Prod.fst).Nodup) (h : (name, node) ∈ es) : find? name es = some node := by
  induction es with
  | nil => cases h
  | cons e es ih =>
      rw [List.map_cons, List.nodup_cons] at hdistinct
      rcases List.mem_cons.1 h with rfl | h
      · rw [find?, if_pos rfl]
      · have hname : e.1 ≠ name := by
          rintro rfl
          exact hdistinct.1 (List.mem_map.2 ⟨_, h, rfl⟩)
        rw [find?, if_neg hname, ih hdistinct.2 h]

/-- What entries with distinct names enumerate is enumerated by the entry of its first name. -/
theorem mem_flatMap_iff {α β : Type} {es : Entries} (hdistinct : (es.map Prod.fst).Nodup)
    (enumerate : Node → List α) (put : Name → α → β)
    (hput : ∀ n m a b, put n a = put m b → n = m ∧ a = b) (name : Name) (a : α) :
    (put name a ∈ es.flatMap fun e ↦ (enumerate e.2).map (put e.1)) ↔
      ∃ child, find? name es = some child ∧ a ∈ enumerate child := by
  rw [List.mem_flatMap]
  constructor
  · rintro ⟨⟨n, child⟩, hentry, hbelow⟩
    obtain ⟨b, hb, heq⟩ := List.mem_map.1 hbelow
    obtain ⟨rfl, rfl⟩ := hput _ _ _ _ heq
    exact ⟨child, find?_of_mem hdistinct hentry, hb⟩
  · rintro ⟨child, hchild, ha⟩
    exact ⟨_, mem_of_find? hchild, List.mem_map_of_mem ha⟩

theorem erase_set (name : Name) (node : Node) (es : Entries) :
    erase name (set name node es) = erase name es := by
  induction es with
  | nil => simp [set, erase]
  | cons e es ih =>
      obtain ⟨n, old⟩ := e
      by_cases h : n = name <;> simp [set, erase, h, ih]

theorem erase_of_new {name : Name} {es : Entries} (h : find? name es = none) :
    erase name es = es := by
  induction es with
  | nil => rfl
  | cons e es ih =>
      obtain ⟨n, old⟩ := e
      by_cases hn : n = name
      · simp [find?, hn] at h
      · simp only [find?, if_neg hn] at h
        simp [erase, hn, ih h]

end Entries

/-! ## Edits of one directory -/

namespace Node

theorem get?_append (tree : Node) (l m : List Name) :
    tree.get? (l ++ m) = (tree.get? l).bind fun node ↦ node.get? m := by
  induction l generalizing tree with
  | nil => rfl
  | cons name l ih =>
      cases tree with
      | file content => rfl
      | link target => rfl
      | dir es =>
          simp only [List.cons_append, get?, Option.bind_assoc]
          exact congrArg _ (funext fun child ↦ ih child)

theorem get?_concat {tree : Node} {l : List Name} {es : Entries} (h : tree.get? l = some (.dir es))
    (name : Name) : tree.get? (l ++ [name]) = Entries.find? name es := by
  simp [get?_append, h, get?]

/-- What can be reached beyond a location lies in a directory there. -/
theorem get?_cons_eq_some {node found : Node} {name : Name} {l : List Name}
    (h : node.get? (name :: l) = some found) :
    ∃ es child, node = .dir es ∧ Entries.find? name es = some child ∧
      child.get? l = some found := by
  cases node with
  | file content => cases h
  | link target => cases h
  | dir es =>
      obtain ⟨child, hchild, hfound⟩ := Option.bind_eq_some_iff.1 h
      exact ⟨es, child, rfl, hchild, hfound⟩

theorem get?_update_self {f : Entries → Entries} {tree : Node} {l : List Name} {es : Entries}
    (h : tree.get? l = some (.dir es)) : (tree.update f l).get? l = some (.dir (f es)) := by
  induction l generalizing tree with
  | nil =>
      obtain rfl : tree = .dir es := Option.some.inj h
      rfl
  | cons name l ih =>
      obtain ⟨fs, child, rfl, hchild, hrest⟩ := get?_cons_eq_some h
      simp only [update, hchild, get?, Entries.find?_set_self, Option.bind_some]
      exact ih hrest

theorem update_update (f g : Entries → Entries) (tree : Node) (l : List Name) :
    (tree.update f l).update g l = tree.update (g ∘ f) l := by
  induction l generalizing tree with
  | nil => cases tree <;> rfl
  | cons name l ih =>
      cases tree with
      | file content => rfl
      | link target => rfl
      | dir es =>
          cases hchild : Entries.find? name es with
          | none => simp only [update, hchild]
          | some child =>
              simp only [update, hchild, Entries.find?_set_self, Entries.set_set, ih]

theorem update_congr {f g : Entries → Entries} {tree : Node} {l : List Name} {es : Entries}
    (h : tree.get? l = some (.dir es)) (hfg : f es = g es) : tree.update f l = tree.update g l := by
  induction l generalizing tree with
  | nil =>
      obtain rfl : tree = .dir es := Option.some.inj h
      simp only [update, hfg]
  | cons name l ih =>
      obtain ⟨fs, child, rfl, hchild, hrest⟩ := get?_cons_eq_some h
      simp only [update, hchild, ih hrest]

/-- An edit that gives the entries of its directory back gives the tree back. -/
theorem update_eq_self {f : Entries → Entries} {tree : Node} {l : List Name} {es : Entries}
    (h : tree.get? l = some (.dir es)) (hf : f es = es) : tree.update f l = tree := by
  induction l generalizing tree with
  | nil =>
      obtain rfl : tree = .dir es := Option.some.inj h
      simp only [update, hf]
  | cons name l ih =>
      obtain ⟨fs, child, rfl, hchild, hrest⟩ := get?_cons_eq_some h
      simp only [update, hchild, ih hrest, Entries.set_of_find? hchild]

end Node

/-! ## A new file -/

/-- `AddsFile name content l a b`: the tree `b` is the tree `a` with a new file of this name and
content behind the other entries of the directory at `l`. -/
inductive AddsFile (name : Name) (content : Bytes) : List Name → Node → Node → Prop
  | here (es : Entries) (hnew : Entries.find? name es = none) :
      AddsFile name content [] (.dir es) (.dir (es ++ [(name, .file content)]))
  | inside (pre post : Entries) (child : Name) (a b : Node) (l : List Name)
      (hfirst : Entries.find? child pre = none) (h : AddsFile name content l a b) :
      AddsFile name content (child :: l) (.dir (pre ++ (child, a) :: post))
        (.dir (pre ++ (child, b) :: post))

namespace AddsFile

variable {name : Name} {content : Bytes} {l : List Name} {a b : Node}

theorem of_update {tree : Node} {es : Entries} (h : tree.get? l = some (.dir es))
    (hnew : Entries.find? name es = none) (content : Bytes) :
    AddsFile name content l tree (tree.update (Entries.set name (.file content)) l) := by
  induction l generalizing tree with
  | nil =>
      obtain rfl : tree = .dir es := Option.some.inj h
      simp only [Node.update, Entries.set_of_new hnew]
      exact .here es hnew
  | cons child l ih =>
      obtain ⟨fs, node, rfl, hchild, hrest⟩ := Node.get?_cons_eq_some h
      obtain ⟨pre, post, hfs, hpre, hset⟩ := Entries.exists_split hchild
      simp only [Node.update, hchild, hset]
      rw [hfs]
      exact .inside pre post child node _ l hpre (ih hrest)

theorem get?_new (h : AddsFile name content l a b) :
    b.get? (l ++ [name]) = some (.file content) := by
  induction h with
  | here es hnew => simp [Node.get?, Entries.find?_append, hnew, Entries.find?]
  | inside pre post c a b l hfirst h ih =>
      simpa [Node.get?, Entries.find?_append, hfirst, Entries.find?] using ih

/-- The node is the same, or has the new file below it. -/
def Gains (name : Name) (content : Bytes) (a b : Node) : Prop :=
  b = a ∨ ∃ l, AddsFile name content l a b

theorem gains (h : AddsFile name content l a b) : Gains name content a b := .inr ⟨l, h⟩

/-- Everything that was there still is, at most with the new file below it. -/
theorem get?_of_get? (h : AddsFile name content l a b) {m : List Name} {node : Node}
    (hm : a.get? m = some node) :
    ∃ node', b.get? m = some node' ∧ Gains name content node node' := by
  induction h generalizing m with
  | here es hnew =>
      cases m with
      | nil =>
          obtain rfl : Node.dir es = node := Option.some.inj hm
          exact ⟨_, rfl, (AddsFile.here es hnew).gains⟩
      | cons n m =>
          obtain ⟨fs, child, hfs, hchild, hrest⟩ := Node.get?_cons_eq_some hm
          obtain rfl : es = fs := Node.dir.inj hfs
          refine ⟨node, ?_, .inl rfl⟩
          simp [Node.get?, Entries.find?_append, hchild, hrest]
  | inside pre post c a b l hfirst h ih =>
      cases m with
      | nil =>
          obtain rfl := Option.some.inj hm
          exact ⟨_, rfl, (AddsFile.inside pre post c a b l hfirst h).gains⟩
      | cons n m =>
          obtain ⟨fs, child, hfs, hchild, hrest⟩ := Node.get?_cons_eq_some hm
          obtain rfl := Node.dir.inj hfs
          by_cases hn : c = n
          · subst hn
            have hac : a = child := by
              simpa [Entries.find?_append, hfirst, Entries.find?] using hchild
            obtain ⟨node', hnode', hkind⟩ := ih (hac ▸ hrest)
            refine ⟨node', ?_, hkind⟩
            simpa [Node.get?, Entries.find?_append, hfirst, Entries.find?] using hnode'
          · refine ⟨node, ?_, .inl rfl⟩
            have hsame : Entries.find? n (pre ++ (c, b) :: post) = some child := by
              simpa [Entries.find?_append, Entries.find?, hn] using hchild
            simp [Node.get?, hsame, hrest]

/-- Where nothing was, nothing is but the new file. -/
theorem get?_of_get?_eq_none (h : AddsFile name content l a b) {m : List Name}
    (hm : a.get? m = none) :
    b.get? m = none ∨ m = l ++ [name] := by
  induction h generalizing m with
  | here es hnew =>
      cases m with
      | nil => cases hm
      | cons n m =>
          by_cases hn : name = n
          · subst hn
            cases m with
            | nil => exact .inr rfl
            | cons k m =>
                exact .inl (by simp [Node.get?, Entries.find?_append, hnew, Entries.find?])
          · left
            simpa [Node.get?, Entries.find?_append, Entries.find?, hn] using hm
  | inside pre post c a b l hfirst h ih =>
      cases m with
      | nil => cases hm
      | cons n m =>
          by_cases hn : c = n
          · subst hn
            have hrest : a.get? m = none := by
              simpa [Node.get?, Entries.find?_append, hfirst, Entries.find?] using hm
            simpa [Node.get?, Entries.find?_append, hfirst, Entries.find?] using ih hrest
          · left
            simpa [Node.get?, Entries.find?_append, Entries.find?, hn] using hm

theorem Gains.eq_or_dir (h : Gains name content a b) :
    b = a ∨ ∃ es es', a = .dir es ∧ b = .dir es' := by
  rcases h with h | ⟨l, h⟩
  · exact .inl h
  · cases h <;> exact .inr ⟨_, _, rfl, rfl⟩

theorem Gains.exists_dir {es : Entries} (h : Gains name content (.dir es) b) :
    ∃ es', b = .dir es' := by
  rcases h.eq_or_dir with rfl | ⟨-, es', -, rfl⟩
  · exact ⟨es, rfl⟩
  · exact ⟨es', rfl⟩

end AddsFile

/-! ## Enumeration -/

namespace Node

theorem filesOf_eq_flatMap (es : Entries) :
    filesOf es = es.flatMap fun e ↦ e.2.files.map fun f ↦ (e.1 :: f.1, f.2) := by
  induction es with
  | nil => rfl
  | cons e es ih => rw [filesOf, ih, List.flatMap_cons]

theorem directoriesOf_eq_flatMap (es : Entries) :
    directoriesOf es = es.flatMap fun e ↦ e.2.directories.map fun d ↦ e.1 :: d := by
  induction es with
  | nil => rfl
  | cons e es ih => rw [directoriesOf, ih, List.flatMap_cons]

theorem mem_filesOf_iff {es : Entries} (hdistinct : (es.map Prod.fst).Nodup) {name : Name}
    {l : List Name} {content : Bytes} : (name :: l, content) ∈ filesOf es ↔
      ∃ child, Entries.find? name es = some child ∧ (l, content) ∈ child.files := by
  rw [filesOf_eq_flatMap]
  refine Entries.mem_flatMap_iff hdistinct files (fun n f ↦ (n :: f.1, f.2)) ?_ name (l, content)
  rintro n m ⟨l, content⟩ ⟨l', content'⟩ ⟨⟩
  exact ⟨rfl, rfl⟩

theorem mem_directoriesOf_iff {es : Entries} (hdistinct : (es.map Prod.fst).Nodup) {name : Name}
    {l : List Name} : name :: l ∈ directoriesOf es ↔
      ∃ child, Entries.find? name es = some child ∧ l ∈ child.directories := by
  rw [directoriesOf_eq_flatMap]
  exact Entries.mem_flatMap_iff hdistinct directories List.cons (fun _ _ _ _ ↦ List.cons.inj) name l

theorem filesOf_append (es fs : Entries) : filesOf (es ++ fs) = filesOf es ++ filesOf fs := by
  simp only [filesOf_eq_flatMap, List.flatMap_append]

theorem directoriesOf_append (es fs : Entries) :
    directoriesOf (es ++ fs) = directoriesOf es ++ directoriesOf fs := by
  simp only [directoriesOf_eq_flatMap, List.flatMap_append]

end Node

namespace AddsFile

variable {name : Name} {content : Bytes} {l : List Name} {a b : Node}

/-- The enumeration of files is the same but for the new one. -/
theorem exists_files_eq (h : AddsFile name content l a b) :
    ∃ fs gs, a.files = fs ++ gs ∧ b.files = fs ++ (l ++ [name], content) :: gs := by
  induction h with
  | here es hnew =>
      exact ⟨Node.filesOf es, [], by simp [Node.files],
        by simp [Node.files, Node.filesOf_append, Node.filesOf]⟩
  | inside pre post c a b l hfirst h ih =>
      obtain ⟨fs, gs, ha, hb⟩ := ih
      let below := fun f : List Name × Bytes ↦ (c :: f.1, f.2)
      refine ⟨Node.filesOf pre ++ fs.map below, gs.map below ++ Node.filesOf post, ?_, ?_⟩
      · simp [Node.files, Node.filesOf_append, Node.filesOf, ha, below]
      · simp [Node.files, Node.filesOf_append, Node.filesOf, hb, below]

theorem directories_eq (h : AddsFile name content l a b) : b.directories = a.directories := by
  induction h with
  | here es hnew =>
      simp [Node.directories, Node.directoriesOf_append, Node.directoriesOf]
  | inside pre post c a b l hfirst h ih =>
      simp [Node.directories, Node.directoriesOf_append, Node.directoriesOf, ih]

end AddsFile
end HourlyUsage
