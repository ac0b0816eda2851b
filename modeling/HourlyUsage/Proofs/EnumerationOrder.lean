import HourlyUsage.Proofs.Listing
import HourlyUsage.Proofs.StagedStore

/-!
# Orders of enumeration

A directory may enumerate its entries in any order.  Trees that differ in these orders alone hold
the same at every location, so every path leads to the same place in them, and they enumerate the
same files and directories, in an order of their own.  A store lists and reads the same in all of
them.
-/

namespace HourlyUsage

open Text

namespace Node

mutual

/-- The trees are the same but for the orders in which their directories enumerate their entries. -/
inductive Reordered : Node → Node → Prop
  | file (content : Bytes) : Reordered (.file content) (.file content)
  | link (target : Bytes) : Reordered (.link target) (.link target)
  | dir {es fs : Entries} (h : ReorderedEntries es fs) : Reordered (.dir es) (.dir fs)

inductive ReorderedEntries : Entries → Entries → Prop
  | nil : ReorderedEntries [] []
  | cons {name : Name} {a b : Node} {es pre post : Entries} (h : Reordered a b)
      (hrest : ReorderedEntries es (pre ++ post)) :
      ReorderedEntries ((name, a) :: es) (pre ++ (name, b) :: post)

end

mutual

theorem Reordered.refl : ∀ a : Node, a.Reordered a
  | .file content => .file content
  | .link target => .link target
  | .dir es => .dir (ReorderedEntries.refl es)

theorem ReorderedEntries.refl : ∀ es : Entries, ReorderedEntries es es
  | [] => .nil
  | (_, node) :: es =>
    @ReorderedEntries.cons _ _ _ _ [] es (Reordered.refl node) (ReorderedEntries.refl es)

end

/-- The entries of one directory may stand in any order. -/
theorem Reordered.of_perm {es fs : Entries} (h : es.Perm fs) : Reordered (.dir es) (.dir fs) := by
  apply Reordered.dir
  induction es generalizing fs with
  | nil =>
      obtain rfl := List.nil_perm.1 h
      exact .nil
  | cons e es ih =>
      obtain ⟨pre, post, rfl⟩ := List.append_of_mem (h.subset (List.mem_cons_self ..))
      have hrest := (h.trans List.perm_middle).cons_inv
      exact .cons (Reordered.refl e.2) (ih hrest)

/-! ## Enumerations -/

mutual

theorem Reordered.files_perm : ∀ {a b : Node}, a.Reordered b → a.files.Perm b.files
  | _, _, .file content => List.Perm.refl _
  | _, _, .link target => List.Perm.refl _
  | _, _, .dir h => h.filesOf_perm

theorem ReorderedEntries.filesOf_perm :
    ∀ {es fs : Entries}, ReorderedEntries es fs → (filesOf es).Perm (filesOf fs)
  | _, _, .nil => List.Perm.refl _
  | _, _, @ReorderedEntries.cons name _ _ _ _ _ h hrest => by
      have hfirst := h.files_perm.map fun f ↦ (name :: f.1, f.2)
      have hothers := hrest.filesOf_perm
      rw [filesOf_append] at hothers ⊢
      exact (hfirst.append hothers).trans (List.perm_append_comm_assoc _ _ _)

end

mutual

theorem Reordered.directories_perm :
    ∀ {a b : Node}, a.Reordered b → a.directories.Perm b.directories
  | _, _, .file content => List.Perm.refl _
  | _, _, .link target => List.Perm.refl _
  | _, _, .dir h => h.directoriesOf_perm.cons []

theorem ReorderedEntries.directoriesOf_perm :
    ∀ {es fs : Entries}, ReorderedEntries es fs → (directoriesOf es).Perm (directoriesOf fs)
  | _, _, .nil => List.Perm.refl _
  | _, _, @ReorderedEntries.cons name _ _ _ _ _ h hrest => by
      have hfirst := h.directories_perm.map fun d ↦ name :: d
      have hothers := hrest.directoriesOf_perm
      rw [directoriesOf_append] at hothers ⊢
      exact (hfirst.append hothers).trans (List.perm_append_comm_assoc _ _ _)

end

theorem ReorderedEntries.names_perm :
    ∀ {es fs : Entries}, ReorderedEntries es fs → (es.map Prod.fst).Perm (fs.map Prod.fst)
  | _, _, .nil => List.Perm.refl _
  | _, _, @ReorderedEntries.cons name _ _ _ pre post _ hrest => by
      have hothers := hrest.names_perm
      rw [List.map_append] at hothers ⊢
      exact (hothers.cons name).trans List.perm_middle.symm

/-! ## Locations -/

/-- Distinct names find the same entries in any order. -/
theorem ReorderedEntries.find?_rel {es fs : Entries} (h : ReorderedEntries es fs)
    (hdistinct : (es.map Prod.fst).Nodup) (wanted : Name) :
    Option.Rel Reordered (Entries.find? wanted es) (Entries.find? wanted fs) := by
  induction es generalizing fs with
  | nil =>
      cases h
      exact .none
  | cons e es ih =>
      rw [List.map_cons, List.nodup_cons] at hdistinct
      cases h with
      | @cons name a b _ pre post h hrest =>
          have hothers := ih hrest hdistinct.2
          rw [Entries.find?_append] at hothers ⊢
          by_cases hname : name = wanted
          · subst hname
            have hpre : Entries.find? name pre = none := by
              apply Entries.find?_of_not_mem
              intro hmem
              apply hdistinct.1
              rw [hrest.names_perm.mem_iff, List.map_append]
              exact List.mem_append_left _ hmem
            rw [hpre, Entries.find?, Entries.find?, if_pos rfl, if_pos rfl]
            exact .some h
          · rw [Entries.find?, Entries.find?, if_neg hname, if_neg hname]
            exact hothers

variable {a b : Node}

theorem Reordered.get?_rel (h : a.Reordered b) (hwf : a.WellFormed) (l : List Name) :
    Option.Rel Reordered (a.get? l) (b.get? l) := by
  induction l generalizing a b with
  | nil => exact .some h
  | cons name l ih =>
      cases h with
      | file content => exact .none
      | link target => exact .none
      | @dir es fs h =>
          have hfound := h.find?_rel hwf.1 name
          simp only [get?]
          generalize hes : Entries.find? name es = c at hfound
          generalize Entries.find? name fs = d at hfound
          cases hfound with
          | some hchild => exact ih hchild (hwf.2.of_find? hes)
          | none => exact .none

theorem Reordered.move_eq (h : a.Reordered b) (hwf : a.WellFormed) (here : List Name)
    (name : Name) : b.move here name = a.move here name := by
  have hhere := h.get?_rel hwf here.reverse
  unfold move
  generalize hnode : a.get? here.reverse = node at hhere
  generalize b.get? here.reverse = node' at hhere
  cases hhere with
  | none => rfl
  | some hnodes =>
      cases hnodes with
      | file content => rfl
      | link target => rfl
      | @dir es fs hentries =>
          have hfound := hentries.find?_rel (hwf.get? hnode).1 name
          dsimp only
          generalize Entries.find? name es = c at hfound
          generalize Entries.find? name fs = d at hfound
          cases hfound with
          | none => rfl
          | some hchild => cases hchild <;> rfl

theorem Reordered.walk_eq (h : a.Reordered b) (hwf : a.WellFormed) (links : Nat)
    (here steps : List Name) : b.walk links here steps = a.walk links here steps := by
  induction links, here, steps using walk_induction with
  | nil links here => rw [walk_nil, walk_nil]
  | cons links here name rest ih ihl =>
      rw [walk_cons, walk_cons, h.move_eq hwf]
      cases a.move here name with
      | stop e => rfl
      | goto here => exact ih here
      | follow target =>
          cases links with
          | zero => rfl
          | succ links => exact ihl links _ _ rfl

theorem Reordered.resolve_eq (h : a.Reordered b) (hwf : a.WellFormed) (path : Bytes) :
    b.resolve path = a.resolve path := by
  rw [resolve, resolve, h.walk_eq hwf]

theorem Reordered.readFile_eq (h : a.Reordered b) (hwf : a.WellFormed) (path : Bytes) :
    b.readFile path = a.readFile path := by
  unfold readFile
  rw [h.resolve_eq hwf]
  cases a.resolve path with
  | error e => rfl
  | ok location =>
      have hnodes := h.get?_rel hwf location
      simp only [bind, Except.bind]
      generalize a.get? location = node at hnodes
      generalize b.get? location = node' at hnodes
      cases hnodes with
      | none => rfl
      | some hnode => cases hnode <;> rfl

end Node

/-! ## Stores -/

namespace FileStore

variable {a b : Node}

theorem keys_perm_of_reordered (extension : String) (h : a.Reordered b) :
    (keys extension a).Perm (keys extension b) :=
  h.files_perm.filterMap _

theorem isListable_of_reordered (root : String) (h : a.Reordered b) :
    isListable root b = isListable root a := by
  rw [isListable, isListable, Bool.eq_iff_iff, List.all_eq_true, List.all_eq_true]
  simp only [h.directories_perm.mem_iff]

theorem list_of_reordered (store : FileStore) (h : a.Reordered b) (hwf : a.WellFormed)
    (q : Query) : store.list b q = store.list a q := by
  cases hroot : a.resolve (utf8 store.root) with
  | error e =>
      simp only [list, collect, h.resolve_eq hwf, hroot]
      rfl
  | ok location =>
      have hrootb := (h.resolve_eq hwf _).trans hroot
      have hnodes := h.get?_rel hwf location
      rw [list, list, collect_of_resolve hroot, collect_of_resolve hrootb]
      generalize a.get? location = node at hnodes
      generalize b.get? location = node' at hnodes
      cases hnodes with
      | none => rfl
      | some hnode =>
          cases hnode with
          | file content => rfl
          | link target => rfl
          | dir hentries =>
              have hdir := Node.Reordered.dir hentries
              have hkeys := keys_perm_of_reordered store.extension hdir
              simp only [isListable_of_reordered store.root hdir]
              split
              · exact congrArg Except.ok (Query.select_of_perm (hkeys.symm.filter q.contains))
              · rfl

/-- The order in which directories enumerate their entries makes no difference to a store. -/
theorem view_of_reordered (store : FileStore) (h : a.Reordered b) (hwf : a.WellFormed) :
    store.view b = store.view a := by
  have hlist : store.list b = store.list a := funext (store.list_of_reordered h hwf)
  have hread : store.read b = store.read a := by
    funext key
    rw [read, read, h.readFile_eq hwf]
  rw [view, view, hlist, hread]

end FileStore
end HourlyUsage
