import HourlyUsage.FileTree.Path
import HourlyUsage.Proofs.TreeEdit

/-!
# Walks through a file tree

A walk takes one name after the other.  What a name comes to is decided by the
tree alone, so two walks are compared name by name: a path in pieces, a path
through directories without links, and a path in a tree with a new file.
-/

namespace HourlyUsage

open Text

/-- What one name of a path comes to. -/
inductive Move where
  | stop (e : IoError)
  | goto (here : List Name)
  | follow (target : Bytes)

namespace Node

/-- What a name comes to at a location, kept in reverse. -/
def move (tree : Node) (here : List Name) (name : Name) : Move :=
  match tree.get? here.reverse with
  | some (.dir es) =>
    if name = Path.dot then .goto here
    else if name = Path.dotDot then .goto here.tail
    else if Path.nameLimit < name.length then .stop .nameTooLong
    else match Entries.find? name es with
      | none => .stop .notFound
      | some (.link target) => .follow target
      | some _ => .goto (name :: here)
  | _ => .stop .notADirectory

variable {tree : Node} {links : Nat} {here mid l : List Name} {name : Name} {rest : List Name}

theorem walk_nil (tree : Node) (links : Nat) (here : List Name) :
    tree.walk links here [] = .ok here.reverse := by
  rw [walk]

theorem walk_cons (tree : Node) (links : Nat) (here : List Name) (name : Name)
    (rest : List Name) :
    tree.walk links here (name :: rest) =
      match tree.move here name with
      | .stop e => .error e
      | .goto here => tree.walk links here rest
      | .follow target =>
        match links with
        | 0 => .error .tooManyLinks
        | links + 1 =>
          tree.walk links (if Path.isAbsolute target then [] else here)
            (Path.steps target ++ rest) := by
  rw [walk, move]
  cases tree.get? here.reverse with
  | none => rfl
  | some node =>
      cases node with
      | file content => rfl
      | link target => rfl
      | dir es =>
          by_cases hdot : name = Path.dot
          · simp only [if_pos hdot]
          by_cases hdots : name = Path.dotDot
          · simp only [if_neg hdot, if_pos hdots]
          by_cases hlong : Path.nameLimit < name.length
          · simp only [if_neg hdot, if_neg hdots, if_pos hlong]
          simp only [if_neg hdot, if_neg hdots, if_neg hlong]
          rcases Entries.find? name es with _ | ⟨_ | _ | _⟩ <;> rfl

/-- Where steps lead that follow no link, if they lead anywhere. -/
def direct? (tree : Node) : (here : List Name) → (steps : List Name) → Option (List Name)
  | here, [] => some here.reverse
  | here, name :: rest =>
    match tree.move here name with
    | .goto here => tree.direct? here rest
    | _ => none

theorem walk_of_direct? {steps : List Name} (h : tree.direct? here steps = some l) (links : Nat) :
    tree.walk links here steps = .ok l := by
  induction steps generalizing here with
  | nil =>
      obtain rfl := Option.some.inj h
      exact walk_nil tree links here
  | cons name steps ih =>
      rw [direct?] at h
      rw [walk_cons]
      split at h
      · next hmove =>
        simp only [hmove]
        exact ih h
      · cases h

theorem resolve_of_direct? {path : Bytes} (hcheck : Path.check path = .ok ())
    (h : tree.direct? [] (Path.steps path) = some l) : tree.resolve path = .ok l := by
  rw [resolve, hcheck]
  exact walk_of_direct? h _

theorem walk_induction {motive : Nat → List Name → List Name → Prop}
    (nil : ∀ links here, motive links here [])
    (cons : ∀ links here name rest, (∀ here, motive links here rest) →
      (∀ fewer here steps, links = fewer + 1 → motive fewer here steps) →
      motive links here (name :: rest))
    (links : Nat) (here steps : List Name) : motive links here steps := by
  induction links generalizing here steps with
  | zero =>
      induction steps generalizing here with
      | nil => exact nil 0 here
      | cons name rest ih => exact cons 0 here name rest ih fun _ _ _ h ↦ nomatch h
  | succ links ihl =>
      induction steps generalizing here with
      | nil => exact nil _ here
      | cons name rest ih =>
          refine cons _ here name rest ih fun fewer here steps h ↦ ?_
          obtain rfl := Nat.succ.inj h
          exact ihl here steps

/-- The second part of a path is walked from where the first part leads. -/
theorem walk_append (tree : Node) (links : Nat) (here steps : List Name) :
    ∃ fewer, ∀ rest, tree.walk links here (steps ++ rest) =
      (tree.walk links here steps).bind fun mid ↦ tree.walk fewer mid.reverse rest := by
  induction links, here, steps using walk_induction with
  | nil links here => exact ⟨links, fun rest ↦ by simp [walk_nil, Except.bind]⟩
  | cons links here name steps ih ihl =>
      simp only [List.cons_append, walk_cons]
      cases tree.move here name with
      | stop e => exact ⟨links, fun rest ↦ rfl⟩
      | goto here => exact ih here
      | follow target =>
          cases links with
          | zero => exact ⟨0, fun rest ↦ rfl⟩
          | succ links =>
              obtain ⟨fewer, h⟩ := ihl links (if Path.isAbsolute target then [] else here)
                (Path.steps target ++ steps) rfl
              refine ⟨fewer, fun rest ↦ ?_⟩
              simpa only [List.append_assoc] using h rest

/-- A path that ends in a dot leads to a directory, where it leads without the dot. -/
theorem walk_dot_eq_ok {steps : List Name}
    (h : tree.walk links here (steps ++ [Path.dot]) = .ok l) :
    tree.walk links here steps = .ok l ∧ ∃ es, tree.get? l = some (.dir es) := by
  obtain ⟨fewer, happend⟩ := walk_append tree links here steps
  rw [happend] at h
  cases hmid : tree.walk links here steps with
  | error e => simp [hmid, Except.bind] at h
  | ok mid =>
      simp only [hmid, Except.bind, walk_cons, move, List.reverse_reverse] at h
      rcases hnode : tree.get? mid with _ | ⟨_ | _ | es⟩
      · simp [hnode] at h
      · simp [hnode] at h
      · simp [hnode] at h
      · simp only [hnode, if_true, walk_nil, List.reverse_reverse, Except.ok.injEq] at h
        exact ⟨congrArg _ h, es, h ▸ hnode⟩

/-- The names of a location lead there, if none of them is too long. -/
theorem walk_of_get? {node : Node} {names : List Name}
    (hnames : ∀ name ∈ names, name ≠ Path.dot ∧ name ≠ Path.dotDot)
    (hnode : tree.get? (here.reverse ++ names) = some node)
    (hlink : ∀ target, node ≠ .link target) :
    tree.walk links here names = .ok (here.reverse ++ names) ∨
      tree.walk links here names = .error .nameTooLong ∧
        ∃ name ∈ names, Path.nameLimit < name.length := by
  induction names generalizing here with
  | nil => exact .inl (by simp [walk_nil])
  | cons name names ih =>
      obtain ⟨hdot, hdots⟩ := hnames name (List.mem_cons_self ..)
      have hmore : (name :: here).reverse ++ names = here.reverse ++ name :: names := by simp
      rw [← hmore] at hnode ⊢
      have hrest := ih (fun n hn ↦ hnames n (List.mem_cons_of_mem _ hn)) hnode
      rw [hmore, get?_append] at hnode
      obtain ⟨parent, hparent, hbelow⟩ := Option.bind_eq_some_iff.1 hnode
      obtain ⟨es, child, rfl, hchild, hfound⟩ := get?_cons_eq_some hbelow
      have hnolink : ∀ target, child ≠ .link target := by
        rintro target rfl
        cases names with
        | nil => exact hlink target (Option.some.inj hfound).symm
        | cons n names => cases hfound
      simp only [walk_cons, move, hparent, if_neg hdot, if_neg hdots, hchild]
      by_cases hlong : Path.nameLimit < name.length
      · exact .inr ⟨by rw [if_pos hlong], name, List.mem_cons_self .., hlong⟩
      · have hlonger : (∃ n ∈ names, Path.nameLimit < n.length) →
            ∃ n ∈ name :: names, Path.nameLimit < n.length := by
          rintro ⟨n, hn, hlong⟩
          exact ⟨n, List.mem_cons_of_mem name hn, hlong⟩
        have hrest := hrest.imp_right (And.imp_right hlonger)
        rw [if_neg hlong]
        cases child with
        | link target => exact absurd rfl (hnolink target)
        | file content => exact hrest
        | dir fs => exact hrest

end Node

/-! ## Walks in a tree with a new file -/

namespace AddsFile

variable {name : Name} {content : Bytes} {l : List Name} {a b : Node}

/-- A name comes to the same with the new file, unless it is the name of that file. -/
theorem move_eq (h : AddsFile name content l a b) (here : List Name) (n : Name) :
    b.move here n = a.move here n ∨
      a.move here n = .stop .notFound ∧ b.move here n = .goto (n :: here) ∧
        (n :: here).reverse = l ++ [name] := by
  rcases hnode : a.get? here.reverse with _ | node
  · left
    rcases h.get?_of_get?_eq_none hnode with hb | hl
    · simp [Node.move, hnode, hb]
    · simp [Node.move, hnode, hl ▸ h.get?_new]
  obtain ⟨node', hnode', hgains⟩ := h.get?_of_get? hnode
  by_cases hdir : ¬∃ es, node = .dir es
  · left
    rcases hgains.eq_or_dir with rfl | ⟨es, es', rfl, -⟩
    · simp only [Node.move, hnode, hnode']
    · exact absurd ⟨es, rfl⟩ hdir
  obtain ⟨es, rfl⟩ := Classical.not_not.1 hdir
  obtain ⟨es', rfl⟩ := hgains.exists_dir
  simp only [Node.move, hnode, hnode']
  by_cases hdot : n = Path.dot
  · simp [hdot]
  by_cases hdots : n = Path.dotDot
  · simp [hdots]
  by_cases hlong : Path.nameLimit < n.length
  · simp [hdot, hdots, hlong]
  simp only [if_neg hdot, if_neg hdots, if_neg hlong]
  -- The entries are compared as what stands one name further in the two trees.
  rw [← Node.get?_concat hnode, ← Node.get?_concat hnode', ← List.reverse_cons]
  rcases hchild : a.get? (n :: here).reverse with _ | child
  · rcases h.get?_of_get?_eq_none hchild with hb | hl
    · left
      rw [hb]
    · rw [hl, h.get?_new]
      exact .inr ⟨rfl, rfl, rfl⟩
  · left
    obtain ⟨child', hchild', hgains⟩ := h.get?_of_get? hchild
    rw [hchild']
    rcases hgains.eq_or_dir with rfl | ⟨fs, fs', rfl, rfl⟩ <;> rfl

/-- A walk ends as it did, unless it missed what the new file now is. -/
theorem walk_eq (h : AddsFile name content l a b) (links : Nat) (here steps : List Name) :
    b.walk links here steps = a.walk links here steps ∨
      a.walk links here steps = .error .notFound ∧
        (b.walk links here steps = .ok (l ++ [name]) ∨
          b.walk links here steps = .error .notADirectory) := by
  induction links, here, steps using Node.walk_induction with
  | nil links here => exact .inl (by simp [Node.walk_nil])
  | cons links here n steps ih ihl =>
      simp only [Node.walk_cons]
      rcases h.move_eq here n with hmove | ⟨ha, hb, hl⟩
      · rw [hmove]
        cases a.move here n with
        | stop e => exact .inl rfl
        | goto here => exact ih here
        | follow target =>
            cases links with
            | zero => exact .inl rfl
            | succ links => exact ihl links _ _ rfl
      · rw [ha, hb]
        refine .inr ⟨rfl, ?_⟩
        cases steps with
        | nil => exact .inl (by simp only [Node.walk_nil, hl])
        | cons k steps => exact .inr (by simp [Node.walk_cons, Node.move, hl, h.get?_new])

/-- A directory that a path leads to was there before. -/
theorem walk_dot (h : AddsFile name content l a b) {links : Nat} {here steps m : List Name}
    (hm : b.walk links here (steps ++ [Path.dot]) = .ok m) :
    a.walk links here (steps ++ [Path.dot]) = .ok m := by
  obtain ⟨-, es, hdir⟩ := Node.walk_dot_eq_ok hm
  rcases h.walk_eq links here (steps ++ [Path.dot]) with heq | ⟨-, hb | hb⟩
  · rw [← heq, hm]
  · obtain rfl := Except.ok.inj (hm.symm.trans hb)
    cases h.get?_new.symm.trans hdir
  · cases hm.symm.trans hb

end AddsFile
end HourlyUsage
