import HourlyUsage.CommandLine.Parser
import Mathlib.Logic.Function.Basic

/-!
# Written options

An option and its value are written as one argument, with an equals sign in between.  A level
takes such arguments one after the other: with valid values for options that it knows, each of
them at most once, it ends up with exactly these values.
-/

namespace HourlyUsage

def Format.name : Format → String
  | .table => "table"
  | .json => "json"

namespace CommandLine

/-! ## Texts -/

/-- An option with its value, as one argument. -/
def written (p : Opt × String) : String := "--" ++ p.1.long ++ "=" ++ p.2

section Written

variable (p : Opt × String)

theorem toList_written :
    (written p).toList = '-' :: '-' :: (p.1.long.toList ++ '=' :: p.2.toList) := by
  simp [written]

theorem takeWhile_long (o : Opt) (value : List Char) :
    (o.long.toList ++ '=' :: value).takeWhile (fun c ↦ c != '=') = o.long.toList := by
  cases o <;> simp [Opt.long]

theorem dropWhile_long (o : Opt) (value : List Char) :
    (o.long.toList ++ '=' :: value).dropWhile (fun c ↦ c != '=') = '=' :: value := by
  cases o <;> simp [Opt.long]

/-- The first equals sign ends the name, and the value may hold more of them. -/
theorem ofArgument_written : Token.ofArgument (written p) = .long p.1.long (some p.2) := by
  unfold Token.ofArgument
  rw [toList_written]
  simp [takeWhile_long, dropWhile_long]

theorem ne_written {name : String} (h : name.toList.head? ≠ some '-') : name ≠ written p := by
  rintro rfl
  exact h (by rw [toList_written]; rfl)

theorem child?_written (l : Level) : l.child? (written p) = none := by
  have hname : ∀ c ∈ l.children, c.1.toList.head? ≠ some '-' := by
    cases l <;> simp [Level.children]
  have hnone : (l.children.find? fun c ↦ c.1 = written p) = none :=
    List.find?_eq_none.2 fun c hc ↦ by simpa using ne_written p (hname c hc)
  rw [Level.child?, hnone]
  rfl

theorem written_ne_helpName : written p ≠ helpName := (ne_written p (by simp [helpName])).symm

end Written

theorem ofLong?_long {l : Level} {o : Opt} (h : o ∈ l.options) : l.ofLong? o.long = some o := by
  cases l <;> cases o <;> simp [Level.options, Level.ofLong?, Opt.long] at h ⊢

/-! ## Values -/

/-- Can a text be read as a value of an option?  Every text names an account. -/
def Opt.Accepts (value : String) : Opt → Prop
  | .format => ∃ f : Format, value = f.name
  | .start => ∃ t, readTime value = .ok t
  | .stop => ∃ t, readTime value = .ok t
  | .window => ∃ d, readWindow value = .ok d
  | .account => True
  | .store => value ≠ ""
  | .output => value ≠ ""

def formatNamed? (value : String) : Option Format :=
  [Format.table, Format.json].find? fun f ↦ f.name = value

theorem formatNamed?_name (f : Format) : formatNamed? f.name = some f := by
  cases f <;> simp [formatNamed?, Format.name]

/-- The settings that values of options stand for. -/
def Settings.ofValues (f : Opt → Option String) : Settings where
  format := (f .format).bind formatNamed?
  account := f .account
  start := (f .start).bind fun v ↦ (readTime v).toOption
  stop := (f .stop).bind fun v ↦ (readTime v).toOption
  window := (f .window).bind fun v ↦ (readWindow v).toOption
  store := f .store
  output := f .output

open Function (update update_of_ne)

section Settings

variable {f : Opt → Option String} {o : Opt} {value : String}

theorem Settings.has_ofValues (h : ∀ value, f o = some value → o.Accepts value) :
    (ofValues f).has o = (f o).isSome := by
  cases hf : f o with
  | none => cases o <;> simp [has, ofValues, hf]
  | some value =>
      have hvalue := h value hf
      cases o with
      | format =>
          obtain ⟨fmt, rfl⟩ := hvalue
          simp [has, ofValues, hf, formatNamed?_name]
      | start =>
          obtain ⟨t, ht⟩ := hvalue
          simp [has, ofValues, hf, ht, Except.toOption]
      | stop =>
          obtain ⟨t, ht⟩ := hvalue
          simp [has, ofValues, hf, ht, Except.toOption]
      | window =>
          obtain ⟨d, hd⟩ := hvalue
          simp [has, ofValues, hf, hd, Except.toOption]
      | account => simp [has, ofValues, hf]
      | store => simp [has, ofValues, hf]
      | output => simp [has, ofValues, hf]

theorem Settings.set_ofValues (hvalue : o.Accepts value) :
    (ofValues f).set o value = .ok (ofValues (update f o (some value))) := by
  cases o with
  | format =>
      obtain ⟨fmt, rfl⟩ := hvalue
      cases fmt <;> simp [set, ofValues, formatNamed?, Format.name]
  | start =>
      obtain ⟨t, ht⟩ := hvalue
      simp [set, ofValues, ht, Except.toOption]
  | stop =>
      obtain ⟨t, ht⟩ := hvalue
      simp [set, ofValues, ht, Except.toOption]
  | window =>
      obtain ⟨d, hd⟩ := hvalue
      simp [set, ofValues, hd, Except.toOption]
  | account => simp [set, ofValues]
  | store =>
      have hne : value ≠ "" := hvalue
      simp [set, ofValues, hne]
  | output =>
      have hne : value ≠ "" := hvalue
      simp [set, ofValues, hne]

theorem Settings.assign_ofValues (hnew : f o = none) (hvalue : o.Accepts value) :
    (ofValues f).assign o value = .ok (ofValues (update f o (some value))) := by
  have hfree : (ofValues f).has o = false := by
    rw [has_ofValues (by simp [hnew]), hnew]
    rfl
  rw [assign, hfree, if_neg Bool.false_ne_true, set_ofValues hvalue]

end Settings

/-! ## Options of a level -/

/-- The value that is given to an option, if one is. -/
def valueOf (options : List (Opt × String)) (o : Opt) : Option String := options.lookup o

theorem valueOf_cons (p : Opt × String) (options : List (Opt × String)) :
    valueOf (p :: options) = update (valueOf options) p.1 (some p.2) := by
  obtain ⟨o, value⟩ := p
  funext a
  by_cases ha : a = o
  · simp [valueOf, ha]
  · simp [valueOf, List.lookup_cons, beq_false_of_ne ha, ha]

/-- Valid values for options of a level, each of which has at most one. -/
structure ValidOptions (l : Level) (options : List (Opt × String)) : Prop where
  nodup : (options.map Prod.fst).Nodup
  known : ∀ p ∈ options, p.1 ∈ l.options
  accepts : ∀ p ∈ options, p.1.Accepts p.2

theorem ValidOptions.tail {l : Level} {p : Opt × String} {options : List (Opt × String)}
    (h : ValidOptions l (p :: options)) : ValidOptions l options where
  nodup := (List.nodup_cons.1 h.nodup).2
  known q hq := h.known q (List.mem_cons_of_mem p hq)
  accepts q hq := h.accepts q (List.mem_cons_of_mem p hq)

section Scan

variable {l : Level} {s s' : Settings} {p : Opt × String}

theorem attach_of_assign {o : Opt} {value : String} (h : s.assign o value = .ok s') :
    Progress.attach { settings := s } o value = .ok { settings := s' } := by
  change (s.assign o value >>= fun s ↦ Except.ok (⟨s, none⟩ : Progress)) = _
  rw [h]
  rfl

theorem scan_written (hp : p.1 ∈ l.options) (hs : s.assign p.1 p.2 = .ok s')
    (rest : List String) :
    scan l false { settings := s } (written p :: rest) =
      scan l false { settings := s' } rest := by
  have hlong : takeLong l { settings := s } p.1.long (some p.2) = .ok { settings := s' } := by
    simp only [takeLong, ofLong?_long hp]
    exact attach_of_assign hs
  have hplain : (!Progress.awaiting { settings := s } && ((l.child? (written p)).isSome ||
      (!l.children.isEmpty && written p == helpName))) = false := by
    simp [child?_written, written_ne_helpName]
  rw [scan, hplain, if_neg Bool.false_ne_true, ofArgument_written]
  simp only [hlong]
  rfl

/-- A level reads options that are new to it one after the other. -/
theorem scan_options {options : List (Opt × String)} {f : Opt → Option String}
    (hoptions : ValidOptions l options) (hnew : ∀ p ∈ options, f p.1 = none)
    (rest : List String) :
    scan l false { settings := .ofValues f } (options.map written ++ rest) =
      scan l false { settings := .ofValues fun o ↦ (f o).or (valueOf options o) } rest := by
  induction options generalizing f with
  | nil => simp [valueOf]
  | cons p options ih =>
      have hp : p ∈ p :: options := List.mem_cons_self
      have hassign := Settings.assign_ofValues (hnew p hp) (hoptions.accepts p hp)
      have hvalues : (fun o ↦ (update f p.1 (some p.2) o).or (valueOf options o)) =
          fun o ↦ (f o).or (valueOf (p :: options) o) := by
        funext o
        rw [valueOf_cons]
        by_cases ho : o = p.1
        · simp [ho, hnew p hp]
        · simp [ho]
      rw [List.map_cons, List.cons_append, scan_written (hoptions.known p hp) hassign,
        ih hoptions.tail ?_, hvalues]
      intro q hq
      have hne : q.1 ≠ p.1 := fun h ↦
        (List.nodup_cons.1 hoptions.nodup).1 (h ▸ List.mem_map_of_mem hq)
      rw [update_of_ne hne]
      exact hnew q (List.mem_cons_of_mem p hq)

/-- A level that nothing has been read of ends up with the values of its options. -/
theorem scan_written_options {options : List (Opt × String)} (hoptions : ValidOptions l options)
    (rest : List String) :
    scan l false {} (options.map written ++ rest) =
      scan l false { settings := .ofValues (valueOf options) } rest :=
  scan_options (f := fun _ ↦ none) hoptions (fun _ _ ↦ rfl) rest

/-- The name of a level below ends the options of a level. -/
theorem scan_child {below : Level} {name : String} {options : List (Opt × String)}
    (hchild : l.child? name = some below) (hoptions : ValidOptions l options)
    (rest : List String) :
    scan l false {} (options.map written ++ name :: rest) =
      .ok ({ settings := .ofValues (valueOf options) }, some (name, rest)) := by
  rw [scan_written_options hoptions, scan]
  simp [Progress.awaiting, hchild]

end Scan

end CommandLine
end HourlyUsage
