import HourlyUsage.Proofs.CommandValues

/-!
# Arrangements of a command line

The options of a command may stand in any order, and the format at any level.  What a command line
asks for depends on the value of each option alone, and the environment stands in for the account
and the store where the command line leaves them out.
-/

namespace HourlyUsage
namespace CommandLine

open Function (update update_of_ne)

/-! ## Values in any order -/

section Values

variable {options : List (Opt × String)} {o : Opt} {value : String}

theorem valueOf_append (options others : List (Opt × String)) (o : Opt) :
    valueOf (options ++ others) o = (valueOf options o).or (valueOf others o) :=
  List.lookup_append

theorem valueOf_eq_none_iff : valueOf options o = none ↔ o ∉ options.map Prod.fst := by
  rw [valueOf, List.lookup_eq_none_iff]
  simp only [bne_iff_ne, List.mem_map, not_exists, not_and]
  exact ⟨fun h p hp ho ↦ h p hp ho.symm, fun h p hp ho ↦ h p hp ho.symm⟩

theorem mem_of_valueOf (h : valueOf options o = some value) : (o, value) ∈ options := by
  obtain ⟨l₁, l₂, rfl, -⟩ := List.lookup_eq_some_iff.1 h
  simp

theorem valueOf_of_mem (hnodup : (options.map Prod.fst).Nodup) (h : (o, value) ∈ options) :
    valueOf options o = some value := by
  induction options with
  | nil => simp at h
  | cons p options ih =>
      rw [List.map_cons, List.nodup_cons] at hnodup
      rw [valueOf_cons]
      rcases List.mem_cons.1 h with rfl | h
      · simp
      · have hne : o ≠ p.1 := fun ho ↦ hnodup.1 (ho ▸ List.mem_map_of_mem h)
        rw [update_of_ne hne, ih hnodup.2 h]

theorem valueOf_perm {others : List (Opt × String)} (hnodup : (options.map Prod.fst).Nodup)
    (h : options.Perm others) : valueOf options = valueOf others := by
  have hothers : (others.map Prod.fst).Nodup := (h.map Prod.fst).nodup_iff.1 hnodup
  funext o
  cases hvalue : valueOf options o with
  | some value => exact (valueOf_of_mem hothers (h.mem_iff.1 (mem_of_valueOf hvalue))).symm
  | none =>
      rw [valueOf_eq_none_iff, (h.map Prod.fst).mem_iff] at hvalue
      exact (valueOf_eq_none_iff.2 hvalue).symm

end Values

namespace ValidOptions

variable {l : Level} {options others : List (Opt × String)}

theorem of_perm (h : ValidOptions l options) (hperm : options.Perm others) :
    ValidOptions l others where
  nodup := (hperm.map Prod.fst).nodup_iff.1 h.nodup
  known p hp := h.known p (hperm.mem_iff.2 hp)
  accepts p hp := h.accepts p (hperm.mem_iff.2 hp)

theorem of_sublist (h : ValidOptions l options) (hsub : others.Sublist options) :
    ValidOptions l others where
  nodup := h.nodup.sublist (hsub.map Prod.fst)
  known p hp := h.known p (hsub.subset hp)
  accepts p hp := h.accepts p (hsub.subset hp)

/-- The format is known at every level. -/
theorem of_format (h : ValidOptions l options) (hformat : ∀ p ∈ options, p.1 = .format)
    (m : Level) : ValidOptions m options where
  nodup := h.nodup
  known p hp := by
    rw [hformat p hp]
    cases m <;> simp [Level.options]
  accepts := h.accepts

theorem accepts_valueOf (h : ValidOptions l options) (o : Opt) (v : String)
    (hvalue : valueOf options o = some v) : o.Accepts v :=
  h.accepts (o, v) (mem_of_valueOf hvalue)

theorem format_append (h : ValidOptions l options) (others : List (Opt × String)) :
    (Settings.ofValues (valueOf (options ++ others))).format =
      (Settings.ofValues (valueOf options)).format.or
        (Settings.ofValues (valueOf others)).format := by
  simp only [Settings.ofValues, valueOf_append]
  cases hvalue : valueOf options .format with
  | none => rfl
  | some v =>
      obtain ⟨fmt, rfl⟩ := h.accepts_valueOf .format v hvalue
      simp [formatNamed?_name]

end ValidOptions

/-! ## Levels -/

section Levels

variable {l : Level} {env : Environment} {name : String} {options : List (Opt × String)}

theorem parseCommand_written (hoptions : ValidOptions l options) :
    parseCommand l env (options.map written) =
      (commandOf l (supplied l env (valueOf options))).map fun c ↦
        ((Settings.ofValues (supplied l env (valueOf options))).format, c) := by
  have hscan := scan_written_options hoptions []
  rw [List.append_nil] at hscan
  unfold parseCommand
  rw [hscan]
  change (fillIn l env (Settings.ofValues (valueOf options)) >>= _) = _
  rw [fillIn_ofValues hoptions.accepts_valueOf, commandOf]
  split
  · rfl
  · cases h : (Settings.ofValues (supplied l env (valueOf options))).command? l with
    | none =>
        simp only [bind, Except.bind, Except.map, h]
        rfl
    | some c =>
        simp only [bind, Except.bind, Except.map, h]
        rfl

theorem child?_of_mem (hl : (name, l) ∈ Level.usage.children) :
    Level.usage.child? name = some l := by
  simp only [Level.children, List.mem_cons, Prod.mk.injEq, List.not_mem_nil, or_false] at hl
  rcases hl with ⟨rfl, rfl⟩ | ⟨rfl, rfl⟩ | ⟨rfl, rfl⟩ <;> simp [Level.child?, Level.children]

theorem parseUsage_written (hl : (name, l) ∈ Level.usage.children)
    (hoptions : ValidOptions .usage options) (rest : List String) :
    parseUsage env (options.map written ++ name :: rest) =
      (parseCommand l env rest).map fun r ↦
        (r.1 <|> (Settings.ofValues (valueOf options)).format, r.2) := by
  have hchild := child?_of_mem hl
  unfold parseUsage
  rw [scan_child hchild hoptions]
  simp only [bind, Except.bind, hchild]
  cases parseCommand l env rest with
  | error e => rfl
  | ok r => rfl

theorem parse_written (hoptions : ValidOptions .top options) (rest : List String) :
    parse env (options.map written ++ "usage" :: rest) =
      (parseUsage env rest).map fun r ↦
        ⟨(r.1 <|> (Settings.ofValues (valueOf options)).format).getD .table, r.2⟩ := by
  have hchild : Level.top.child? "usage" = some .usage := by simp [Level.child?, Level.children]
  unfold parse
  rw [scan_child hchild hoptions]
  simp only [bind, Except.bind, hchild]
  cases parseUsage env rest with
  | error e => rfl
  | ok r => rfl

end Levels

/-! ## Arrangements -/

/-- Does a command line hold some options of a command?  All of them follow the name of the command,
only the format may stand in front of it. -/
def Arranged (name : String) (options : List (Opt × String)) (args : List String) : Prop :=
  ∃ before between behind, options.Perm (behind ++ (between ++ before)) ∧
    (∀ p ∈ between ++ before, p.1 = .format) ∧
    args = before.map written ++ "usage" :: (between.map written ++ name :: behind.map written)

/-- The environment with the account and the store of some options. -/
def Environment.setAll (env : Environment) (options : List (Opt × String)) : Environment where
  account := (valueOf options .account).or env.account
  store := (valueOf options .store).or env.store

section Arranged

variable {l : Level} {env : Environment} {name : String} {options : List (Opt × String)}
  {args : List String}

/-- Formats make no difference to the command. -/
theorem commandOf_append_formats {formats : List (Opt × String)}
    (hformats : ∀ p ∈ formats, p.1 = .format) :
    commandOf l (supplied l env (valueOf (options ++ formats))) =
      commandOf l (supplied l env (valueOf options)) := by
  have hvalues : supplied l env (valueOf (options ++ formats)) =
      update (supplied l env (valueOf options)) .format (valueOf (options ++ formats) .format) := by
    funext o
    by_cases ho : o = .format
    · rw [ho, supplied_format, Function.update_self]
    · have hnone : valueOf formats o = none := by
        rw [valueOf_eq_none_iff, List.mem_map]
        rintro ⟨p, hp, rfl⟩
        exact ho (hformats p hp)
      rw [update_of_ne ho, supplied, valueOf_append, hnone, Option.or_none, supplied]
  rw [hvalues, commandOf_update_format]

/-- A command line asks for what its options ask for, wherever they stand. -/
theorem parse_of_arranged (hl : (name, l) ∈ Level.usage.children)
    (hoptions : ValidOptions l options) (hargs : Arranged name options args) :
    parse env args = outcome l (supplied l env (valueOf options)) := by
  obtain ⟨before, between, behind, hperm, hformat, rfl⟩ := hargs
  have hall := hoptions.of_perm hperm
  have hfront := hall.of_sublist (List.sublist_append_right behind (between ++ before))
  have hbehind := hall.of_sublist (List.sublist_append_left behind (between ++ before))
  have hbetween := (hfront.of_sublist (List.sublist_append_left between before)).of_format
    (fun p hp ↦ hformat p (List.mem_append_left before hp)) .usage
  have hbefore := (hfront.of_sublist (List.sublist_append_right between before)).of_format
    (fun p hp ↦ hformat p (List.mem_append_right between hp)) .top
  rw [valueOf_perm hoptions.nodup hperm, parse_written hbefore, parseUsage_written hl hbetween,
    parseCommand_written hbehind, outcome]
  -- the formats of the three levels give way to each other, from the deepest to the top
  have hfmt : (Settings.ofValues (supplied l env
      (valueOf (behind ++ (between ++ before))))).format =
      ((Settings.ofValues (supplied l env (valueOf behind))).format.or
        (Settings.ofValues (valueOf between)).format).or
        (Settings.ofValues (valueOf before)).format := by
    rw [format_supplied, format_supplied, hbehind.format_append, hbetween.format_append,
      Option.or_assoc]
  rw [commandOf_append_formats hformat, hfmt]
  cases commandOf l (supplied l env (valueOf behind)) with
  | error e => rfl
  | ok c => simp [Except.map, Option.orElse_eq_or]

/-- An environment that holds what was left out of the options stands in for it. -/
theorem supplied_setAll {moved kept : List (Opt × String)} (hoptions : ValidOptions l options)
    (hperm : options.Perm (moved ++ kept)) (hmoved : ∀ p ∈ moved, p.1 = .account ∨ p.1 = .store) :
    supplied l (env.setAll moved) (valueOf kept) = supplied l env (valueOf options) := by
  have hall := hoptions.of_perm hperm
  rw [valueOf_perm hoptions.nodup hperm]
  funext o
  simp only [supplied, valueOf_append]
  cases hvalue : valueOf moved o with
  | none =>
      have hsame : (env.setAll moved).value? o = env.value? o := by
        cases o <;> simp [Environment.value?, Environment.setAll, hvalue]
      rw [hsame, Option.none_or]
  | some v =>
      have hmem := mem_of_valueOf hvalue
      have hkept : valueOf kept o = none := by
        rw [valueOf_eq_none_iff]
        intro hkept
        have hnodup := hall.nodup
        rw [List.map_append, List.nodup_append] at hnodup
        exact hnodup.2.2 o (List.mem_map_of_mem hmem) o hkept rfl
      have hset : (env.setAll moved).value? o = some v := by
        obtain rfl | rfl := hmoved (o, v) hmem <;>
          simp [Environment.value?, Environment.setAll, hvalue]
      have hknown : o ∈ l.options := hall.known (o, v) (List.mem_append_left kept hmem)
      simp [hkept, hset, hknown]

theorem accepts_supplied (hoptions : ValidOptions l options)
    (hstore : supplied l env (valueOf options) .store ≠ some "") (o : Opt) (v : String)
    (h : supplied l env (valueOf options) o = some v) : o.Accepts v := by
  cases hvalue : valueOf options o with
  | some w =>
      obtain rfl : w = v := by simpa [supplied, hvalue] using h
      exact hoptions.accepts_valueOf o w hvalue
  | none =>
      have henv : env.value? o = some v := by
        simp only [supplied, hvalue, Option.none_or, Option.ite_none_right_eq_some] at h
        exact h.2
      -- the environment holds an account, of any text, and a store
      cases o with
      | account => exact trivial
      | store =>
          rintro rfl
          exact hstore h
      | format | start | stop | window | output => cases henv

/-- What a command line asks for depends on the value of each of its options alone.  The options of
a command may stand in any order and the format anywhere, the environment may hold the account or
the store instead, and an option wins over the environment.  A command line succeeds exactly if each
option that its command requires has a value, and no store is named by an empty text. -/
theorem parse_in_any_arrangement (hl : (name, l) ∈ Level.usage.children)
    (hoptions : ValidOptions l options) (hargs : Arranged name options args) (env : Environment) :
    (∀ args', Arranged name options args' → parse env args' = parse env args) ∧
      (∀ moved kept args', options.Perm (moved ++ kept) →
        (∀ p ∈ moved, p.1 = .account ∨ p.1 = .store) → Arranged name kept args' →
          parse (env.setAll moved) args' = parse env args) ∧
      (∀ env' : Environment, (∀ o, o ∉ options.map Prod.fst → env'.value? o = env.value? o) →
        parse env' args = parse env args) ∧
      (∀ i, parse env args = .ok i ↔
        supplied l env (valueOf options) .store ≠ some "" ∧
          i.Shows l (supplied l env (valueOf options))) ∧
      ((∃ i, parse env args = .ok i) ↔
        supplied l env (valueOf options) .store ≠ some "" ∧
          ∀ o ∈ l.required, (supplied l env (valueOf options) o).isSome) := by
  have hf : supplied l env (valueOf options) .store ≠ some "" →
      ∀ o v, supplied l env (valueOf options) o = some v → o.Accepts v := accepts_supplied hoptions
  rw [parse_of_arranged hl hoptions hargs]
  refine ⟨fun args' hargs' ↦ parse_of_arranged hl hoptions hargs',
    fun moved kept args' hperm hmoved hargs' ↦ ?_, fun env' henv ↦ ?_,
    fun i ↦ outcome_eq_ok_iff hf, exists_outcome_iff hf hl⟩
  · have hkept := (hoptions.of_perm hperm).of_sublist (List.sublist_append_right moved kept)
    rw [parse_of_arranged hl hkept hargs', supplied_setAll hoptions hperm hmoved]
  · rw [parse_of_arranged hl hoptions hargs,
      supplied_congr fun o ho ↦ henv o (valueOf_eq_none_iff.1 ho)]

end Arranged

/-- An export whose account begins with an equals sign and whose output looks like an option, in
an environment that holds another account and no name of a store.  With account and store in the
environment and the format in front of it all, it is the same export. -/
theorem parse_in_any_arrangement_of_export :
    let options : List (Opt × String) := [(.account, "=acme"), (.start, "2006-05-04"),
      (.stop, "2006-05-05"), (.window, "90m"), (.store, "usage"), (.output, "--help"),
      (.format, "json")]
    let args := ["usage", "--format=json", "export", "--output=--help", "--start=2006-05-04",
      "--store=usage", "--account==acme", "--window=90m", "--end=2006-05-05"]
    let args' := ["--format=json", "usage", "export", "--end=2006-05-05", "--window=90m",
      "--output=--help", "--start=2006-05-04"]
    let env : Environment := ⟨some "other", some ""⟩
    ("export", Level.exportTo) ∈ Level.usage.children ∧ ValidOptions .exportTo options ∧
      Arranged "export" options args ∧ parse ⟨some "=acme", some "usage"⟩ args' = parse env args ∧
      parse {} args = parse env args ∧ ∃ i, parse env args = .ok i ∧ i.format = .json := by
  intro options args args' env
  have hl : ("export", Level.exportTo) ∈ Level.usage.children := by simp [Level.children]
  have hoptions : ValidOptions .exportTo options := by
    refine ⟨by decide, by decide, ?_⟩
    simp only [options, List.forall_mem_cons, List.not_mem_nil, false_implies, implies_true,
      and_true]
    exact ⟨trivial, ⟨_, rfl⟩, ⟨_, rfl⟩, ⟨_, rfl⟩, by simp [Opt.Accepts], by simp [Opt.Accepts],
      ⟨.json, rfl⟩⟩
  have hargs : Arranged "export" options args :=
    ⟨[], [(.format, "json")], [(.output, "--help"), (.start, "2006-05-04"), (.store, "usage"),
      (.account, "=acme"), (.window, "90m"), (.stop, "2006-05-05")], by decide, by simp, rfl⟩
  have hargs' : Arranged "export" [(.start, "2006-05-04"), (.stop, "2006-05-05"),
      (.window, "90m"), (.output, "--help"), (.format, "json")] args' :=
    ⟨[(.format, "json")], [], [(.stop, "2006-05-05"), (.window, "90m"), (.output, "--help"),
      (.start, "2006-05-04")], by decide, by simp, rfl⟩
  obtain ⟨-, hmoved, henv, hshows, hexists⟩ := parse_in_any_arrangement hl hoptions hargs env
  refine ⟨hl, hoptions, hargs, ?_, ?_, ?_⟩
  · exact hmoved [(.account, "=acme"), (.store, "usage")] _ args' (by decide) (by simp) hargs'
  · refine henv {} fun o ho ↦ ?_
    cases o <;> simp [options] at ho
  · obtain ⟨i, hi⟩ := hexists.2 ⟨by decide, by decide⟩
    refine ⟨i, hi, ?_⟩
    have hformat : "json" = i.format.name := ((hshows i).1 hi).2.2
    cases hfmt : i.format with
    | json => rfl
    | table => simp [hfmt, Format.name] at hformat

end CommandLine
end HourlyUsage
