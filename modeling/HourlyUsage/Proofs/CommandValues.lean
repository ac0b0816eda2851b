import HourlyUsage.Proofs.DateArgument
import HourlyUsage.Proofs.OptionText

/-!
# Values of a command

What a command does is told by the values of its options: those that are written, and where the
account or the store is left out, what the environment holds.  A command is complete exactly if
each option that it requires has a value.
-/

namespace HourlyUsage

/-! ## What values ask for -/

def Range.Shows (f : CommandLine.Opt → Option String) (r : Range) : Prop :=
  f .account = some r.account ∧ (∃ v, f .start = some v ∧ readTime v = .ok r.start) ∧
    ∃ v, f .stop = some v ∧ readTime v = .ok r.stop

/-- Windows last 24 hours if nothing else is asked for. -/
def PlanRequest.Shows (f : CommandLine.Opt → Option String) (r : PlanRequest) : Prop :=
  r.range.Shows f ∧ readWindow ((f .window).getD "24h") = .ok r.window

def ExportRequest.Shows (f : CommandLine.Opt → Option String) (r : ExportRequest) : Prop :=
  r.plan.Shows f ∧ f .store = some r.store ∧ f .output = some r.output

namespace CommandLine

open Function (update update_of_ne)

/-- Is a command the one of a level, with the values of its options? -/
def Shows (f : Opt → Option String) : Level → Command → Prop
  | .query, .query r => r.Shows f
  | .plan, .plan r => r.Shows f
  | .exportTo, .exportTo r => r.Shows f
  | _, _ => False

def Invocation.Shows (l : Level) (f : Opt → Option String) (i : Invocation) : Prop :=
  CommandLine.Shows f l i.command ∧ (f .format).getD "table" = i.format.name

namespace Settings

variable (s : Settings)

def range? : Option Range := do return ⟨← s.account, ← s.start, ← s.stop⟩

theorem command?_query : s.command? .query = s.range?.map .query := by
  simp [command?, range?, Option.map_bind]

theorem command?_plan :
    s.command? .plan = s.range?.map fun r ↦ .plan ⟨r, s.window.getD defaultWindow⟩ := by
  simp [command?, range?, Option.map_bind]

theorem command?_exportTo :
    s.command? .exportTo = s.range?.bind fun r ↦ s.store.bind fun store ↦
      s.output.map fun output ↦
        .exportTo ⟨⟨r, s.window.getD defaultWindow⟩, store, output⟩ := by
  simp [command?, range?, Option.bind_assoc, Option.map_eq_bind]

end Settings

section Commands

variable {l : Level} {f : Opt → Option String}

theorem isSome_command?_iff {name : String} (hl : (name, l) ∈ Level.usage.children) (s : Settings) :
    (s.command? l).isSome ↔ ∀ o ∈ l.required, s.has o = true := by
  simp only [Level.children, List.mem_cons, Prod.mk.injEq, List.not_mem_nil, or_false] at hl
  rcases hl with ⟨-, rfl⟩ | ⟨-, rfl⟩ | ⟨-, rfl⟩ <;>
    simp [Settings.command?, Level.required, Settings.has, Option.isSome_iff_exists,
      Option.bind_eq_some_iff]

theorem range?_eq_some_iff {r : Range} : (Settings.ofValues f).range? = some r ↔ r.Shows f := by
  simp only [Settings.range?, Settings.ofValues, Option.bind_eq_bind, Option.bind_eq_some_iff,
    toOption_eq_some, Range.Shows, Option.pure_def, Option.some.injEq]
  constructor
  · rintro ⟨account, haccount, start, hstart, stop, hstop, rfl⟩
    exact ⟨haccount, hstart, hstop⟩
  · rintro ⟨haccount, hstart, hstop⟩
    exact ⟨r.account, haccount, r.start, hstart, r.stop, hstop, rfl⟩

theorem getD_window (hf : ∀ v, f .window = some v → Opt.window.Accepts v) (d : Duration) :
    (Settings.ofValues f).window.getD defaultWindow = d ↔
      readWindow ((f .window).getD "24h") = .ok d := by
  cases hvalue : f .window with
  | none =>
      have hday : readWindow "24h" = .ok defaultWindow := by rfl
      simp [Settings.ofValues, hvalue, hday]
  | some v =>
      obtain ⟨e, he⟩ := hf v hvalue
      simp [Settings.ofValues, hvalue, he, Except.toOption]

theorem getD_format (hf : ∀ v, f .format = some v → Opt.format.Accepts v) (fmt : Format) :
    (Settings.ofValues f).format.getD .table = fmt ↔ (f .format).getD "table" = fmt.name := by
  cases hvalue : f .format with
  | none => cases fmt <;> simp [Settings.ofValues, hvalue, Format.name]
  | some v =>
      obtain ⟨g, rfl⟩ := hf v hvalue
      cases g <;> cases fmt <;> simp [Settings.ofValues, hvalue, formatNamed?, Format.name]

theorem command?_eq_some_iff (hf : ∀ v, f .window = some v → Opt.window.Accepts v)
    {c : Command} : (Settings.ofValues f).command? l = some c ↔ Shows f l c := by
  cases l with
  | top => simp [Settings.command?, Shows]
  | usage => simp [Settings.command?, Shows]
  | query =>
      rw [Settings.command?_query, Option.map_eq_some_iff]
      cases c <;> simp [Shows, range?_eq_some_iff]
  | plan =>
      rw [Settings.command?_plan, Option.map_eq_some_iff]
      cases c with
      | query r => simp [Shows]
      | plan r =>
          constructor
          · rintro ⟨range, hrange, heq⟩
            cases heq
            exact ⟨range?_eq_some_iff.1 hrange, (getD_window hf _).1 rfl⟩
          · rintro ⟨hrange, hwindow⟩
            exact ⟨r.range, range?_eq_some_iff.2 hrange, by rw [(getD_window hf _).2 hwindow]⟩
      | exportTo r => simp [Shows]
  | exportTo =>
      simp only [Settings.command?_exportTo, Option.bind_eq_some_iff, Option.map_eq_some_iff]
      cases c with
      | query r => simp [Shows]
      | plan r => simp [Shows]
      | exportTo r =>
          constructor
          · rintro ⟨range, hrange, store, hstore, output, houtput, heq⟩
            cases heq
            exact ⟨⟨range?_eq_some_iff.1 hrange, (getD_window hf _).1 rfl⟩, hstore, houtput⟩
          · rintro ⟨⟨hrange, hwindow⟩, hstore, houtput⟩
            exact ⟨r.plan.range, range?_eq_some_iff.2 hrange, r.store, hstore, r.output, houtput,
              by rw [(getD_window hf _).2 hwindow]⟩

end Commands

/-! ## The environment -/

def Environment.value? (env : Environment) : Opt → Option String
  | .account => env.account
  | .store => env.store
  | _ => none

/-- The values of the options of a level, those that are left out from the environment. -/
def supplied (l : Level) (env : Environment) (f : Opt → Option String) (o : Opt) :
    Option String :=
  (f o).or (if o ∈ l.options then env.value? o else none)

/-- Takes for an option of a level what the environment holds, if the option is not set yet. -/
def Settings.fill (s : Settings) (l : Level) (o : Opt) : Option String → Except Refusal Settings
  | some v => if l.options.contains o && !s.has o then s.set o v else .ok s
  | none => .ok s

section Environment

variable {l : Level} {env : Environment} {f : Opt → Option String} {o : Opt}

theorem fillIn_eq_fill (s : Settings) :
    fillIn l env s =
      s.fill l .account (env.value? .account) >>= fun s ↦ s.fill l .store (env.value? .store) := by
  obtain ⟨account, store⟩ := env
  cases account with
  | none => cases store <;> rfl
  | some v =>
      by_cases h : (l.options.contains .account && !s.has .account) = true <;>
        cases store <;> simp only [fillIn, Environment.value?, Settings.fill, h, if_true] <;> rfl

theorem Settings.fill_ofValues (h : ∀ v, supplied l env f o = some v → o.Accepts v) :
    (ofValues f).fill l o (env.value? o) =
      .ok (ofValues (update f o (supplied l env f o))) := by
  cases hf : f o with
  | some given =>
      have hset : (ofValues f).has o = true := by
        rw [has_ofValues (fun v hv ↦ h v (by rw [supplied, hv]; rfl)), hf]
        rfl
      have hkeep : update f o (supplied l env f o) = f := by
        rw [supplied, hf, Option.some_or, ← hf, Function.update_eq_self]
      rw [hkeep]
      cases env.value? o with
      | none => rfl
      | some v => simp [fill, hset]
  | none =>
      have hfree : (ofValues f).has o = false := by
        rw [has_ofValues (by simp [hf]), hf]
        rfl
      have hkeep : update f o none = f := by rw [← hf, Function.update_eq_self]
      simp only [supplied, hf, Option.none_or] at h ⊢
      cases henv : env.value? o with
      | none => simp [fill, hkeep]
      | some v =>
          by_cases ho : o ∈ l.options
          · simp [fill, ho, hfree, set_ofValues (h v ((if_pos ho).trans henv))]
          · simp [fill, ho, hkeep]

/-- The environment stands in for the account and the store.  Of its texts, only an empty path is
refused. -/
theorem fillIn_ofValues (hf : ∀ o v, f o = some v → o.Accepts v) :
    fillIn l env (.ofValues f) =
      if supplied l env f .store = some "" then .error (.missingValue .store)
      else .ok (.ofValues (supplied l env f)) := by
  have haccount : (Settings.ofValues f).fill l .account (env.value? .account) =
      .ok (.ofValues (update f .account (supplied l env f .account))) :=
    Settings.fill_ofValues fun _ _ ↦ trivial
  rw [fillIn_eq_fill, haccount]
  change (Settings.ofValues (update f .account _)).fill l .store (env.value? .store) = _
  generalize hg : update f .account (supplied l env f .account) = g
  have hstore : supplied l env g .store = supplied l env f .store := by
    simp [← hg, supplied]
  split
  next hempty =>
      have hnone : f .store = none := by
        cases hv : f .store with
        | none => rfl
        | some v =>
            have hne : v ≠ "" := hf .store v hv
            simp [supplied, hv, hne] at hempty
      have hfree : (Settings.ofValues g).has .store = false := by
        simp [Settings.has, Settings.ofValues, ← hg, hnone]
      obtain ⟨hmem, hvalue⟩ : .store ∈ l.options ∧ env.value? .store = some "" := by
        simpa [supplied, hnone] using hempty
      simp [Settings.fill, hmem, hvalue, hfree, Settings.set]
  next hne =>
      rw [Settings.fill_ofValues, hstore]
      · congr 2
        funext o
        cases o <;> simp [← hg, supplied, Environment.value?]
      · rintro v hv rfl
        exact hne (hstore ▸ hv)

theorem supplied_congr {env' : Environment}
    (h : ∀ o, f o = none → env'.value? o = env.value? o) :
    supplied l env' f = supplied l env f := by
  funext o
  cases hf : f o with
  | none => simp only [supplied, h o hf]
  | some v => simp [supplied, hf]

theorem supplied_format : supplied l env f .format = f .format := by
  simp [supplied, Environment.value?]

theorem format_supplied :
    (Settings.ofValues (supplied l env f)).format = (Settings.ofValues f).format := by
  simp only [Settings.ofValues, supplied_format]

end Environment

/-! ## Outcomes -/

/-- The command that values ask for on a level, or why there is none. -/
def commandOf (l : Level) (f : Opt → Option String) : Except Refusal Command :=
  if f .store = some "" then .error (.missingValue .store)
  else
    match (Settings.ofValues f).command? l with
    | some c => .ok c
    | none => .error .missingRequired

/-- What options of a command ask for, or why they do not. -/
def outcome (l : Level) (f : Opt → Option String) : Except Refusal Invocation :=
  (commandOf l f).map fun c ↦ ⟨(Settings.ofValues f).format.getD .table, c⟩

section Outcome

variable {l : Level} {f : Opt → Option String}

theorem commandOf_update_format (v : Option String) :
    commandOf l (update f .format v) = commandOf l f := by
  have hcommand : (Settings.ofValues (update f .format v)).command? l =
      (Settings.ofValues f).command? l := by
    cases l <;> rfl
  simp [commandOf, hcommand]

theorem commandOf_eq_ok_iff {c : Command} :
    commandOf l f = .ok c ↔
      f .store ≠ some "" ∧ (Settings.ofValues f).command? l = some c := by
  unfold commandOf
  split
  next hempty => simp [hempty]
  next hne =>
      cases (Settings.ofValues f).command? l <;> simp [hne]

theorem outcome_eq_ok {i : Invocation} :
    outcome l f = .ok i ↔
      commandOf l f = .ok i.command ∧ (Settings.ofValues f).format.getD .table = i.format := by
  obtain ⟨fmt, c⟩ := i
  unfold outcome
  cases commandOf l f <;> simp [Except.map, and_comm]

variable (hf : f .store ≠ some "" → ∀ o v, f o = some v → o.Accepts v)

include hf

theorem outcome_eq_ok_iff {i : Invocation} :
    outcome l f = .ok i ↔ f .store ≠ some "" ∧ i.Shows l f := by
  rw [outcome_eq_ok, commandOf_eq_ok_iff, and_assoc]
  refine and_congr_right fun hstore ↦ ?_
  rw [command?_eq_some_iff (hf hstore .window), getD_format (hf hstore .format)]
  rfl

theorem exists_outcome_iff {name : String} (hl : (name, l) ∈ Level.usage.children) :
    (∃ i, outcome l f = .ok i) ↔ f .store ≠ some "" ∧ ∀ o ∈ l.required, (f o).isSome := by
  have hcommand : (∃ i, outcome l f = .ok i) ↔ ∃ c, commandOf l f = .ok c := by
    constructor
    · rintro ⟨i, hi⟩
      exact ⟨i.command, (outcome_eq_ok.1 hi).1⟩
    · rintro ⟨c, hc⟩
      exact ⟨⟨_, c⟩, outcome_eq_ok.2 ⟨hc, rfl⟩⟩
  simp only [hcommand, commandOf_eq_ok_iff, exists_and_left]
  refine and_congr_right fun hstore ↦ ?_
  rw [← Option.isSome_iff_exists, isSome_command?_iff hl]
  refine forall₂_congr fun o _ ↦ ?_
  rw [Settings.has_ofValues (hf hstore o)]

end Outcome

end CommandLine
end HourlyUsage
