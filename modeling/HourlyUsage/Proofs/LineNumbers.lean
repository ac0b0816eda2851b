import HourlyUsage.Proofs.ObjectFile

/-!
# Line numbers of object files

Bytes that end where a line does can be read apart from what follows them.  The events
of both parts stand behind each other, and a line keeps its fault, whose number counts
all lines in front of it, those of white space too.  So the first line with a fault
decides what is read of a file.
-/

namespace HourlyUsage

open Text Json

/-! ## Splitting between lines -/

/-- Nothing, or bytes of which the last one ends a line. -/
def EndsLine (bs : Bytes) : Prop := ∀ b ∈ bs.getLast?, b = Ascii.newline

theorem EndsLine.of_append {front back : Bytes} (h : EndsLine (front ++ back)) (hne : back ≠ []) :
    EndsLine back := by
  intro b hb
  apply h b
  rw [List.getLast?_append_of_ne_nil front hne]
  exact hb

theorem endsLine_nil : EndsLine [] := nofun

/-- What holds of nothing, and still holds with one more line in front, holds of all bytes that end
where a line does. -/
theorem EndsLine.induction {P : (bs : Bytes) → EndsLine bs → Prop} (nil : P [] endsLine_nil)
    (line : ∀ line rest (hrest : EndsLine rest) (h : EndsLine (line ++ Ascii.newline :: rest)),
      Ascii.newline ∉ line → P rest hrest → P (line ++ Ascii.newline :: rest) h)
    (bs : Bytes) (h : EndsLine bs) : P bs h := by
  by_cases hne : bs = []
  · subst hne
    exact nil
  · have hmem : Ascii.newline ∈ bs :=
      h _ (List.getLast?_eq_some_getLast hne) ▸ List.getLast_mem hne
    obtain ⟨first, rest, hbs, hfirst⟩ := List.eq_append_cons_of_mem hmem
    have hlt : rest.length < bs.length := by
      rw [hbs, List.length_append, List.length_cons]
      omega
    have hrest : EndsLine rest := by
      by_cases hempty : rest = []
      · exact hempty ▸ endsLine_nil
      · have hwhole := h
        rw [hbs, List.append_cons] at hwhole
        exact hwhole.of_append hempty
    have hshorter := EndsLine.induction nil line rest hrest
    subst hbs
    exact line first rest hrest h hfirst hshorter
termination_by bs.length

theorem fileLines_append {front : Bytes} (h : EndsLine front) (back : Bytes) :
    fileLines (front ++ back) = fileLines front ++ fileLines back := by
  induction front, h using EndsLine.induction with
  | nil => rfl
  | line line rest hrest h hline ih =>
      rw [List.append_assoc, List.cons_append, fileLines_append_newline hline,
        fileLines_append_newline hline, ih, List.cons_append]

theorem length_fileLines {front : Bytes} (h : EndsLine front) :
    (fileLines front).length = front.count Ascii.newline := by
  induction front, h using EndsLine.induction with
  | nil => rfl
  | line line rest hrest h hline ih =>
      rw [fileLines_append_newline hline, List.length_cons, ih, List.count_append,
        List.count_eq_zero_of_not_mem hline, List.count_cons_self, Nat.zero_add]

/-! ## Faults of lines -/

/-- What can be wrong with a line, wherever it stands. -/
inductive LineFault where
  | notUtf8
  | malformed (source : Json.Error)

/-- The failure to read an object that has this fault on the line of this number. -/
def LineFault.located (key : String) (number : Nat) : LineFault → UsageError
  | notUtf8 => .io .notUtf8
  | malformed source => .parse key number source

/-- A line has to be text, and JSON of an event unless it is blank. -/
def lineFault? (line : Bytes) : Option LineFault :=
  match ofUtf8? line with
  | none => some .notUtf8
  | some text =>
    if isBlankText text then none
    else match Event.parse line with
      | .error e => some (.malformed e)
      | .ok _ => none

/-- The failure with so many lines more in front of it. -/
def UsageError.later (lines : Nat) : UsageError → UsageError
  | .parse key line source => .parse key (line + lines) source
  | e => e

section Lines

variable (key : String) (number : Nat)

theorem eventsOfLines_cons_of_fault {line : Bytes} {fault : LineFault}
    (h : lineFault? line = some fault) (lines : List Bytes) :
    eventsOfLines key number (line :: lines) = .error (fault.located key number) := by
  cases hutf8 : ofUtf8? line with
  | none =>
      simp only [lineFault?, hutf8] at h
      cases h
      simp only [eventsOfLines, hutf8]
      rfl
  | some text =>
      simp only [lineFault?, hutf8] at h
      split at h
      · cases h
      · next hblank =>
          cases hparse : Event.parse line with
          | error e =>
              rw [hparse] at h
              cases h
              simp only [eventsOfLines, hutf8, hblank, hparse]
              rfl
          | ok event => simp [hparse] at h

/-- A line without a fault adds the same events wherever it stands. -/
theorem exists_eventsOfLines_cons {line : Bytes} (h : lineFault? line = none) :
    ∃ events, ∀ number lines, eventsOfLines key number (line :: lines) =
      (eventsOfLines key (number + 1) lines).map (events ++ ·) := by
  unfold lineFault? at h
  split at h
  · cases h
  · next text hutf8 =>
      split at h
      · next hblank =>
          refine ⟨[], fun number lines ↦ ?_⟩
          simp only [eventsOfLines, hutf8, hblank, if_true]
          cases eventsOfLines key (number + 1) lines <;> rfl
      · next hblank =>
          cases hparse : Event.parse line with
          | error e => simp [hparse] at h
          | ok event =>
              refine ⟨[event], fun number lines ↦ ?_⟩
              simp only [eventsOfLines, hutf8, hblank, hparse]
              rfl

theorem eventsOfLines_append (front back : List Bytes) :
    eventsOfLines key number (front ++ back) = (do
      let events ← eventsOfLines key number front
      (eventsOfLines key (number + front.length) back).map (events ++ ·)) := by
  induction front generalizing number with
  | nil =>
      rw [List.nil_append, List.length_nil, Nat.add_zero]
      cases eventsOfLines key number back <;> rfl
  | cons line front ih =>
      have hnumber : number + (front.length + 1) = number + 1 + front.length := by omega
      rw [List.cons_append, List.length_cons, hnumber]
      cases hfault : lineFault? line with
      | some fault =>
          rw [eventsOfLines_cons_of_fault key number hfault,
            eventsOfLines_cons_of_fault key number hfault]
          rfl
      | none =>
          obtain ⟨events, hevents⟩ := exists_eventsOfLines_cons key hfault
          rw [hevents, hevents, ih]
          cases eventsOfLines key (number + 1) front with
          | error e => rfl
          | ok more =>
              simp only [bind, Except.bind, Except.map]
              cases eventsOfLines key (number + 1 + front.length) back <;> simp

theorem eventsOfLines_add (count : Nat) (lines : List Bytes) :
    eventsOfLines key (number + count) lines =
      (eventsOfLines key number lines).mapError (UsageError.later count) := by
  induction lines generalizing number with
  | nil => rfl
  | cons line lines ih =>
      cases hfault : lineFault? line with
      | some fault =>
          rw [eventsOfLines_cons_of_fault key _ hfault, eventsOfLines_cons_of_fault key _ hfault]
          cases fault <;> rfl
      | none =>
          obtain ⟨events, hevents⟩ := exists_eventsOfLines_cons key hfault
          rw [hevents, hevents, Nat.add_right_comm, ih]
          cases eventsOfLines key (number + 1) lines <;> rfl

theorem exists_eventsOfLines {lines : List Bytes} (h : ∀ line ∈ lines, lineFault? line = none) :
    ∃ events, eventsOfLines key number lines = .ok events := by
  induction lines generalizing number with
  | nil => exact ⟨[], rfl⟩
  | cons line lines ih =>
      obtain ⟨hline, hlines⟩ := List.forall_mem_cons.1 h
      obtain ⟨events, hevents⟩ := exists_eventsOfLines_cons key hline
      obtain ⟨more, hmore⟩ := ih (number + 1) hlines
      exact ⟨events ++ more, by rw [hevents, hmore]; rfl⟩

/-- The lines in front of the first one with a fault, and what follows it. -/
theorem exists_first_fault {lines : List Bytes} (h : ¬ ∀ line ∈ lines, lineFault? line = none) :
    ∃ sound line rest fault, lines = sound ++ line :: rest ∧
      (∀ l ∈ sound, lineFault? l = none) ∧ lineFault? line = some fault := by
  induction lines with
  | nil => simp at h
  | cons line lines ih =>
      cases hfault : lineFault? line with
      | some fault => exact ⟨[], line, lines, fault, rfl, by simp, hfault⟩
      | none =>
          obtain ⟨sound, bad, rest, fault, rfl, hsound, hbad⟩ :=
            ih fun hall ↦ h (List.forall_mem_cons.2 ⟨hfault, hall⟩)
          exact ⟨line :: sound, bad, rest, fault, rfl, List.forall_mem_cons.2 ⟨hfault, hsound⟩,
            hbad⟩

theorem eventsOfLines_of_first_fault {sound rest : List Bytes} {line : Bytes} {fault : LineFault}
    (hsound : ∀ l ∈ sound, lineFault? l = none) (hfault : lineFault? line = some fault) :
    eventsOfLines key number (sound ++ line :: rest) =
      .error (fault.located key (number + sound.length)) := by
  obtain ⟨events, hevents⟩ := exists_eventsOfLines key number hsound
  rw [eventsOfLines_append, hevents, eventsOfLines_cons_of_fault key _ hfault]
  rfl

/-- The first line with a fault decides, and its number counts every line in front of it. -/
theorem eventsOfLines_eq_error_iff {lines : List Bytes} {e : UsageError} :
    eventsOfLines key number lines = .error e ↔
      ∃ sound line rest fault, lines = sound ++ line :: rest ∧
        (∀ l ∈ sound, lineFault? l = none) ∧ lineFault? line = some fault ∧
        e = fault.located key (number + sound.length) := by
  constructor
  · intro h
    by_cases hall : ∀ line ∈ lines, lineFault? line = none
    · obtain ⟨events, hevents⟩ := exists_eventsOfLines key number hall
      rw [hevents] at h
      cases h
    · obtain ⟨sound, line, rest, fault, rfl, hsound, hfault⟩ := exists_first_fault hall
      rw [eventsOfLines_of_first_fault key number hsound hfault] at h
      exact ⟨sound, line, rest, fault, rfl, hsound, hfault, (Except.error.inj h).symm⟩
  · rintro ⟨sound, line, rest, fault, rfl, hsound, hfault, rfl⟩
    exact eventsOfLines_of_first_fault key number hsound hfault

theorem forall_lineFault?_eq_none_iff {lines : List Bytes} :
    (∃ events, eventsOfLines key number lines = .ok events) ↔
      ∀ line ∈ lines, lineFault? line = none := by
  constructor
  · rintro ⟨events, hevents⟩
    by_contra hall
    obtain ⟨sound, line, rest, fault, rfl, hsound, hfault⟩ := exists_first_fault hall
    rw [eventsOfLines_of_first_fault key number hsound hfault] at hevents
    cases hevents
  · exact exists_eventsOfLines key number

end Lines

theorem eventsOfFile_append (key : String) {front : Bytes} (h : EndsLine front) (back : Bytes) :
    eventsOfFile key (front ++ back) = (do
      let events ← eventsOfFile key front
      ((eventsOfFile key back).map (events ++ ·)).mapError
        (UsageError.later (front.count Ascii.newline))) := by
  rw [eventsOfFile, eventsOfFile, eventsOfFile, fileLines_append h, eventsOfLines_append,
    eventsOfLines_add, length_fileLines h]
  cases eventsOfLines key 1 (fileLines front) with
  | error e => rfl
  | ok events => cases eventsOfLines key 1 (fileLines back) <;> rfl

namespace FileStore

/-- What is read of an object with two parts, the first of which ends where a line does: the
failure of the first part, or else its events in front of those of the second, or the failure of
the second with as many lines more as the first has line ends.  An object can be read exactly if no
line of it has a fault, and else fails for the first such line, whose number counts all lines up to
it. -/
theorem read_append {store : FileStore} {key : String} {front back : Bytes}
    {first second whole : Node} (hends : EndsLine front)
    (hfirst : first.readFile (store.keyPath key) = .ok front)
    (hsecond : second.readFile (store.keyPath key) = .ok back)
    (hwhole : whole.readFile (store.keyPath key) = .ok (front ++ back)) :
    (∀ events, store.read first key = .ok events →
      store.read whole key = ((store.read second key).map (events ++ ·)).mapError
        (UsageError.later (front.count Ascii.newline))) ∧
    (∀ e, store.read first key = .error e → store.read whole key = .error e) ∧
    ((∃ events, store.read whole key = .ok events) ↔
      ∀ line ∈ fileLines (front ++ back), lineFault? line = none) ∧
    ∀ e, store.read whole key = .error e ↔
      ∃ sound line rest fault, fileLines (front ++ back) = sound ++ line :: rest ∧
        (∀ l ∈ sound, lineFault? l = none) ∧ lineFault? line = some fault ∧
        e = fault.located key (1 + sound.length) := by
  rw [read_of_readFile hfirst, read_of_readFile hsecond, read_of_readFile hwhole]
  have happend := eventsOfFile_append key hends back
  refine ⟨fun events hevents ↦ ?_, fun e he ↦ ?_, forall_lineFault?_eq_none_iff key 1,
    fun e ↦ eventsOfLines_eq_error_iff key 1⟩
  · rw [happend, hevents]
    rfl
  · rw [happend, he]
    rfl

/-- A brace on the third line of the second part, behind three lines of the first, two of which are
white space.  What follows it is not even text. -/
theorem read_append_behind_blank_lines :
    let event : Event := { Event.escaped with value := ⟨0x400A000000000000⟩ }
    let blank : BlankText := ⟨"\u2028 ", by decide, by decide⟩
    let front : ObjectFile :=
      ⟨[(.blank ⟨"", rfl, nofun⟩, .feed), (.blank blank, .returnFeed), (.event event, .feed)], none⟩
    let sound : ObjectFile := ⟨[(.event event, .returnFeed), (.blank blank, .feed)], none⟩
    let back : Bytes := sound.bytes ++ [Ascii.openBrace, Ascii.newline, 0xFF]
    let store : FileStore := ⟨"store", "json"⟩
    let holding (content : Bytes) : Node :=
      .dir [(utf8 "store", .dir [(utf8 "x.json", .file content)])]
    EndsLine front.bytes ∧
      (holding front.bytes).readFile (store.keyPath "x.json") = .ok front.bytes ∧
      (holding back).readFile (store.keyPath "x.json") = .ok back ∧
      (holding (front.bytes ++ back)).readFile (store.keyPath "x.json") =
        .ok (front.bytes ++ back) ∧
      store.read (holding front.bytes) "x.json" = .ok [event] ∧
      store.read (holding back) "x.json" = .error (.parse "x.json" 3 ⟨.eofInObject, 1, 1⟩) ∧
      store.read (holding (front.bytes ++ back)) "x.json" =
        .error (.parse "x.json" 6 ⟨.eofInObject, 1, 1⟩) := by
  intro event blank front sound back store holding
  have hends : EndsLine front.bytes ∧ EndsLine sound.bytes := by
    have hfront : front.bytes.getLast? = some Ascii.newline := by decide +kernel
    have hsound : sound.bytes.getLast? = some Ascii.newline := by decide +kernel
    exact ⟨fun b hb ↦ Option.some.inj (hb.symm.trans hfront),
      fun b hb ↦ Option.some.inj (hb.symm.trans hsound)⟩
  have hfile : ∀ content, (holding content).readFile (store.keyPath "x.json") = .ok content := by
    intro content
    have hcheck : Path.check (utf8 "store") = .ok () := by decide +kernel
    have hnames : ∀ name ∈ Path.names (utf8 "x.json"), Path.IsEntryName name ∧ 0 ∉ name := by
      decide +kernel
    have hdirect : (holding content).direct? []
        (Path.names (utf8 "store") ++ Path.names (utf8 "x.json")) =
        some [utf8 "store", utf8 "x.json"] := by rfl
    exact readFile_keyPath hcheck (by decide) hnames (by decide) hdirect rfl
  have hparse : Event.parse event.json = .ok event := by decide +kernel
  have hevents : ∀ e ∈ [event], Event.parse e.json = .ok e := List.forall_mem_singleton.2 hparse
  have hfront : store.read (holding front.bytes) "x.json" = .ok [event] := by
    rw [read_of_readFile (hfile front.bytes)]
    exact front.eventsOfLines_bytes hevents "x.json" 1
  have hback : store.read (holding back) "x.json" =
      .error (.parse "x.json" 3 ⟨.eofInObject, 1, 1⟩) := by
    have hsound : eventsOfFile "x.json" sound.bytes = .ok [event] :=
      sound.eventsOfLines_bytes hevents "x.json" 1
    have hbrace : eventsOfFile "x.json" [Ascii.openBrace, Ascii.newline, 0xFF] =
        .error (.parse "x.json" 1 ⟨.eofInObject, 1, 1⟩) := by decide +kernel
    have hcount : sound.bytes.count Ascii.newline = 2 := by decide +kernel
    rw [read_of_readFile (hfile back), eventsOfFile_append "x.json" hends.2, hsound, hbrace,
      hcount]
    rfl
  refine ⟨hends.1, hfile front.bytes, hfile back, hfile (front.bytes ++ back), hfront, hback, ?_⟩
  obtain ⟨hadds, -⟩ :=
    read_append hends.1 (hfile front.bytes) (hfile back) (hfile (front.bytes ++ back))
  have hcount : front.bytes.count Ascii.newline = 3 := by decide +kernel
  rw [hadds _ hfront, hback, hcount]
  rfl

end FileStore

end HourlyUsage
