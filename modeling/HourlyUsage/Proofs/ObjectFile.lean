import HourlyUsage.Proofs.FloatText
import HourlyUsage.Proofs.PathLengths
import HourlyUsage.Proofs.PrintedText

/-!
# Files of objects

An object file holds the JSON of one event on each line.  A line ends in a line feed or in a
carriage return with a line feed, the last one in neither if it likes, and lines of white space
may stand between the others.  No end of a line falls into the JSON of an event, none is taken off
it and none of it is taken for white space, so what is read is the events of the file in their
order.
-/

namespace HourlyUsage

open Text Json

/-! ## Lines -/

/-- A line without the carriage return that may stand in front of its line feed. -/
def withoutReturn (line : Bytes) : Bytes :=
  if line.getLast? = some Ascii.carriageReturn then line.dropLast else line

theorem withoutReturn_concat (line : Bytes) (b : UInt8) :
    withoutReturn (line ++ [b]) = if b = Ascii.carriageReturn then line else line ++ [b] := by
  simp [withoutReturn]

theorem withoutReturn_cons {line : Bytes} (h : line ≠ []) (b : UInt8) :
    withoutReturn (b :: line) = b :: withoutReturn line := by
  obtain ⟨front, last, rfl⟩ := (List.eq_nil_or_concat' line).resolve_left h
  rw [← List.cons_append, withoutReturn_concat, withoutReturn_concat]
  split <;> rfl

theorem fileLines_cons {b : UInt8} {rest : Bytes} (hb : b ≠ Ascii.newline)
    (h : b = Ascii.carriageReturn → rest.head? ≠ some Ascii.newline) :
    fileLines (b :: rest) = match fileLines rest with
      | [] => [[b]]
      | line :: lines => (b :: line) :: lines := by
  apply fileLines.eq_4
  · exact hb
  · rintro rest' hreturn rfl
    exact h hreturn rfl

theorem fileLines_append_newline {line : Bytes} (h : Ascii.newline ∉ line) (rest : Bytes) :
    fileLines (line ++ Ascii.newline :: rest) = withoutReturn line :: fileLines rest := by
  induction line with
  | nil => rfl
  | cons b line ih =>
      obtain ⟨hb, hline⟩ := not_or.1 (mt List.mem_cons.2 h)
      cases line with
      | nil =>
          by_cases hreturn : b = Ascii.carriageReturn
          · subst hreturn
            rfl
          · rw [List.singleton_append, fileLines_cons (Ne.symm hb) fun h ↦ absurd h hreturn]
            have hkept : withoutReturn ([] ++ [b]) = [b] := by
              rw [withoutReturn_concat, if_neg hreturn, List.nil_append]
            rw [List.nil_append] at hkept
            rw [hkept]
            rfl
      | cons c line =>
          have hhead : (c :: line ++ Ascii.newline :: rest).head? ≠ some Ascii.newline :=
            fun heq ↦ List.ne_of_not_mem_cons hline (Option.some.inj heq).symm
          rw [List.cons_append, fileLines_cons (Ne.symm hb) fun _ ↦ hhead, ih hline,
            withoutReturn_cons (List.cons_ne_nil c line)]

/-- A last line without an end is taken as it is. -/
theorem fileLines_of_newline_notMem {line : Bytes} (h : Ascii.newline ∉ line) (hne : line ≠ []) :
    fileLines line = [line] := by
  induction line with
  | nil => exact absurd rfl hne
  | cons b line ih =>
      obtain ⟨hb, hline⟩ := not_or.1 (mt List.mem_cons.2 h)
      have hhead : line.head? ≠ some Ascii.newline := fun heq ↦ hline (List.mem_of_head? heq)
      rw [fileLines_cons (Ne.symm hb) fun _ ↦ hhead]
      cases line with
      | nil => rfl
      | cons c line => rw [ih hline (List.cons_ne_nil c line)]

/-- White space that loses its last byte as a carriage return is white space still. -/
theorem withoutReturn_charBytes {cs : List Char} (h : cs.all isBlank = true) :
    ∃ ds, ds.all isBlank = true ∧ withoutReturn (charBytes cs) = charBytes ds := by
  rcases List.eq_nil_or_concat' cs with rfl | ⟨front, c, rfl⟩
  · exact ⟨[], rfl, rfl⟩
  · rw [charBytes_append]
    rcases Nat.lt_or_ge c.toNat 0x80 with hlow | hhigh
    · rw [charBytes_low hlow, withoutReturn_concat]
      split
      · rw [List.all_append, Bool.and_eq_true] at h
        exact ⟨front, h.1, rfl⟩
      · exact ⟨front ++ [c], h, by rw [charBytes_append, charBytes_low hlow]⟩
    · obtain ⟨hne, hall⟩ := charBytes_high hhigh
      obtain ⟨bytes, b, hb⟩ := (List.eq_nil_or_concat' (charBytes [c])).resolve_left hne
      have hreturn : b ≠ Ascii.carriageReturn := by
        rintro rfl
        exact absurd (hall Ascii.carriageReturn (by simp [hb])) (by decide)
      refine ⟨front ++ [c], h, ?_⟩
      rw [charBytes_append, hb, ← List.append_assoc, withoutReturn_concat, if_neg hreturn]

/-! ## Files -/

/-- A text of white space that stays on one line. -/
structure BlankText where
  text : String
  isBlank : isBlankText text = true
  oneLine : '\n' ∉ text.toList

namespace ObjectFile

inductive Line where
  | event (e : Event)
  | blank (b : BlankText)

inductive LineEnd where
  | feed
  | returnFeed

def LineEnd.bytes : LineEnd → Bytes
  | feed => [Ascii.newline]
  | returnFeed => [Ascii.carriageReturn, Ascii.newline]

namespace Line

def bytes : Line → Bytes
  | event e => e.json
  | blank b => utf8 b.text

def event? : Line → Option Event
  | event e => some e
  | blank _ => none

end Line
end ObjectFile

/-- Lines with an end each, and maybe one more without. -/
structure ObjectFile where
  ended : List (ObjectFile.Line × ObjectFile.LineEnd)
  last : Option ObjectFile.Line

namespace ObjectFile

def bytes (file : ObjectFile) : Bytes :=
  (file.ended.flatMap fun l ↦ l.1.bytes ++ l.2.bytes) ++ file.last.elim [] Line.bytes

def events (file : ObjectFile) : List Event :=
  (file.ended.map Prod.fst ++ file.last.toList).filterMap Line.event?

namespace Line

theorem newline_notMem_bytes (l : Line) : Ascii.newline ∉ l.bytes := by
  cases l with
  | event e => exact (compactText_eventJson e).newline_notMem
  | blank b =>
      have hnewline : Ascii.newline ∈ charBytes b.text.toList ↔ '\n' ∈ b.text.toList :=
        @mem_charBytes_iff '\n' (by decide) b.text.toList
      rw [bytes, utf8_eq_charBytes, hnewline]
      exact b.oneLine

/-- What may be read of a line, its end aside: the event as it was written, or some white space. -/
def Shows : Line → Bytes → Prop
  | event e, line => line = e.json
  | blank _, line => ∃ text, utf8 text = line ∧ isBlankText text = true

theorem shows_bytes (l : Line) : l.Shows l.bytes := by
  cases l with
  | event e => exact rfl
  | blank b => exact ⟨b.text, rfl, b.isBlank⟩

theorem shows_withoutReturn (l : Line) : l.Shows (withoutReturn l.bytes) := by
  cases l with
  | event e =>
      have hbrace : Ascii.closeBrace ≠ Ascii.carriageReturn := by decide
      rw [bytes, Event.json, compactObject, ← List.cons_append, withoutReturn_concat, if_neg hbrace]
      exact rfl
  | blank b =>
      obtain ⟨ds, hblank, hds⟩ := withoutReturn_charBytes b.isBlank
      refine ⟨String.ofList ds, ?_, ?_⟩
      · rw [utf8_ofList, ← hds, charBytes, String.ofList_toList]
        rfl
      · rwa [isBlankText, String.toList_ofList]

theorem eventsOfLines_cons {l : Line} {line : Bytes} (hline : l.Shows line)
    (hparse : ∀ e ∈ l.event?, Event.parse e.json = .ok e) (key : String) (number : Nat)
    (lines : List Bytes) :
    eventsOfLines key number (line :: lines) =
      (eventsOfLines key (number + 1) lines).map fun events ↦ l.event?.toList ++ events := by
  cases l with
  | event e =>
      obtain ⟨text, htext⟩ := isText_eventJson e
      have hblank := not_isBlankText_eventJson htext
      rw [hline, eventsOfLines, ← htext, ofUtf8?_utf8]
      simp only [hblank, htext, hparse e rfl]
      rfl
  | blank b =>
      obtain ⟨text, rfl, hblank⟩ := hline
      rw [eventsOfLines, ofUtf8?_utf8]
      simp only [hblank, if_true]
      cases eventsOfLines key (number + 1) lines <;> rfl

end Line

theorem fileLines_ended (l : Line) (lineEnd : LineEnd) (rest : Bytes) :
    ∃ line, l.Shows line ∧
      fileLines (l.bytes ++ lineEnd.bytes ++ rest) = line :: fileLines rest := by
  have hline := l.newline_notMem_bytes
  rw [List.append_assoc]
  cases lineEnd with
  | feed => exact ⟨_, l.shows_withoutReturn, fileLines_append_newline hline rest⟩
  | returnFeed =>
      have hreturn : Ascii.newline ∉ l.bytes ++ [Ascii.carriageReturn] := by
        rw [List.mem_append, not_or]
        exact ⟨hline, by decide⟩
      have hlines := fileLines_append_newline hreturn rest
      rw [withoutReturn_concat, if_pos rfl, List.append_assoc] at hlines
      exact ⟨_, l.shows_bytes, hlines⟩

theorem eventsOfLines_last (l : Line) (hparse : ∀ e ∈ l.event?, Event.parse e.json = .ok e)
    (key : String) (number : Nat) :
    eventsOfLines key number (fileLines l.bytes) = .ok l.event?.toList := by
  by_cases hempty : l.bytes = []
  · cases l with
    | event e => cases hempty
    | blank b =>
        rw [hempty]
        rfl
  · rw [fileLines_of_newline_notMem l.newline_notMem_bytes hempty,
      Line.eventsOfLines_cons l.shows_bytes hparse]
    simp [eventsOfLines, Except.map]

/-- The lines are read one by one, whatever number the first of them has. -/
theorem eventsOfLines_bytes (file : ObjectFile)
    (hparse : ∀ e ∈ file.events, Event.parse e.json = .ok e) (key : String) (number : Nat) :
    eventsOfLines key number (fileLines file.bytes) = .ok file.events := by
  obtain ⟨ended, last⟩ := file
  induction ended generalizing number with
  | nil =>
      cases last with
      | none => rfl
      | some l =>
          have hl : events ⟨[], some l⟩ = l.event?.toList := by
            cases l <;> rfl
          rw [hl] at hparse ⊢
          exact eventsOfLines_last l (fun e he ↦ hparse e (Option.mem_toList.2 he)) key number
  | cons first ended ih =>
      obtain ⟨l, lineEnd⟩ := first
      have hbytes : bytes ⟨(l, lineEnd) :: ended, last⟩ =
          l.bytes ++ lineEnd.bytes ++ bytes ⟨ended, last⟩ := by
        simp only [bytes, List.flatMap_cons, List.append_assoc]
      have hevents : events ⟨(l, lineEnd) :: ended, last⟩ =
          l.event?.toList ++ events ⟨ended, last⟩ := by
        cases l <;> rfl
      rw [hevents] at hparse ⊢
      obtain ⟨hl, hrest⟩ := List.forall_mem_append.1 hparse
      obtain ⟨line, hshows, hlines⟩ := fileLines_ended l lineEnd (bytes ⟨ended, last⟩)
      rw [hbytes, hlines, Line.eventsOfLines_cons hshows fun e he ↦ hl e (Option.mem_toList.2 he),
        ih (number + 1) hrest]
      rfl

theorem eventsOfFile_line {e : Event} (h : Event.parse e.json = .ok e) (key : String) :
    eventsOfFile key (e.json ++ [Ascii.newline]) = .ok [e] := by
  let file : ObjectFile := ⟨[(.event e, .feed)], none⟩
  have hbytes : file.bytes = e.json ++ [Ascii.newline] := by
    simp [file, bytes, Line.bytes, LineEnd.bytes]
  have hparse : ∀ e ∈ file.events, Event.parse e.json = .ok e := List.forall_mem_singleton.2 h
  rw [eventsOfFile, ← hbytes, file.eventsOfLines_bytes hparse key 1]
  rfl

end ObjectFile

/-- The event of an object of one line, which no link leads to. -/
theorem FileStore.read_of_direct? {store : FileStore} {tree : Node} {key : String} {e : Event}
    {location : List Name} (hcheck : Path.check (utf8 store.root) = .ok ())
    (hne : Path.names (utf8 key) ≠ [])
    (hnames : ∀ name ∈ Path.names (utf8 key), Path.IsEntryName name ∧ 0 ∉ name)
    (hlength : (utf8 store.root).length +
      ((Path.names (utf8 key)).map fun name ↦ name.length + 1).sum ≤ Path.pathLimit)
    (h : tree.direct? [] (Path.names (utf8 store.root) ++ Path.names (utf8 key)) = some location)
    (hfile : tree.get? location = some (.file (e.json ++ [Ascii.newline])))
    (hparse : Event.parse e.json = .ok e) : store.read tree key = .ok [e] := by
  rw [read_of_readFile (readFile_keyPath hcheck hne hnames hlength h hfile)]
  exact ObjectFile.eventsOfFile_line hparse key

/-! ## Events that survive -/

theorem Event.eq_of_same {e r : Event} (hparse : Event.parse e.json = .ok r)
    (hsame : e.same r = true) : r = e := by
  obtain ⟨name, tags, timestamp, timestampEnd, value⟩ := r
  simp only [Event.same, Bool.and_eq_true, decide_eq_true_eq] at hsame
  obtain ⟨⟨⟨⟨rfl, rfl⟩, rfl⟩, rfl⟩, hvalue⟩ := hsame
  suffices hbits : value = e.value by rw [hbits]
  simp only [Binary64.sameNumber, Bool.or_eq_true, Bool.and_eq_true, decide_eq_true_eq] at hvalue
  rcases hvalue with ⟨hzero, -⟩ | ⟨hbits, -⟩
  · -- both zeros are read back with their sign
    have hmagnitude : e.value.magnitude = (Binary64.ofNat 0).magnitude := of_decide_eq_true hzero
    have hfinite : e.value.isFinite = true := by
      rw [Binary64.isFinite, hmagnitude]
      rfl
    have hexact : (Decimal.shortest e.value.magnitude).IsExact :=
      hmagnitude ▸ Decimal.isExact_shortest_whole (Nat.zero_le _)
    have hself := parse_of_reads (Event.reads_json (reads_printFloat_of_isExact hfinite hexact))
    exact congrArg Event.value (Except.ok.inj (hparse.symm.trans hself))
  · exact congrArg Binary64.mk hbits.symm

/-- The events of a file come back in their order, if each of them comes back alone. -/
theorem FileStore.read_objectFile {store : FileStore} {tree : Node} {key : String}
    (file : ObjectFile) (hfile : tree.readFile (store.keyPath key) = .ok file.bytes)
    (h : ∀ e ∈ file.events, ∃ r, Event.parse e.json = .ok r ∧ e.same r = true) :
    store.read tree key = .ok file.events := by
  have hparse : ∀ e ∈ file.events, Event.parse e.json = .ok e := by
    intro e he
    obtain ⟨r, hr, hsame⟩ := h e he
    rw [hr, Event.eq_of_same hr hsame]
  rw [read_of_readFile hfile]
  exact file.eventsOfLines_bytes hparse key 1

/-- Two events with every escape, the second of the value -0.0 and without an end, among lines of
white space, one of which would lose its own carriage return. -/
theorem FileStore.read_objectFile_between_blank_lines :
    let first : Event := { Event.escaped with value := ⟨0x400A000000000000⟩ }
    let second : Event := { Event.escaped with value := ⟨0x8000000000000000⟩ }
    let blank : BlankText := ⟨"\u0085 \u2028\r", by decide, by decide⟩
    let file : ObjectFile :=
      ⟨[(.blank ⟨"", rfl, nofun⟩, .feed), (.event first, .returnFeed), (.blank blank, .feed),
        (.blank blank, .returnFeed)], some (.event second)⟩
    let tree : Node := .dir [(utf8 "store", .dir [(utf8 "x.json", .file file.bytes)])]
    tree.readFile (FileStore.keyPath ⟨"store", "json"⟩ "x.json") = .ok file.bytes ∧
      (∀ e ∈ file.events, ∃ r, Event.parse e.json = .ok r ∧ e.same r = true) ∧
      FileStore.read ⟨"store", "json"⟩ tree "x.json" = .ok [first, second] := by
  intro first second blank file tree
  have hfile : tree.readFile (FileStore.keyPath ⟨"store", "json"⟩ "x.json") = .ok file.bytes := by
    have hcheck : Path.check (utf8 "store") = .ok () := by decide +kernel
    have hnames : ∀ name ∈ Path.names (utf8 "x.json"), Path.IsEntryName name ∧ 0 ∉ name := by
      decide +kernel
    have hdirect : tree.direct? [] (Path.names (utf8 "store") ++ Path.names (utf8 "x.json")) =
        some [utf8 "store", utf8 "x.json"] := by rfl
    exact FileStore.readFile_keyPath hcheck (by decide) hnames (by decide) hdirect rfl
  have hfirst : Event.parse first.json = .ok first := by decide +kernel
  have hsecond : Event.parse second.json = .ok second := by decide +kernel
  have hevents : ∀ e ∈ file.events, ∃ r, Event.parse e.json = .ok r ∧ e.same r = true := by
    have hall : file.events = [first, second] := rfl
    rw [hall, List.forall_mem_cons, List.forall_mem_singleton]
    exact ⟨⟨first, hfirst, by decide⟩, ⟨second, hsecond, by decide⟩⟩
  exact ⟨hfile, hevents, FileStore.read_objectFile file hfile hevents⟩

end HourlyUsage
