import HourlyUsage.Proofs.ArrayContent
import HourlyUsage.Proofs.CompactText

/-!
# The life of an encoder

An encoder is begun on a sink, encodes records and is closed or dropped, while the
sink may change how it answers at any time.  Each of these operations makes one
attempt to write its chunk, which the calls that the sink remembers bear out.  The
encoder holds its sink until closing or dropping takes it, so what runs behind a
close finds none and writes nothing.
-/

namespace HourlyUsage

open Json Text

/-! ## Records as they are presented -/

/-- What a record presents to the serializer.  A part that cannot be serialized may stand anywhere
in it. -/
inductive Presented where
  | value (v : Value)
  | failing (e : Json.Error)
  | array (items : List Presented)
  | object (members : List (String × Presented))

namespace Presented

mutual

def print : Presented → Serialized
  | .value v => .ok v.print
  | .failing e => .error e
  | .array items => (printItems items).map compactArray
  | .object members => (printMembers members).map compactObject

def printItems : List Presented → Except Json.Error (List Bytes)
  | [] => .ok []
  | p :: ps => do
    let text ← p.print
    let texts ← printItems ps
    return text :: texts

def printMembers : List (String × Presented) → Except Json.Error (List (String × Bytes))
  | [] => .ok []
  | (k, p) :: ms => do
    let text ← p.print
    let texts ← printMembers ms
    return (k, text) :: texts

end

mutual

/-- Why parts of a record cannot be serialized, in the order in which they are met. -/
def failures : Presented → List Json.Error
  | .value _ => []
  | .failing e => [e]
  | .array items => failuresOfItems items
  | .object members => failuresOfMembers members

def failuresOfItems : List Presented → List Json.Error
  | [] => []
  | p :: ps => p.failures ++ failuresOfItems ps

def failuresOfMembers : List (String × Presented) → List Json.Error
  | [] => []
  | (_, p) :: ms => p.failures ++ failuresOfMembers ms

end

/-- The result is an error exactly if there are failures, and then the first of them. -/
def Answers {α : Type} (result : Except Json.Error α) : List Json.Error → Prop
  | [] => ∃ a, result = .ok a
  | e :: _ => result = .error e

namespace Answers

variable {α β γ : Type} {first : Except Json.Error α} {second : Except Json.Error β}
  {es more : List Json.Error}

theorem map (h : Answers first es) (f : α → β) : Answers (first.map f) es := by
  cases es with
  | nil =>
      obtain ⟨a, rfl⟩ := h
      exact ⟨f a, rfl⟩
  | cons e es =>
      obtain rfl : first = .error e := h
      rfl

theorem append (hfirst : Answers first es) (hsecond : Answers second more) (f : α → β → γ) :
    Answers (do let a ← first; let b ← second; return f a b) (es ++ more) := by
  cases es with
  | nil =>
      obtain ⟨a, rfl⟩ := hfirst
      exact hsecond.map (f a)
  | cons e es =>
      obtain rfl : first = .error e := hfirst
      rfl

end Answers

mutual

/-- Serializing fails for the first part that cannot be serialized, however deep it lies. -/
theorem answers_print : ∀ p : Presented, Answers p.print p.failures
  | .value v => ⟨v.print, by rw [print]⟩
  | .failing e => by
      rw [print, failures]
      rfl
  | .array items => by
      rw [print, failures]
      exact (answers_printItems items).map compactArray
  | .object members => by
      rw [print, failures]
      exact (answers_printMembers members).map compactObject

theorem answers_printItems : ∀ ps : List Presented, Answers (printItems ps) (failuresOfItems ps)
  | [] => ⟨[], by rw [printItems]⟩
  | p :: ps => by
      rw [printItems, failuresOfItems]
      exact (answers_print p).append (answers_printItems ps) List.cons

theorem answers_printMembers :
    ∀ ms : List (String × Presented), Answers (printMembers ms) (failuresOfMembers ms)
  | [] => ⟨[], by rw [printMembers]⟩
  | (k, p) :: ms => by
      rw [printMembers, failuresOfMembers]
      exact (answers_print p).append (answers_printMembers ms) fun text texts ↦ (k, text) :: texts

end

mutual

theorem compactText_print : ∀ {p : Presented} {text : Bytes}, p.print = .ok text → CompactText text
  | .value v, _, h => by
      rw [print] at h
      obtain rfl := Except.ok.inj h
      exact Json.compactText_print v
  | .failing _, _, h => by
      rw [print] at h
      cases h
  | .array items, _, h => by
      rw [print] at h
      obtain ⟨texts, htexts, rfl⟩ := map_eq_ok h
      exact .array (compactText_printItems htexts)
  | .object members, _, h => by
      rw [print] at h
      obtain ⟨texts, htexts, rfl⟩ := map_eq_ok h
      exact .object (compactText_printMembers htexts)

theorem compactText_printItems : ∀ {ps : List Presented} {texts : List Bytes},
    printItems ps = .ok texts → ∀ text ∈ texts, CompactText text
  | [], _, h => by
      rw [printItems] at h
      obtain rfl := Except.ok.inj h
      exact List.forall_mem_nil _
  | p :: ps, _, h => by
      rw [printItems] at h
      obtain ⟨text, htext, h⟩ := bind_eq_ok.1 h
      obtain ⟨texts, htexts, h⟩ := bind_eq_ok.1 h
      obtain rfl := Except.ok.inj h
      exact List.forall_mem_cons.2 ⟨compactText_print htext, compactText_printItems htexts⟩

theorem compactText_printMembers :
    ∀ {ms : List (String × Presented)} {texts : List (String × Bytes)},
      printMembers ms = .ok texts → ∀ m ∈ texts, CompactText m.2
  | [], _, h => by
      rw [printMembers] at h
      obtain rfl := Except.ok.inj h
      exact List.forall_mem_nil _
  | (k, p) :: ms, _, h => by
      rw [printMembers] at h
      obtain ⟨text, htext, h⟩ := bind_eq_ok.1 h
      obtain ⟨texts, htexts, h⟩ := bind_eq_ok.1 h
      obtain rfl := Except.ok.inj h
      exact List.forall_mem_cons.2 ⟨compactText_print htext, compactText_printMembers htexts⟩

end

end Presented

/-! ## Attempts to write -/

namespace Sink

/-- The calls of one attempt to write some bytes.  What is left of them is handed over again and
again, until nothing is left, or a call fails or takes nothing. -/
inductive Attempt : Bytes → List WriteCall → Prop
  | done : Attempt [] []
  | interrupted {bs : Bytes} {calls : List WriteCall} (hne : bs ≠ []) (h : Attempt bs calls) :
      Attempt bs (⟨bs, .interrupted⟩ :: calls)
  | took {bs : Bytes} {n : Nat} {calls : List WriteCall} (hne : bs ≠ []) (hn : n ≠ 0)
      (h : Attempt (bs.drop n) calls) : Attempt bs (⟨bs, .took n⟩ :: calls)
  | stalled {bs : Bytes} (hne : bs ≠ []) : Attempt bs [⟨bs, .took 0⟩]
  | failed {bs : Bytes} (hne : bs ≠ []) (e : IoError) : Attempt bs [⟨bs, .failed e⟩]

namespace Attempt

variable {bs : Bytes} {calls : List WriteCall}

/-- The first call hands over all of the bytes. -/
theorem exists_head (h : Attempt bs calls) (hne : bs ≠ []) :
    ∃ r rest, calls = ⟨bs, r⟩ :: rest := by
  cases h with
  | done => exact absurd rfl hne
  | interrupted _ _ => exact ⟨_, _, rfl⟩
  | took _ _ _ => exact ⟨_, _, rfl⟩
  | stalled _ => exact ⟨_, _, rfl⟩
  | failed _ e => exact ⟨_, _, rfl⟩

theorem suffix (h : Attempt bs calls) : ∀ c ∈ calls, c.bytes <:+ bs := by
  induction h with
  | done => exact List.forall_mem_nil _
  | interrupted _ _ ih => exact List.forall_mem_cons.2 ⟨List.suffix_rfl, ih⟩
  | took _ _ _ ih =>
      exact List.forall_mem_cons.2
        ⟨List.suffix_rfl, fun c hc ↦ (ih c hc).trans (List.drop_suffix ..)⟩
  | stalled _ => exact List.forall_mem_singleton.2 List.suffix_rfl
  | failed _ _ => exact List.forall_mem_singleton.2 List.suffix_rfl

end Attempt

theorem calls_accept (s : Sink) (cap : Nat) (bs : Bytes) : (s.accept cap bs).2.calls = s.calls := by
  unfold accept
  split
  · rfl
  · rfl
  · dsimp only
    repeat' split
    all_goals rfl

theorem calls_write (s : Sink) (bs : Bytes) :
    (s.write bs).2.calls = s.calls ++ [⟨bs, (s.write bs).1⟩] := by
  have hrespond : (s.respond bs).2.calls = s.calls := by
    unfold respond
    split
    · exact calls_accept _ _ _
    · rfl
    · exact calls_accept _ _ _
  change (s.respond bs).2.calls ++ _ = _
  rw [hrespond]
  rfl

/-- Writing all of some bytes is one attempt to write them. -/
theorem attempt_writeAll (s : Sink) (bs : Bytes) :
    ∃ calls, (s.writeAll bs).2.calls = s.calls ++ calls ∧ Attempt bs calls := by
  induction s, bs using writeAll.induct with
  | case1 s =>
      rw [writeAll, dif_pos rfl]
      exact ⟨[], (List.append_nil _).symm, .done⟩
  | case2 s bs hbs s' hw ih =>
      have hcall : s'.calls = s.calls ++ [⟨bs, .interrupted⟩] := by
        simpa [hw] using calls_write s bs
      obtain ⟨calls, hcalls, hattempt⟩ := ih
      simp only [writeAll_of_ne_nil s hbs, hw]
      exact ⟨_, by rw [hcalls, hcall, List.append_assoc]; rfl, .interrupted hbs hattempt⟩
  | case3 s bs hbs e s' hw =>
      have hcall : s'.calls = s.calls ++ [⟨bs, .failed e⟩] := by simpa [hw] using calls_write s bs
      simp only [writeAll_of_ne_nil s hbs, hw]
      exact ⟨_, hcall, .failed hbs e⟩
  | case4 s bs hbs s' hw =>
      have hcall : s'.calls = s.calls ++ [⟨bs, .took 0⟩] := by simpa [hw] using calls_write s bs
      simp only [writeAll_of_ne_nil s hbs, hw]
      exact ⟨_, hcall, .stalled hbs⟩
  | case5 s bs hbs n s' hw hn ih =>
      have hcall : s'.calls = s.calls ++ [⟨bs, .took n⟩] := by simpa [hw] using calls_write s bs
      obtain ⟨calls, hcalls, hattempt⟩ := ih
      simp only [writeAll_of_ne_nil s hbs, hw, if_neg hn]
      exact ⟨_, by rw [hcalls, hcall, List.append_assoc]; rfl, .took hbs hn hattempt⟩

end Sink

/-! ## Operations -/

/-- How a sink answers from now on. -/
structure SinkSettings where
  script : List Reply := []
  mode : SinkMode := .accepting
  chunk : Option Nat := none
  limit : Option Nat := none
  flushFails : Bool := false

/-- The sink with other settings.  What it holds and has counted stays. -/
def Sink.adjust (s : Sink) (settings : SinkSettings) : Sink where
  content := s.content
  script := settings.script
  mode := settings.mode
  chunk := settings.chunk
  limit := settings.limit
  flushFails := settings.flushFails
  calls := s.calls
  flushes := s.flushes

namespace EncoderLife

inductive Operation where
  | start
  | encode (record : Presented)
  | adjust (settings : SinkSettings)
  | close
  | drop

/-- A sink and the encoder on it, if one holds it. -/
structure State where
  sink : Sink
  wroteFirst : Bool
  held : Bool

namespace State

def encoder (s : State) : ArrayEncoder := ⟨s.sink, s.wroteFirst⟩

/-- The state once the encoder has let its sink go. -/
def release (s : State) (sink : Sink) : State := { s with sink, held := false }

/-- What an encoder answers that has let its sink go. -/
def missing : UsageError := .write (.other "encoder sink missing")

def perform (s : State) : Operation → Except UsageError Unit × State
  | .start =>
    match ArrayEncoder.start s.sink with
    | (.error e, enc) => (.error e, ⟨enc.sink, enc.wroteFirst, false⟩)
    | (.ok (), enc) => (.ok (), ⟨enc.sink, enc.wroteFirst, true⟩)
  | .encode record =>
    if s.held then
      let (r, enc) := s.encoder.encode record.print
      (r, ⟨enc.sink, enc.wroteFirst, true⟩)
    else (do let _ ← record.print.mapError .encoding; .error missing, s)
  | .adjust settings => (.ok (), { s with sink := s.sink.adjust settings })
  | .close =>
    if s.held then
      let (r, sink) := s.encoder.close
      (r, s.release sink)
    else (.error missing, s)
  | .drop => (.ok (), if s.held then s.release s.encoder.abandon else s)

end State

/-- One operation with its answer, and the state before and behind it. -/
structure Entry where
  operation : Operation
  before : State
  answer : Except UsageError Unit
  after : State

def entry (s : State) (op : Operation) : Entry := ⟨op, s, (s.perform op).1, (s.perform op).2⟩

def run : State → List Operation → List Entry
  | _, [] => []
  | s, op :: ops => entry s op :: run (entry s op).after ops

/-- What an owner may do with an encoder that is begun, short of giving it up. -/
inductive Use where
  | encode (record : Presented)
  | adjust (settings : SinkSettings)

def Use.operation : Use → Operation
  | .encode record => .encode record
  | .adjust settings => .adjust settings

/-- The operations that end an encoder.  One that was closed, with or without success, is dropped
all the same. -/
def ending (closed : Bool) : List Operation := if closed then [.close, .drop] else [.drop]

def fresh (sink : Sink) : State := ⟨sink, false, false⟩

/-- All that happens to an encoder on a sink.  Without its opening bracket there is none. -/
def life (sink : Sink) (uses : List Use) (closed : Bool) : List Entry :=
  let first := entry (fresh sink) .start
  match first.answer with
  | .error _ => [first]
  | .ok () => first :: run first.after (uses.map Use.operation ++ ending closed)

namespace Entry

/-- What the sink holds has grown by a beginning of the chunk. -/
def Adds (x : Entry) (chunk : Bytes) : Prop :=
  ∃ n, x.after.sink.content = x.before.sink.content ++ chunk.take n

def AddsAll (x : Entry) (chunk : Bytes) : Prop :=
  x.after.sink.content = x.before.sink.content ++ chunk

/-- The calls of write that the sink was given in the operation. -/
def calls (x : Entry) : List WriteCall := x.after.sink.calls.drop x.before.sink.calls.length

/-- The calls behind those of before are one attempt to write the chunk. -/
def Attempts (x : Entry) (chunk : Bytes) : Prop :=
  x.after.sink.calls = x.before.sink.calls ++ x.calls ∧ Sink.Attempt chunk x.calls

/-- Is the sink handed all of the chunk in some call? -/
def hands (chunk : Bytes) (x : Entry) : Bool := x.calls.any fun c ↦ c.bytes == chunk

/-- Has a record been encoded? -/
def encoded (x : Entry) : Bool :=
  match x.operation, x.answer with
  | .encode _, .ok () => true
  | _, _ => false

/-- What an operation answers and leaves behind. -/
def Lawful (x : Entry) : Prop :=
  match x.operation with
  | .start =>
    x.Attempts ArrayEncoder.opening ∧ x.Adds ArrayEncoder.opening ∧
      (x.answer = .ok () ↔ x.AddsAll ArrayEncoder.opening)
  | .encode record =>
    match record.failures with
    | e :: _ => x.answer = .error (.encoding e) ∧ x.after = x.before
    | [] => x.before.held = true ∧ ∃ json, record.print = .ok json ∧
      x.Attempts (ArrayEncoder.chunkOf x.before.wroteFirst json) ∧
      x.Adds (ArrayEncoder.chunkOf x.before.wroteFirst json) ∧
      (x.answer = .ok () ↔ x.AddsAll (ArrayEncoder.chunkOf x.before.wroteFirst json))
  | .adjust _ => x.AddsAll [] ∧ x.after.sink.calls = x.before.sink.calls
  | .close =>
    x.before.held = true ∧ x.Attempts ArrayEncoder.closing ∧ x.Adds ArrayEncoder.closing ∧
      (x.answer = .ok () ↔
        x.AddsAll ArrayEncoder.closing ∧ x.before.sink.flushFails = false)
  | .drop =>
    if x.before.held then x.Attempts ArrayEncoder.closing ∧ x.Adds ArrayEncoder.closing
    else x.after = x.before

end Entry

/-! ## One operation -/

theorem Entry.calls_of_same {x : Entry} (h : x.after.sink.calls = x.before.sink.calls) :
    x.calls = [] := by
  rw [calls, h, List.drop_length]

theorem Entry.attempts_of_writeAll {x : Entry} {chunk : Bytes}
    (h : x.after.sink.calls = (x.before.sink.writeAll chunk).2.calls) : x.Attempts chunk := by
  obtain ⟨calls, hcalls, hattempt⟩ := x.before.sink.attempt_writeAll chunk
  have hmade : x.calls = calls := by rw [Entry.calls, h, hcalls, List.drop_left]
  exact ⟨by rw [h, hcalls, hmade], hmade ▸ hattempt⟩

/-- An attempt to write a chunk hands over all of it first. -/
theorem Entry.Attempts.hands_eq {x : Entry} {chunk : Bytes} (h : x.Attempts chunk)
    (hne : chunk ≠ []) : x.hands chunk = true := by
  obtain ⟨r, rest, hcalls⟩ := h.2.exists_head hne
  rw [hands, hcalls, List.any_cons, beq_self_eq_true, Bool.true_or]

/-- What has one line feed at most is not mistaken for the end of an array, which has two. -/
theorem Entry.Attempts.not_hands_closing {x : Entry} {chunk : Bytes} (h : x.Attempts chunk)
    (hcount : chunk.count Ascii.newline ≤ 1) : x.hands ArrayEncoder.closing = false := by
  have htwo : ArrayEncoder.closing.count Ascii.newline = 2 := by decide
  rw [hands, List.any_eq_false]
  intro c hc hclosing
  have hsuffix := h.2.suffix c hc
  rw [eq_of_beq hclosing] at hsuffix
  have hle := hsuffix.sublist.count_le Ascii.newline
  omega

theorem count_newline_chunkOf (wroteFirst : Bool) {json : Bytes} (h : CompactText json) :
    (ArrayEncoder.chunkOf wroteFirst json).count Ascii.newline = 1 := by
  have hjson : json.count Ascii.newline = 0 := List.count_eq_zero.2 h.newline_notMem
  have hcomma : (Ascii.comma == Ascii.newline) = false := by decide
  cases wroteFirst <;> simp [ArrayEncoder.chunkOf, List.count_cons, hjson, hcomma]

section Step

variable {s : State}

theorem adds_writeAll (s : Sink) (bs : Bytes) :
    (∃ n, (s.writeAll bs).2.content = s.content ++ bs.take n) ∧
      ((s.writeAll bs).1 = .ok () ↔ (s.writeAll bs).2.content = s.content ++ bs) := by
  obtain ⟨n, hn, hok⟩ := Sink.writeAll_spec s bs
  refine ⟨⟨n, hn⟩, ?_⟩
  rw [hok, hn, List.append_cancel_left_eq]
  constructor
  · exact List.take_of_length_le
  · intro htake
    have hlength := congrArg List.length htake
    rw [List.length_take] at hlength
    omega

theorem mapError_error {ε ε' α : Type} (f : ε → ε') (e : ε) :
    (Except.error e : Except ε α).mapError f = .error (f e) := rfl

theorem mapError_ok {ε ε' α : Type} (f : ε → ε') (a : α) :
    (Except.ok a : Except ε α).mapError f = .ok a := rfl

theorem entry_start (s : State) :
    (entry s .start).after.sink = (s.sink.writeAll ArrayEncoder.opening).2 ∧
      ((entry s .start).answer = .ok () ↔
        (s.sink.writeAll ArrayEncoder.opening).1 = .ok ()) ∧
      (entry s .start).after.wroteFirst = false ∧
      ((entry s .start).answer = .ok () → (entry s .start).after.held = true) := by
  rcases hw : s.sink.writeAll ArrayEncoder.opening with ⟨e | u, sink⟩ <;>
    simp [entry, State.perform, ArrayEncoder.start, hw, mapError_error, mapError_ok]

theorem lawful_start (s : State) : (entry s .start).Lawful := by
  obtain ⟨hadds, hall⟩ := adds_writeAll s.sink ArrayEncoder.opening
  obtain ⟨hsink, hanswer, -⟩ := entry_start s
  rw [← hsink] at hadds hall
  exact ⟨Entry.attempts_of_writeAll (congrArg Sink.calls hsink), hadds, hanswer.trans hall⟩

/-- A record that cannot be serialized leaves the encoder as it was. -/
theorem entry_encode_of_error {record : Presented} {e : Json.Error}
    (h : record.print = .error e) (hheld : s.held = true) :
    entry s (.encode record) = ⟨.encode record, s, .error (.encoding e), s⟩ := by
  obtain ⟨sink, wroteFirst, held⟩ := s
  obtain rfl : held = true := hheld
  simp only [entry, State.perform, State.encoder, ArrayEncoder.encode, h, if_true]

/-- A record that can be serialized is handed to the sink in one chunk, and counts once the sink
has taken all of it. -/
theorem entry_encode_of_ok {record : Presented} {json : Bytes} (h : record.print = .ok json)
    (hheld : s.held = true) :
    let chunk := ArrayEncoder.chunkOf s.wroteFirst json
    (entry s (.encode record)).after.sink = (s.sink.writeAll chunk).2 ∧
      ((entry s (.encode record)).answer = .ok () ↔ (s.sink.writeAll chunk).1 = .ok ()) ∧
      (entry s (.encode record)).after.held = true ∧
      (entry s (.encode record)).after.wroteFirst =
        (s.wroteFirst || (entry s (.encode record)).encoded) := by
  intro chunk
  rcases hw : s.sink.writeAll chunk with ⟨e | u, sink⟩ <;>
    simp [entry, State.perform, h, hheld, State.encoder, ArrayEncoder.encode, chunk, hw,
      Entry.encoded]

theorem attempts_encode {record : Presented} {json : Bytes} (h : record.print = .ok json)
    (hheld : s.held = true) :
    (entry s (.encode record)).Attempts (ArrayEncoder.chunkOf s.wroteFirst json) :=
  Entry.attempts_of_writeAll (congrArg Sink.calls (entry_encode_of_ok h hheld).1)

theorem lawful_encode (record : Presented) (hheld : s.held = true) :
    (entry s (.encode record)).Lawful := by
  have hprint := record.answers_print
  cases hfailures : record.failures with
  | cons e es =>
      rw [hfailures] at hprint
      rw [entry_encode_of_error hprint hheld]
      simp [Entry.Lawful, hfailures]
  | nil =>
      rw [hfailures] at hprint
      obtain ⟨json, hjson⟩ := hprint
      have hattempts := attempts_encode hjson hheld
      obtain ⟨hadds, hall⟩ := adds_writeAll s.sink (ArrayEncoder.chunkOf s.wroteFirst json)
      obtain ⟨hsink, hanswer, -⟩ := entry_encode_of_ok hjson hheld
      rw [← hsink] at hadds hall
      simp only [Entry.Lawful, entry, hfailures]
      exact ⟨hheld, json, hjson, hattempts, hadds, hanswer.trans hall⟩

theorem lawful_adjust (s : State) (settings : SinkSettings) :
    (entry s (.adjust settings)).Lawful :=
  ⟨(List.append_nil _).symm, rfl⟩

/-- Closing writes the end of the array and then flushes, which writes nothing. -/
theorem close_spec (enc : ArrayEncoder) :
    enc.close.2.calls = (enc.sink.writeAll ArrayEncoder.closing).2.calls ∧
      (∃ n, enc.close.2.content = enc.sink.content ++ ArrayEncoder.closing.take n) ∧
      (enc.close.1 = .ok () ↔ enc.close.2.content = enc.sink.content ++ ArrayEncoder.closing ∧
        enc.sink.flushFails = false) := by
  obtain ⟨hadds, hall⟩ := adds_writeAll enc.sink ArrayEncoder.closing
  have hflush := Sink.flushFails_writeAll enc.sink ArrayEncoder.closing
  rcases hw : enc.sink.writeAll ArrayEncoder.closing with ⟨e | u, sink⟩
  all_goals rw [hw] at hadds hall hflush
  · have hfailed : sink.content ≠ enc.sink.content ++ ArrayEncoder.closing := fun h ↦ by
      cases hall.2 h
    have hclose : enc.close = (.error (.write e), sink) := by simp only [ArrayEncoder.close, hw]
    rw [hclose]
    exact ⟨rfl, hadds, by simp [hfailed]⟩
  · rw [ArrayEncoder.close_of_writeAll hw]
    refine ⟨rfl, hadds, ?_⟩
    have hwritten : sink.content = enc.sink.content ++ ArrayEncoder.closing := hall.1 rfl
    rw [← hflush]
    cases hfails : sink.flushFails <;>
      simp [Sink.flush, hfails, mapError_error, mapError_ok, hwritten]

theorem entry_close (hheld : s.held = true) :
    entry s .close = ⟨.close, s, s.encoder.close.1, s.release s.encoder.close.2⟩ := by
  simp only [entry, State.perform, hheld, if_true]

theorem attempts_close (hheld : s.held = true) :
    (entry s .close).Attempts ArrayEncoder.closing := by
  rw [entry_close hheld]
  exact Entry.attempts_of_writeAll (close_spec s.encoder).1

theorem lawful_close (hheld : s.held = true) : (entry s .close).Lawful := by
  have hattempts := attempts_close hheld
  rw [entry_close hheld] at hattempts ⊢
  exact ⟨hheld, hattempts, (close_spec s.encoder).2⟩

theorem entry_drop_of_held (hheld : s.held = true) :
    entry s .drop = ⟨.drop, s, .ok (), s.release s.encoder.abandon⟩ := by
  simp only [entry, State.perform, hheld, if_true]

theorem attempts_drop (hheld : s.held = true) :
    (entry s .drop).Attempts ArrayEncoder.closing := by
  rw [entry_drop_of_held hheld]
  exact Entry.attempts_of_writeAll (close_spec s.encoder).1

theorem entry_drop_of_released (hheld : s.held = false) :
    entry s .drop = ⟨.drop, s, .ok (), s⟩ := by
  simp only [entry, State.perform, hheld, Bool.false_eq_true, if_false]

theorem lawful_drop (s : State) : (entry s .drop).Lawful := by
  cases hheld : s.held with
  | true =>
      have hattempts := attempts_drop hheld
      rw [entry_drop_of_held hheld] at hattempts ⊢
      unfold Entry.Lawful
      simp only [hheld, if_true]
      exact ⟨hattempts, (close_spec s.encoder).2.1⟩
  | false =>
      rw [entry_drop_of_released hheld]
      simp [Entry.Lawful, hheld]

end Step

/-! ## All operations -/

/-- The state behind some entries that began in a state. -/
def behind (s : State) (xs : List Entry) : State := (xs.getLast?.map Entry.after).getD s

theorem behind_cons (s : State) (x : Entry) (xs : List Entry) :
    behind s (x :: xs) = behind x.after xs := by
  cases xs with
  | nil => rfl
  | cons y ys => simp only [behind, List.getLast?_cons_cons]; rw [List.getLast?_cons]; rfl

theorem wroteFirst_entry {s : State} {op : Operation} (hop : op ≠ .start) :
    (entry s op).after.wroteFirst = (s.wroteFirst || (entry s op).encoded) := by
  cases op with
  | start => exact absurd rfl hop
  | encode record =>
      cases hheld : s.held with
      | true =>
          cases hjson : record.print with
          | error e => simp [entry_encode_of_error hjson hheld, Entry.encoded]
          | ok json => exact (entry_encode_of_ok hjson hheld).2.2.2
      | false =>
          cases hjson : record.print <;>
            simp [entry, State.perform, hjson, hheld, Entry.encoded, mapError_error, mapError_ok,
              bind, Except.bind]
  | adjust settings => simp [entry, State.perform, Entry.encoded]
  | close =>
      cases hheld : s.held <;> simp [entry, State.perform, hheld, State.release, Entry.encoded]
  | drop =>
      cases hheld : s.held <;> simp [entry, State.perform, hheld, State.release, Entry.encoded]

/-- An operation begins where the one before it ended, and knows whether a record has been encoded
so far. -/
theorem before_of_run {s : State} {ops : List Operation} {pre post : List Entry} {x : Entry}
    (hops : ∀ op ∈ ops, op ≠ .start) (h : run s ops = pre ++ x :: post) :
    x.before = behind s pre ∧ x.before.wroteFirst = (s.wroteFirst || pre.any Entry.encoded) := by
  induction ops generalizing s pre with
  | nil => simp [run] at h
  | cons op ops ih =>
      have hrest : ∀ op ∈ ops, op ≠ .start := fun o ho ↦ hops o (List.mem_cons_of_mem _ ho)
      cases pre with
      | nil =>
          obtain rfl : entry s op = x := (List.cons.inj h).1
          exact ⟨rfl, by simp [entry]⟩
      | cons y pre =>
          obtain ⟨rfl, htail⟩ := List.cons.inj h
          obtain ⟨hbefore, hwrote⟩ := ih hrest htail
          refine ⟨hbefore.trans (behind_cons s _ pre).symm, ?_⟩
          rw [hwrote, wroteFirst_entry (hops op (List.mem_cons_self ..)), List.any_cons,
            Bool.or_assoc]

theorem ne_start_of_mem {uses : List Use} {closed : Bool} :
    ∀ op ∈ uses.map Use.operation ++ ending closed, op ≠ .start := by
  intro op hop
  rcases List.mem_append.1 hop with hop | hop
  · obtain ⟨use, -, rfl⟩ := List.mem_map.1 hop
    cases use <;> exact nofun
  · cases closed <;> simp [ending] at hop
    · rw [hop]
      exact nofun
    · rcases hop with rfl | rfl <;> exact nofun

theorem hands_of_same {x : Entry} (h : x.after.sink.calls = x.before.sink.calls)
    (chunk : Bytes) : x.hands chunk = false := by
  rw [Entry.hands, Entry.calls_of_same h, List.any_nil]

theorem not_hands_closing_encode {s : State} (hheld : s.held = true) (record : Presented) :
    (entry s (.encode record)).hands ArrayEncoder.closing = false := by
  cases hjson : record.print with
  | error e =>
      rw [entry_encode_of_error hjson hheld]
      exact hands_of_same rfl _
  | ok json =>
      have hcount := count_newline_chunkOf s.wroteFirst (Presented.compactText_print hjson)
      exact (attempts_encode hjson hheld).not_hands_closing hcount.le

theorem held_encode {s : State} (hheld : s.held = true) (record : Presented) :
    (entry s (.encode record)).after.held = true := by
  cases hjson : record.print with
  | error e => rwa [entry_encode_of_error hjson hheld]
  | ok json => exact (entry_encode_of_ok hjson hheld).2.2.1

theorem held_use {s : State} (hheld : s.held = true) (use : Use) :
    (entry s use.operation).after.held = true ∧
      (entry s use.operation).hands ArrayEncoder.closing = false ∧
      (entry s use.operation).Lawful := by
  cases use with
  | encode record =>
      exact ⟨held_encode hheld record, not_hands_closing_encode hheld record,
        lawful_encode record hheld⟩
  | adjust settings => exact ⟨hheld, hands_of_same rfl _, lawful_adjust s settings⟩

/-- From an encoder that holds its sink on, every operation is lawful, and the end of the array is
handed to the sink in one of them. -/
theorem lawful_of_run {s : State} (hheld : s.held = true) (uses : List Use) (closed : Bool) :
    (∀ x ∈ run s (uses.map Use.operation ++ ending closed), x.Lawful) ∧
      (run s (uses.map Use.operation ++ ending closed)).countP
        (Entry.hands ArrayEncoder.closing) = 1 := by
  induction uses generalizing s with
  | nil =>
      cases closed with
      | false =>
          refine ⟨List.forall_mem_singleton.2 (lawful_drop s), ?_⟩
          have hdrop := (attempts_drop hheld).hands_eq (by decide)
          simp [ending, run, hdrop]
      | true =>
          refine ⟨List.forall_mem_cons.2 ⟨lawful_close hheld,
            List.forall_mem_singleton.2 (lawful_drop _)⟩, ?_⟩
          have hclose := (attempts_close hheld).hands_eq (by decide)
          -- closing has taken the sink, so dropping finds none
          have hreleased : (entry s .close).after.held = false := by rw [entry_close hheld]; rfl
          have hdrop : (entry (entry s .close).after .drop).hands ArrayEncoder.closing = false := by
            rw [entry_drop_of_released hreleased]
            exact hands_of_same rfl _
          simp only [List.map_nil, List.nil_append, ending, if_true, run, List.countP_cons, hclose,
            hdrop, List.countP_nil, Bool.false_eq_true, if_false]
  | cons use uses ih =>
      obtain ⟨hstill, hcloses, hlawful⟩ := held_use hheld use
      obtain ⟨hall, hcount⟩ := ih hstill
      refine ⟨List.forall_mem_cons.2 ⟨hlawful, hall⟩, ?_⟩
      rw [List.map_cons, List.cons_append, run, List.countP_cons_of_neg (by simp [hcloses]), hcount]

theorem answer_start (sink : Sink) :
    (entry (fresh sink) .start).answer = (ArrayEncoder.start sink).1 := by
  rcases hstart : ArrayEncoder.start sink with ⟨e | u, enc⟩ <;>
    simp only [entry, State.perform, fresh, hstart]

theorem life_of_refused {sink : Sink} {e : UsageError} (h : (ArrayEncoder.start sink).1 = .error e)
    (uses : List Use) (closed : Bool) : life sink uses closed = [entry (fresh sink) .start] := by
  simp only [life, answer_start, h]

theorem life_of_started {sink : Sink} (h : (ArrayEncoder.start sink).1 = .ok ())
    (uses : List Use) (closed : Bool) :
    life sink uses closed = entry (fresh sink) .start ::
      run (entry (fresh sink) .start).after (uses.map Use.operation ++ ending closed) := by
  simp only [life, answer_start, h]

/-- The bytes of an encoder over a sink that may fail, stall, interrupt, fill up or fail to flush at
any time.  Every operation makes one attempt to write its chunk, adds a beginning of it and succeeds
exactly if it adds all of it (and the sink flushes, for a close).  A record that cannot be
serialized leaves all as it was, with no call of write.  The separator counts the records encoded
before.  In all the calls that the sink is given, the end of the array is handed over by one
operation at most. -/
theorem traced_life (sink : Sink) (uses : List Use) (closed : Bool) :
    (∀ pre x post, life sink uses closed = pre ++ x :: post →
      x.Lawful ∧ x.before = behind (fresh sink) pre ∧
        x.before.wroteFirst = pre.any Entry.encoded) ∧
      (life sink uses closed).countP (Entry.hands ArrayEncoder.closing) ≤ 1 ∧
      ((life sink uses closed).countP (Entry.hands ArrayEncoder.closing) = 1 ↔
        (ArrayEncoder.start sink).1 = .ok ()) := by
  have hstart : ∀ x, x = entry (fresh sink) .start →
      x.Lawful ∧ x.before = behind (fresh sink) [] ∧
        x.before.wroteFirst = [].any Entry.encoded := by
    rintro x rfl
    exact ⟨lawful_start _, rfl, rfl⟩
  have hcloses : ¬ (entry (fresh sink) .start).hands ArrayEncoder.closing = true :=
    Bool.not_eq_true _ ▸ (lawful_start (fresh sink)).1.not_hands_closing (by decide)
  cases h : (ArrayEncoder.start sink).1 with
  | error e =>
      rw [life_of_refused h]
      refine ⟨fun pre x post hsplit ↦ ?_, by simp [hcloses], by simp [hcloses]⟩
      cases pre with
      | nil => exact hstart x (List.cons.inj hsplit).1.symm
      | cons y pre => simp at hsplit
  | ok u =>
      obtain ⟨-, -, hwrote, hheld⟩ := entry_start (fresh sink)
      obtain ⟨hall, hcount⟩ := lawful_of_run (hheld ((answer_start sink).trans h)) uses closed
      rw [life_of_started h, List.countP_cons_of_neg hcloses, hcount]
      refine ⟨fun pre x post hsplit ↦ ?_, Nat.le_refl 1, iff_of_true rfl rfl⟩
      cases pre with
      | nil => exact hstart x (List.cons.inj hsplit).1.symm
      | cons y pre =>
          obtain ⟨rfl, htail⟩ := List.cons.inj hsplit
          obtain ⟨hbefore, hfirst⟩ := before_of_run ne_start_of_mem htail
          have hmem : x ∈ run (entry (fresh sink) .start).after
              (uses.map Use.operation ++ ending closed) :=
            htail ▸ List.mem_append_right _ (List.mem_cons_self ..)
          refine ⟨hall x hmem, hbefore.trans (behind_cons _ _ _).symm, ?_⟩
          rw [hfirst, hwrote]
          rfl

end EncoderLife
end HourlyUsage
