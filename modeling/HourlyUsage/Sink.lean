import HourlyUsage.Failure
import HourlyUsage.Text.Utf8

/-!
# Sinks

A sink takes bytes in as many writes as it likes.  It first plays its script of
single answers, and from then on behaves as its mode, its chunk size and its
limit say.  Writing all of some bytes repeats the rest after every write that
was interrupted or took a part, and ends with the first other failure.
-/

namespace HourlyUsage

open Text

/-- How a sink meets a write when its script is over. -/
inductive SinkMode where
  | accepting
  | broken
  | stalled
  deriving DecidableEq

/-- The answer to one write: it is interrupted, or takes at most so many bytes. -/
inductive Reply where
  | interrupted
  | upTo (n : Nat)
  deriving DecidableEq

inductive WriteResult where
  | took (n : Nat)
  | interrupted
  | failed (e : IoError)
  deriving DecidableEq

/-- A call of write: the bytes that were handed over, and what came of it. -/
structure WriteCall where
  bytes : Bytes
  result : WriteResult
  deriving DecidableEq

/-- A sink remembers the calls of write, in their order. -/
structure Sink where
  content : Bytes := []
  script : List Reply := []
  mode : SinkMode := .accepting
  chunk : Option Nat := none
  limit : Option Nat := none
  flushFails : Bool := false
  calls : List WriteCall := []
  flushes : Nat := 0
  deriving DecidableEq

namespace Sink

/-- Takes at most `cap` bytes, as far as mode, chunk size and limit let it. -/
def accept (s : Sink) (cap : Nat) (bs : Bytes) : WriteResult × Sink :=
  match s.mode with
  | .broken => (.failed (.other "sink unavailable"), s)
  | .stalled => (.took 0, s)
  | .accepting =>
    let room := match s.limit with
      | some limit => limit - s.content.length
      | none => bs.length
    if s.limit.isSome ∧ room = 0 then (.failed (.other "sink full"), s)
    else
      let taken := bs.take (min (min cap (s.chunk.getD bs.length)) room)
      (.took taken.length, { s with content := s.content ++ taken })

/-- The answer to a write, by the script as long as it lasts. -/
def respond (s : Sink) (bs : Bytes) : WriteResult × Sink :=
  match s.script with
  | [] => s.accept bs.length bs
  | .interrupted :: script => (.interrupted, { s with script })
  | .upTo n :: script => { s with script }.accept n bs

def write (s : Sink) (bs : Bytes) : WriteResult × Sink :=
  let (r, s) := s.respond bs
  (r, { s with calls := s.calls ++ [⟨bs, r⟩] })

def writes (s : Sink) : Nat := s.calls.length

theorem script_accept (s : Sink) (cap : Nat) (bs : Bytes) :
    (s.accept cap bs).2.script = s.script := by
  unfold accept
  split
  · rfl
  · rfl
  · dsimp only
    repeat' split
    all_goals rfl

theorem script_write (s : Sink) (bs : Bytes) : (s.write bs).2.script = s.script.tail := by
  change (s.respond bs).2.script = s.script.tail
  unfold respond
  split
  · next h => simp [script_accept, h]
  · next h => simp [h]
  · next h => simp [script_accept, h]

theorem script_of_interrupted {s s' : Sink} {bs : Bytes} (h : s.write bs = (.interrupted, s')) :
    s.script ≠ [] := by
  intro hs
  have h : (s.respond bs).1 = .interrupted := congrArg Prod.fst h
  unfold respond accept at h
  simp only [hs] at h
  repeat' split at h
  all_goals cases h

def writeAll (s : Sink) (bs : Bytes) : Except IoError Unit × Sink :=
  if _hbs : bs = [] then (.ok (), s)
  else
    match _h : s.write bs with
    | (.interrupted, s') => s'.writeAll bs
    | (.failed e, s') => (.error e, s')
    | (.took n, s') =>
      if _hn : n = 0 then (.error .nothingWritten, s') else s'.writeAll (bs.drop n)
termination_by s.script.length + bs.length
decreasing_by
  · have hs := List.length_pos_iff.2 (script_of_interrupted _h)
    have hw : s'.script = s.script.tail := by
      have hw := script_write s bs
      rwa [_h] at hw
    simp only [hw, List.length_tail]
    omega
  · have hb := List.length_pos_iff.2 _hbs
    have hw : s'.script = s.script.tail := by
      have hw := script_write s bs
      rwa [_h] at hw
    simp only [hw, List.length_tail, List.length_drop]
    omega

/-- Writes all of one piece after the other, up to the first failure. -/
def writeEach (s : Sink) : List Bytes → Except IoError Unit × Sink
  | [] => (.ok (), s)
  | piece :: pieces =>
    match s.writeAll piece with
    | (.error e, s) => (.error e, s)
    | (.ok (), s) => s.writeEach pieces

def flush (s : Sink) : Except IoError Unit × Sink :=
  (if s.flushFails then .error (.other "flush failed") else .ok (),
    { s with flushes := s.flushes + 1 })

end Sink
end HourlyUsage
