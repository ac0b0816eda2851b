import HourlyUsage.Sink

/-!
# Arrays written record by record

An encoder writes a JSON array to a sink as its records arrive, one on each
line.  A record that cannot be serialized writes nothing.  The separator counts
the records that were written in full, whatever a failed write has left behind.
-/

namespace HourlyUsage

open Text

/-- A record as its compact JSON text, or the reason why it has none. -/
abbrev Serialized := Except Json.Error Bytes

structure ArrayEncoder where
  sink : Sink
  wroteFirst : Bool
  deriving DecidableEq

namespace ArrayEncoder

def opening : Bytes := [Ascii.openBracket]

def closing : Bytes := [Ascii.newline, Ascii.closeBracket, Ascii.newline]

/-- Begins an array on a sink.  Without the opening bracket there is no encoder. -/
def start (s : Sink) : Except UsageError Unit × ArrayEncoder :=
  let (r, s) := s.writeAll opening
  (r.mapError .write, ⟨s, false⟩)

def chunkOf (wroteFirst : Bool) (record : Bytes) : Bytes :=
  (if wroteFirst then [Ascii.comma] else []) ++ Ascii.newline :: record

def encode (enc : ArrayEncoder) (record : Serialized) : Except UsageError Unit × ArrayEncoder :=
  match record with
  | .error e => (.error (.encoding e), enc)
  | .ok json =>
    match enc.sink.writeAll (chunkOf enc.wroteFirst json) with
    | (.ok (), s) => (.ok (), ⟨s, true⟩)
    | (.error e, s) => (.error (.write e), { enc with sink := s })

/-- Ends the array and gives the sink back, whether or not that succeeds. -/
def close (enc : ArrayEncoder) : Except UsageError Unit × Sink :=
  match enc.sink.writeAll closing with
  | (.error e, s) => (.error (.write e), s)
  | (.ok (), s) =>
    let (r, s) := s.flush
    (r.mapError .write, s)

/-- Ends the array of an encoder that nobody closed, as far as the sink lets it. -/
def abandon (enc : ArrayEncoder) : Sink := enc.close.2

end ArrayEncoder
end HourlyUsage
