import HourlyUsage.Calendar.Timestamp.Relaxed

/-!
# Arguments for times and windows

A time is a strict timestamp, or a bare date that stands for its midnight in
UTC.  A window is a whole number of minutes, hours or days.
-/

namespace HourlyUsage

open Text

inductive ArgumentError where
  | badTime (text : String)
  | badWindow (text : String)
  deriving DecidableEq

def ArgumentError.message : ArgumentError → String
  | .badTime text => "invalid time '" ++ text ++ "': expected RFC 3339 or YYYY-MM-DD"
  | .badWindow text =>
    "invalid window '" ++ text ++ "': expected a number followed by m, h or d"

def readTime (text : String) : Except ArgumentError Instant :=
  let cs := text.toList
  match Timestamp.Strict.read? cs <|> (Timestamp.Relaxed.readDate? cs).bind Instant.ofDate? with
  | some t => .ok t
  | none => .error (.badTime text)

def windowUnit? : List Char → Option Nat
  | ['m'] => some 60
  | ['h'] => some 3600
  | ['d'] => some 86400
  | _ => none

def windowCountLimit : Nat := 9223372036854775807

/-- The window that an argument names.  White space around it is ignored, and left out of the
message that refuses it. -/
def readWindow (text : String) : Except ArgumentError Duration :=
  let cs := trim text.toList
  let ds := cs.takeWhile Char.isDigit
  let window? := do
    let unit ← windowUnit? (cs.dropWhile Char.isDigit)
    if ds.isEmpty ∨ windowCountLimit < digitsValue ds then none
    else Duration.ofSeconds? (digitsValue ds * unit : Nat)
  match window? with
  | some d => .ok d
  | none => .error (.badWindow (String.ofList cs))

end HourlyUsage
