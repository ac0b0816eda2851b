import HourlyUsage.ArrayEncoder
import HourlyUsage.ObjectStore
import HourlyUsage.Schedule

/-!
# Export of events

An export goes through the windows of a schedule, the keys of each window and
the events of each key, and encodes every event.  The first step that fails
ends it, with whatever was encoded before.
-/

namespace HourlyUsage

structure Summary where
  windows : Nat := 0
  objects : Nat := 0
  events : Nat := 0
  deriving DecidableEq

def exportEvents : List Event → ArrayEncoder → Except UsageError Nat × ArrayEncoder
  | [], enc => (.ok 0, enc)
  | event :: events, enc =>
    match enc.encode (.ok event.json) with
    | (.error e, enc) => (.error e, enc)
    | (.ok (), enc) =>
      let (n, enc) := exportEvents events enc
      (n.map fun n ↦ n + 1, enc)

def exportObjects (store : ObjectStore) :
    List String → ArrayEncoder → Except UsageError Nat × ArrayEncoder
  | [], enc => (.ok 0, enc)
  | key :: keys, enc =>
    match store.read key with
    | .error e => (.error e, enc)
    | .ok events =>
      match exportEvents events enc with
      | (.error e, enc) => (.error e, enc)
      | (.ok n, enc) =>
        let (m, enc) := exportObjects store keys enc
        (m.map fun m ↦ n + m, enc)

/-- Exports the windows of a schedule, at most `fuel` of them, and adds to a summary.  It ends where
the schedule is exhausted, for no window of a range is refused, see `exportWindows_eq_loop`. -/
def exportWindows (store : ObjectStore) :
    (fuel : Nat) → Schedule → Summary → ArrayEncoder → Except UsageError Summary × ArrayEncoder
  | 0, _, summary, enc => (.ok summary, enc)
  | fuel + 1, s, summary, enc =>
    match s.next? with
    | none => (.ok summary, enc)
    | some (w, s) =>
      match store.list w.query with
      | .error e => (.error e, enc)
      | .ok keys =>
        match exportObjects store keys enc with
        | (.error e, enc) => (.error e, enc)
        | (.ok n, enc) =>
          exportWindows store fuel s
            ⟨summary.windows + 1, summary.objects + keys.length, summary.events + n⟩ enc

def exportUsage (store : ObjectStore) (s : Schedule) (enc : ArrayEncoder) :
    Except UsageError Summary × ArrayEncoder :=
  exportWindows store s.bound s {} enc

/-- Exports into an array of its own.  After a failure the array is ended as far as the sink lets
it. -/
def exportArray (store : ObjectStore) (s : Schedule) (sink : Sink) :
    Except UsageError Summary × Sink :=
  match ArrayEncoder.start sink with
  | (.error e, enc) => (.error e, enc.sink)
  | (.ok (), enc) =>
    match exportUsage store s enc with
    | (.error e, enc) => (.error e, enc.abandon)
    | (.ok summary, enc) =>
      let (r, sink) := enc.close
      (r.map fun _ ↦ summary, sink)

end HourlyUsage
