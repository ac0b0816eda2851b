import HourlyUsage.FileTree.Staging
import HourlyUsage.Report

/-!
# Commands

A command shows the key range of a time range, plans its windows, or exports
its events from a store in a file tree to a file of that tree.  The file
appears complete or not at all.
-/

namespace HourlyUsage

open Text

structure Range where
  account : String
  start : Instant
  stop : Instant
  deriving DecidableEq

structure PlanRequest where
  range : Range
  window : Duration
  deriving DecidableEq

/-- Where the events of a plan come from and go to.  Paths are text: those whose bytes are no UTF-8
are left out. -/
structure ExportRequest where
  plan : PlanRequest
  store : String
  output : String
  deriving DecidableEq

inductive Command where
  | query (range : Range)
  | plan (request : PlanRequest)
  | exportTo (request : ExportRequest)
  deriving DecidableEq

def Range.checkAccount (r : Range) : Except CommandError Unit :=
  if isBlankText r.account then .error (.invalidArgument "account cannot be empty") else .ok ()

def Range.report (r : Range) : Except CommandError QueryReport := do
  r.checkAccount
  let w ← (Window.ofRange r.account r.start r.stop).mapError .usage
  return ⟨r.account, w.start, w.stop, w.query⟩

namespace PlanRequest

def schedule (r : PlanRequest) : Except CommandError Schedule := do
  r.range.checkAccount
  (Schedule.ofRange r.range.account r.range.start r.range.stop r.window).mapError .usage

/-- The rows of a plan.  A window of its schedule is never refused, see `report_eq_loop`. -/
def report (r : PlanRequest) : Except CommandError PlanReport := do
  let s ← r.schedule
  return ⟨r.range.account, s.step.wholeHours, s.windows⟩

end PlanRequest

namespace ExportRequest

/-- Exports a schedule to a file.  The array is staged beside the file, from the tree as it stands
with the staged file in it, and moved to its path once it is closed. -/
def publish (tree : Node) (store output : String) (s : Schedule) (staging : Staging) :
    Except CommandError Summary × Node :=
  match FileStore.create tree store FileStore.defaultExtension with
  | .error e => (.error (.usage e), tree)
  | .ok store =>
    match tree.stage staging (utf8 output) with
    | .error e => (.error (.io e), tree)
    | .ok staged =>
      match exportArray (store.view staged.tree) s staging.sink with
      | (.error e, _) => (.error (.usage e), staged.discard)
      | (.ok summary, sink) =>
        match staged.publish sink.content (utf8 output) with
        | .error e => (.error (.io e), staged.discard)
        | .ok tree => (.ok summary, tree)

def run (tree : Node) (r : ExportRequest) (staging : Staging := {}) :
    Except CommandError ExportReport × Node :=
  match r.plan.schedule with
  | .error e => (.error e, tree)
  | .ok s =>
    let (result, tree) := publish tree r.store r.output s staging
    (result.map fun summary ↦ ⟨r.output, summary⟩, tree)

end ExportRequest

namespace Command

def run (tree : Node) : Command → Except CommandError Report × Node
  | .query range => (range.report.map .query, tree)
  | .plan request => (request.report.map .plan, tree)
  | .exportTo request =>
    let (r, tree) := request.run tree
    (r.map .exported, tree)

def execute (tree : Node) (format : Format) (sink : Sink) (c : Command) :
    Except CommandError Unit × Sink × Node :=
  match c.run tree with
  | (.error e, tree) => (.error e, sink, tree)
  | (.ok report, tree) =>
    let (r, sink) := report.write format sink
    (r, sink, tree)

end Command
end HourlyUsage
