import CudaToHip.Json.Printer
import CudaToHip.Plan.Basic

/-!
# Reports

A plan as a JSON document: for each file the accepted edits, the conflicts and the number of
overlapping pairs, then the passes with their diagnostics, and the counters. Fields are written in
alphabetical order.
-/

namespace CudaToHip

def Edit.report (e : Edit) : Json :=
  .ofFields
    [("end", .ofNat e.span.stop), ("origin", .ofText e.origin.label),
     ("start", .ofNat e.span.start), ("text", .ofText e.newText)]

def Conflict.report (c : Conflict) : Json :=
  .ofFields
    [("duplicate", .bool c.isDuplicate), ("kept", c.existing.report),
     ("reason", .ofText c.reason.label), ("rejected", c.rejected.report)]

def ReplacementSet.report (path : Path) (s : ReplacementSet) : Json :=
  .ofFields
    [("conflicts", .array (s.conflicts.map Conflict.report)),
     ("edits", .array (s.edits.map Edit.report)),
     ("overlapping", .ofNat s.overlappingPairs.length),
     ("path", .ofText path.text)]

def Diagnostic.report (path : Path) (d : Diagnostic) : Json :=
  .ofFields
    [("column", .ofNat d.column), ("line", .ofNat d.line), ("message", .ofText d.message),
     ("path", .ofText path.text)]

def PassSummary.report (p : PassSummary) : Json :=
  .ofFields
    [("diagnostics", .array (p.diagnostics.map fun (path, d) => d.report path)),
     ("edits_proposed", .ofNat p.editsProposed),
     ("failed_files", .array (p.failedFiles.map fun path => .ofText path.text)),
     ("matches", .ofNat p.matchCount),
     ("view", .ofText p.view.label)]

def Metrics.report (m : Metrics) : Json :=
  .ofFields
    [("apply_failures", .ofNat m.applyFailures), ("edits_accepted", .ofNat m.editsAccepted),
     ("edits_applied", .ofNat m.editsApplied), ("edits_proposed", .ofNat m.editsProposed),
     ("edits_rejected", .ofNat m.editsRejected), ("files_attempted", .ofNat m.filesAttempted),
     ("files_translated", .ofNat m.filesConverted), ("matches_found", .ofNat m.matchesFound),
     ("pass_failures", .ofNat m.passFailures), ("total_time", .ofNat m.totalTime)]

namespace Plan

def report (plan : Plan) : Json :=
  .ofFields
    [("files", .array (plan.files.map fun (path, s) => s.report path)),
     ("metrics", plan.metrics.report),
     ("passes", .array (plan.passes.map PassSummary.report))]

/-- The report as text. -/
def reportText (plan : Plan) : String := plan.report.pretty

end Plan

end CudaToHip
