import CudaToHip.Metrics
import CudaToHip.Replacement.Set
import CudaToHip.Rules.Engine
import CudaToHip.Scan.Basic

/-!
# Plans

The same files are scanned once under each view. A pass depends on the files and the view alone;
the edits of all passes are folded, in order, into one replacement set for each file. The plan that
results holds these sets, a summary of each pass, and the counters.
-/

namespace CudaToHip

/-- Everything that one pass gave, in the order it was found. -/
structure PassReport where
  view : View
  edits : List (Path × Edit)
  diagnostics : List (Path × Diagnostic)
  /-- Files whose scan reported diagnostics or could not run. -/
  failedFiles : List Path
  matchCount : Nat
  deriving Repr, Inhabited

/-- What is kept of a pass when its edits are folded. -/
structure PassSummary where
  view : View
  matchCount : Nat
  editsProposed : Nat
  diagnostics : List (Path × Diagnostic)
  failedFiles : List Path
  deriving Repr, DecidableEq, Inhabited

def PassReport.summary (r : PassReport) : PassSummary where
  view := r.view
  matchCount := r.matchCount
  editsProposed := r.edits.length
  diagnostics := r.diagnostics
  failedFiles := r.failedFiles

/-- The replacement sets of files, sorted by path. -/
abbrev FileSets := List (Path × ReplacementSet)

namespace FileSets

/-- The set of a file. -/
def get? (sets : FileSets) (path : Path) : Option ReplacementSet :=
  (sets.find? (·.1.same path)).map Prod.snd

/-- The sets after a proposal for one file, which gets an empty set first if it has none. -/
def propose (policy : ConflictPolicy) (path : Path) (e : Edit) : FileSets → FileSets
  | [] => [(path, (ReplacementSet.empty policy).propose e)]
  | (p, s) :: rest =>
    match compare path p with
    | .lt => (path, (ReplacementSet.empty policy).propose e) :: (p, s) :: rest
    | .eq => (p, s.propose e) :: rest
    | .gt => (p, s) :: propose policy path e rest

/-- The proposal is turned away. -/
def rejects (sets : FileSets) (path : Path) (e : Edit) : Bool :=
  ((sets.get? path).bind (·.conflict? e)).isSome

end FileSets

/-- The folded result of all passes. -/
structure Plan where
  files : FileSets
  passes : List PassSummary
  metrics : Metrics
  deriving Repr, DecidableEq, Inhabited

namespace Plan

def empty : Plan := ⟨[], [], .zero⟩

/-- The plan after one proposal. -/
def propose (config : Config) (plan : Plan) (proposal : Path × Edit) : Plan :=
  let (path, e) := proposal
  let m := plan.metrics
  let counted :=
    if plan.files.rejects path e then { m with editsRejected := m.editsRejected + 1 }
    else { m with editsAccepted := m.editsAccepted + 1 }
  { plan with
    files := plan.files.propose config.conflictPolicy path e
    metrics := { counted with editsProposed := m.editsProposed + 1 } }

/-- The plan after a pass: every edit of the pass proposed in order. -/
def fold (config : Config) (plan : Plan) (report : PassReport) : Plan :=
  let m := plan.metrics
  let begun : Plan :=
    { plan with
      passes := plan.passes ++ [report.summary]
      metrics :=
        { m with
          matchesFound := m.matchesFound + report.matchCount
          passFailures := m.passFailures + report.failedFiles.length } }
  let proposed := report.edits.foldl (propose config) begun
  { proposed with
    metrics :=
      { proposed.metrics with
        filesConverted := (proposed.files.filter fun f => !f.2.isEmpty).length } }

/-- Accepted edits over all files. -/
def editCount (plan : Plan) : Nat := (plan.files.flatMap (·.2.edits)).length

end Plan

/-- A front end and rules at work under a configuration. -/
structure Converter where
  frontEnd : FrontEnd
  rules : Rules

namespace Converter

variable (c : Converter)

def config : Config := c.rules.config

/-- What the scan of a file found; nothing if no scan could be made. -/
def found (scan : Except Failure Scan) : List Match :=
  match scan with
  | .ok s => s.found
  | .error _ => []

/-- The diagnostics of a scan. A scan that could not be made counts as one at no line. -/
def diagnostics (scan : Except Failure Scan) : List Diagnostic :=
  match scan with
  | .ok s => s.diagnostics
  | .error e => [⟨0, 0, e.message⟩]

/-- One pass: every file scanned under one view. A scan that fails on the way still contributes the
matches found so far, and no file affects another. -/
def runPass (files : List SourceFile) (view : View) : PassReport :=
  let scans := files.map fun f => (f.path, c.frontEnd.scan f view)
  { view
    edits := scans.flatMap fun (path, scan) => (c.rules.editsForAll (found scan)).map (path, ·)
    diagnostics := scans.flatMap fun (path, scan) => (diagnostics scan).map (path, ·)
    failedFiles := (scans.filter fun (_, scan) => !(diagnostics scan).isEmpty).map Prod.fst
    matchCount := (scans.flatMap fun (_, scan) => found scan).length }

/-- The plan after the passes under the given views. -/
def runPasses (files : List SourceFile) (views : List View) (plan : Plan) : Plan :=
  views.foldl (fun plan view => plan.fold c.config (c.runPass files view)) plan

/-- The plan of a batch of files: both views in their order. -/
def plan (files : List SourceFile) : Plan :=
  c.runPasses files View.passOrder
    { Plan.empty with metrics := { Metrics.zero with filesAttempted := files.length } }

end Converter

end CudaToHip
