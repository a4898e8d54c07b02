/-!
# Metrics

The counters of a run. Runs add up counter by counter (`Metrics.add`).
-/

namespace CudaToHip

/-- Counters collected over a run. -/
structure Metrics where
  /-- Files handed to the run. -/
  filesAttempted : Nat
  /-- Files with at least one accepted edit. -/
  filesConverted : Nat
  /-- Matches reported by the front end over all passes. -/
  matchesFound : Nat
  /-- Edits produced by rules. -/
  editsProposed : Nat
  editsAccepted : Nat
  editsRejected : Nat
  /-- Scans, by file and view, that reported diagnostics. -/
  passFailures : Nat
  /-- Edits written to files. -/
  editsApplied : Nat
  /-- Accepted edits that could not be applied. -/
  applyFailures : Nat
  /-- Time of the analysis passes in milliseconds. -/
  totalTime : Nat
  deriving Repr, DecidableEq, Inhabited

namespace Metrics

def zero : Metrics := ⟨0, 0, 0, 0, 0, 0, 0, 0, 0, 0⟩

/-- Both runs taken together. -/
def add (a b : Metrics) : Metrics where
  filesAttempted := a.filesAttempted + b.filesAttempted
  filesConverted := a.filesConverted + b.filesConverted
  matchesFound := a.matchesFound + b.matchesFound
  editsProposed := a.editsProposed + b.editsProposed
  editsAccepted := a.editsAccepted + b.editsAccepted
  editsRejected := a.editsRejected + b.editsRejected
  passFailures := a.passFailures + b.passFailures
  editsApplied := a.editsApplied + b.editsApplied
  applyFailures := a.applyFailures + b.applyFailures
  totalTime := a.totalTime + b.totalTime

/-- The share of proposed edits that was accepted; zero if none was proposed. -/
def acceptanceRate (m : Metrics) : Float :=
  if m.editsProposed = 0 then 0
  else m.editsAccepted.toUInt64.toFloat / m.editsProposed.toUInt64.toFloat

/-- Every accepted edit was written. -/
def fullyApplied (m : Metrics) : Bool := m.applyFailures == 0

end Metrics

end CudaToHip
