import CudaToHip.FileSystem
import CudaToHip.Plan.Basic
import CudaToHip.Replacement.Apply

/-!
# Applying a plan

Every file of a plan is read again and gets its edits only if it still holds the text that the plan
was made from. What happened is recorded file by file and counted in the plan.
-/

namespace CudaToHip

/-- What happened to one file. -/
structure FileOutcome where
  path : Path
  applied : Nat
  skipped : List Skip
  written : Bool
  deriving Repr, DecidableEq, Inhabited

namespace FileOutcome

/-- No edit was applied, for one reason. -/
def allSkipped (path : Path) (set : ReplacementSet) (reason : SkipReason) : FileOutcome :=
  ⟨path, 0, set.edits.map (⟨·, reason⟩), false⟩

end FileOutcome

namespace Plan

/-- The text that was analysed under a path: that of the first file of the path. -/
def analysed? (files : List SourceFile) (path : Path) : Option String :=
  (files.find? (·.path.same path)).map (·.text)

/-- The edits of one file applied to it. -/
def applyFile (files : List SourceFile) (fs : FileSystem) (path : Path) (set : ReplacementSet) :
    FileSystem × FileOutcome :=
  match fs.readText? path with
  | .error e => (fs, .allSkipped path set (.unreadable (.file path e)))
  | .ok current =>
    if analysed? files path ≠ some current then (fs, .allSkipped path set .sourceChanged)
    else
      let result := set.applyTo current
      if result.applied = 0 then (fs, ⟨path, 0, result.skipped, false⟩)
      else
        match fs.write path result.text.toUTF8 with
        | .ok written => (written, ⟨path, result.applied, result.skipped, true⟩)
        | .error e => (fs, .allSkipped path set (.unreadable (.file path e)))

/-- The edits of all files applied in turn; a file without accepted edits is passed over. -/
def applyFiles (files : List SourceFile) (fs : FileSystem) :
    FileSets → FileSystem × List FileOutcome
  | [] => (fs, [])
  | (path, set) :: rest =>
    if set.isEmpty then applyFiles files fs rest
    else
      let (fs₁, outcome) := applyFile files fs path set
      let (fs₂, outcomes) := applyFiles files fs₁ rest
      (fs₂, outcome :: outcomes)

/-- The plan with the outcomes counted. -/
def count (plan : Plan) (outcomes : List FileOutcome) : Plan :=
  { plan with
    metrics :=
      { plan.metrics with
        editsApplied := outcomes.foldl (fun n o => n + o.applied) plan.metrics.editsApplied
        applyFailures :=
          plan.metrics.applyFailures + (outcomes.flatMap (·.skipped)).length } }

/-- Everything that applying a plan gives. -/
structure Application where
  fileSystem : FileSystem
  plan : Plan
  outcomes : List FileOutcome

/-- The plan applied to the files it was made from. -/
def applyTo (plan : Plan) (files : List SourceFile) (fs : FileSystem) : Application :=
  let (fs, outcomes) := applyFiles files fs plan.files
  ⟨fs, plan.count outcomes, outcomes⟩

end Plan

end CudaToHip
