import CudaToHip.CommandLine.Options
import CudaToHip.Config.Codec
import CudaToHip.Plan.Apply
import CudaToHip.Report
import CudaToHip.Scan.CudaFrontEnd
import CudaToHip.Staging

/-!
# Runs

One run of the program on a file system: stage the files, plan their conversion, apply the plan to
the scratch copies and move them back; or, in a dry run, print the plan and throw the copies away. A
file that cannot be staged or read is left out and the others go on.

A file whose scan breaks off takes the whole run with it. Nothing is planned then, and the scratch
copies stay where they are.
-/

namespace CudaToHip

/-- Where a run breaks off. -/
inductive RunError where
  | loadingConfig (path : Path)
  /-- In the middle of a scan; nobody catches it. -/
  | scanning (path : Path)
  | writingReport (path : Path)
  deriving Repr, DecidableEq

def RunError.message : RunError → String
  | .loadingConfig path => "loading config " ++ path.text
  | .scanning path => "scanning " ++ path.text
  | .writingReport path => "writing report " ++ path.text

/-- What a run leaves behind: the files, what it printed, and whether every planned edit was
applied. -/
structure RunOutcome where
  fileSystem : FileSystem
  printed : String
  result : Except RunError Bool

/-- The code the program ends with. -/
def RunOutcome.exitCode (o : RunOutcome) : Nat :=
  match o.result with
  | .ok true => 0
  | .error (.scanning _) => 101
  | _ => 1

namespace Options

/-- The configuration of a run: that of the file, or the default one, with the options on top. -/
def toConfig (o : Options) (fs : FileSystem) : Except RunError Config := do
  let config ←
    match o.config with
    | some path => (Config.load fs path).mapError fun _ => .loadingConfig path
    | Option.none => .ok .default
  return { config with
    tolerant := config.tolerant && !o.strict
    conflictPolicy := o.conflictPolicy.getD config.conflictPolicy }

end Options

/-- A file ready to be converted: its scratch copy and the text of it. -/
structure Loaded where
  staged : StagedFile
  source : SourceFile
  deriving Repr, DecidableEq

namespace Loaded

/-- One file staged and loaded, if possible. A scratch copy that cannot be loaded is removed. -/
def ofPath (config : Config) (fs : FileSystem) (path : Path) : FileSystem × Option Loaded :=
  match stage config fs path with
  | (fs, .staged f) =>
    match f.load fs with
    | .ok source => (fs, some ⟨f, source⟩)
    | .error _ =>
      match f.discard fs with
      | .ok fs => (fs, none)
      | .error _ => (fs, none)
  | (fs, _) => (fs, none)

/-- All files staged and loaded in turn. -/
def all (config : Config) (fs : FileSystem) : List Path → FileSystem × List Loaded
  | [] => (fs, [])
  | path :: paths =>
    let (fs₁, loaded?) := ofPath config fs path
    let (fs₂, loaded) := all config fs₁ paths
    (fs₂, loaded?.toList ++ loaded)

/-- The scratch copies of all files moved back; one that cannot be moved stays. -/
def restoreAll (fs : FileSystem) : List Loaded → FileSystem
  | [] => fs
  | l :: ls =>
    match l.staged.restore fs with
    | .ok fs => restoreAll fs ls
    | .error _ => restoreAll fs ls

/-- The scratch copies of all files removed; one that cannot be removed stays. -/
def discardAll (fs : FileSystem) : List Loaded → FileSystem
  | [] => fs
  | l :: ls =>
    match l.staged.discard fs with
    | .ok fs => discardAll fs ls
    | .error _ => discardAll fs ls

end Loaded

/-- The edits of a plan in words, file by file. -/
def Plan.listing (plan : Plan) : String :=
  String.join (plan.files.map fun (path, s) =>
    path.text ++ ": " ++ toString s.size ++ " edits\n" ++
      String.join (s.edits.map fun e => "  " ++ toString e ++ "\n"))

/-- The converter with the front end for CUDA. -/
def Converter.cuda (grammar : Grammar) (symbols : SymbolTable) (config : Config) : Converter where
  frontEnd := CudaFrontEnd grammar config
  rules := ⟨symbols, config⟩

/-- The symbols of a configuration on top of a table. -/
def Config.symbols (config : Config) (table : SymbolTable) : SymbolTable :=
  table.withOverrides config.extraSymbols

namespace Options

/-- The report written, if one is asked for. -/
def writeReport (o : Options) (plan : Plan) (fs : FileSystem) : Except RunError FileSystem :=
  match o.report with
  | Option.none => .ok fs
  | some path =>
    (fs.write path plan.reportText.toUTF8).mapError fun _ => .writingReport path

/-- One run on a file system. -/
def run (o : Options) (grammar : Grammar) (fs : FileSystem) : RunOutcome :=
  match o.toConfig fs with
  | .error e => ⟨fs, "", .error e⟩
  | .ok config =>
    let (fs, loaded) := Loaded.all config fs o.files
    if loaded.isEmpty then ⟨fs, "", .ok true⟩
    else
      let files := loaded.map (·.source)
      match files.find? (CudaFrontEnd.breaksOff grammar config) with
      | some file => ⟨fs, "", .error (.scanning file.path)⟩
      | Option.none =>
        let plan := (Converter.cuda grammar (config.symbols .builtin) config).plan files
        let finish (plan : Plan) (fs : FileSystem) (printed : String) (complete : Bool) :
            RunOutcome :=
          match o.writeReport plan fs with
          | .ok fs => ⟨fs, printed, .ok complete⟩
          | .error e => ⟨fs, printed, .error e⟩
        if o.dryRun then finish plan (Loaded.discardAll fs loaded) plan.listing true
        else
          let done := plan.applyTo files fs
          finish done.plan (Loaded.restoreAll done.fileSystem loaded) ""
            (done.outcomes.all (·.skipped.isEmpty))

end Options

end CudaToHip
