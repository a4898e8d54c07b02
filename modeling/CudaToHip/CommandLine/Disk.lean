import CudaToHip.CommandLine.Run

/-!
# The places a run can touch

A run works on a picture of the disk, so the picture has to show every place that one of its paths
leads over: the files, their scratch copies, the configuration and the report. `changes` lists what
has to be done to the disk afterwards.
-/

namespace CudaToHip

namespace FileSystem

/-- The place one step on. -/
def step (place : Place) (piece : List Char) : Place :=
  if Path.isIdle piece then place
  else if piece = ['.', '.'] then place.dropLast
  else place ++ [String.ofList piece]

/-- The places on the way to `target`, the first one below the root and the last one `target`. -/
def wayTo (target : Place) : List Place :=
  (List.range target.length).map fun n => target.take (n + 1)

/-- Every place that has to be known to look up a path. -/
def trail (base : Place) (path : Path) : List Place :=
  let start := if path.isAbsolute then [] else base
  ((Path.pieces path.text.toList).scanl step start).flatMap wayTo

/-- One thing to do to the disk. -/
inductive Change where
  | write (place : Place) (bytes : ByteArray)
  | makeDirectory (place : Place)
  | remove (place : Place)

/-- What leads from one picture to another. -/
def changes (before after : FileSystem) : List Change :=
  let made := after.entries.filterMap fun (place, e) =>
    if before.get? place = some e then none
    else
      match e with
      | .file bytes => some (.write place bytes)
      | .directory => some (.makeDirectory place)
  let removed := before.entries.filterMap fun (place, _) =>
    if (after.get? place).isNone then some (.remove place) else none
  made ++ removed

end FileSystem

/-- All paths that a run under a configuration looks up. -/
def Options.paths (o : Options) (config : Config) : List Path :=
  o.files ++ o.files.filterMap (scratchPath? config) ++ o.config.toList ++ o.report.toList

end CudaToHip
