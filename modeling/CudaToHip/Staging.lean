import CudaToHip.Config.Basic
import CudaToHip.FileSystem
import CudaToHip.Scan.Basic

/-!
# Staging

A file `foo.cu` is copied to `foo.hip.cu`; analysis and edits happen in that scratch copy. In the
end the copy is moved back over the source (`StagedFile.restore`) or thrown away
(`StagedFile.discard`).
-/

namespace CudaToHip

/-- The path of the scratch copy, if the name of the file ends as sources do and does not consist of
that ending alone. -/
def scratchPath? (config : Config) (path : Path) : Option Path := do
  let name := (← path.fileName?).toList
  let ext := config.sourceExtension.toList
  guard (ext.isSuffixOf name && ext.length < name.length)
  return path.sibling
    (String.ofList (name.take (name.length - ext.length)) ++ config.markerExtension)

/-- A source file and its scratch copy. -/
structure StagedFile where
  source : Path
  scratch : Path
  deriving Repr, DecidableEq, Inhabited

namespace StagedFile

/-- The scratch copy, read for analysis. -/
def load (f : StagedFile) (fs : FileSystem) : Except Failure SourceFile :=
  match fs.readText? f.scratch with
  | .ok text => .ok ⟨f.scratch, text⟩
  | .error e => .error (.file f.scratch e)

/-- The scratch copy moved back over the source. -/
def restore (f : StagedFile) (fs : FileSystem) : Except Failure FileSystem :=
  (fs.rename f.scratch f.source).mapError (.file f.scratch)

/-- The scratch copy removed, the source left as it is. -/
def discard (f : StagedFile) (fs : FileSystem) : Except Failure FileSystem :=
  (fs.remove f.scratch).mapError (.file f.scratch)

end StagedFile

/-- What became of a file to be staged. -/
inductive Staged where
  /-- The file is not one that gets converted. -/
  | skipped
  | staged (file : StagedFile)
  | failed (failure : Failure)
  deriving Repr, DecidableEq

/-- Copies a file to its scratch path, where nothing may stand yet. A scratch copy that cannot be
filled stays behind empty. -/
def stage (config : Config) (fs : FileSystem) (path : Path) : FileSystem × Staged :=
  match scratchPath? config path with
  | none => (fs, .skipped)
  | some scratch =>
    match fs.open? path with
    | .error e => (fs, .failed (.file path e))
    | .ok opened =>
      match fs.createNew scratch with
      | .error e => (fs, .failed (.file scratch e))
      | .ok created =>
        match (FileSystem.Entry.bytes? opened).bind (created.write scratch) with
        | .error e => (created, .failed (.file scratch e))
        | .ok written => (written, .staged ⟨path, scratch⟩)

end CudaToHip
