import CudaToHip.CommandLine.Run

/-!
# Sessions

A conversion in single steps: files are staged, loaded, planned, edited and put back one request at
a time. A session remembers the staged files by the path they were staged under, the files loaded so
far and the current plan. A request that fails leaves the session in use.
-/

namespace CudaToHip

/-- Where a session stands. -/
structure Session where
  fileSystem : FileSystem
  staged : List (String × StagedFile)
  loaded : List SourceFile
  plan : Plan

namespace Session

/-- One request. -/
inductive Request where
  /-- Write a file, or make a directory where no content is given; missing directories on the way
  are made too. -/
  | write (path : Path) (content : Option ByteArray)
  /-- Remove a file, or a directory with all that is in it. -/
  | remove (path : Path)
  | stage (path : Path)
  | load (path : Path)
  | restore (path : Path)
  | discard (path : Path)
  /-- Forget the files loaded so far. -/
  | forget
  /-- Plan the conversion of the files loaded so far. -/
  | plan
  /-- Apply the current plan. -/
  | apply
  /-- Report on the current plan. -/
  | report

/-- What a request is answered. -/
inductive Answer where
  | done
  | staged (file : StagedFile)
  | loaded (file : SourceFile)
  | restored (path : Path)
  | planned (plan : Plan)
  | applied (outcomes : List FileOutcome)
  | report (text : String)
  /-- No file is staged under the path. -/
  | notStaged
  | failed (failure : Failure)

def start (fs : FileSystem) : Session := ⟨fs, [], [], .empty⟩

/-- The staged file under a path, as the path was spelled. -/
def staged? (s : Session) (path : Path) : Option StagedFile := s.staged.lookup path.text

/-- The session without the staged file under a path. -/
def unstage (s : Session) (path : Path) : Session :=
  { s with staged := s.staged.filter (·.1 ≠ path.text) }

/-- A file or directory made at a path, with the directories above it, and what went wrong. -/
def make (fs : FileSystem) (path : Path) (content : Option ByteArray) :
    FileSystem × Option FileError :=
  match content with
  | none => fs.makeDirectories path
  | some bytes =>
    match fs.makeDirectories ⟨String.ofList path.parentText⟩ with
    | (fs, none) =>
      match fs.write path bytes with
      | .ok fs => (fs, none)
      | .error e => (fs, some e)
    | failed => failed

/-- The session after a request, and the answer to it. -/
def handle (converter : Converter) (s : Session) : Request → Session × Answer
  | .write path content =>
    match make s.fileSystem path content with
    | (fs, none) => ({ s with fileSystem := fs }, .done)
    | (fs, some e) => ({ s with fileSystem := fs }, .failed (.file path e))
  | .remove path =>
    match s.fileSystem.removeAll path with
    | .ok fs => ({ s with fileSystem := fs }, .done)
    | .error e => (s, .failed (.file path e))
  | .stage path =>
    match CudaToHip.stage converter.config s.fileSystem path with
    | (fs, .skipped) => ({ s with fileSystem := fs }, .done)
    | (fs, .failed e) => ({ s with fileSystem := fs }, .failed e)
    | (fs, .staged f) =>
      let rest := s.unstage path
      ({ rest with fileSystem := fs, staged := (path.text, f) :: rest.staged }, .staged f)
  | .load path =>
    match s.staged? path with
    | none => (s, .notStaged)
    | some f =>
      match f.load s.fileSystem with
      | .ok source => ({ s with loaded := s.loaded ++ [source] }, .loaded source)
      | .error e => (s, .failed e)
  | .restore path =>
    match s.staged? path with
    | none => (s, .notStaged)
    | some f =>
      match f.restore s.fileSystem with
      | .ok fs => ({ s.unstage path with fileSystem := fs }, .restored f.source)
      | .error e => (s.unstage path, .failed e)
  | .discard path =>
    match s.staged? path with
    | none => (s, .notStaged)
    | some f =>
      match f.discard s.fileSystem with
      | .ok fs => ({ s.unstage path with fileSystem := fs }, .done)
      | .error e => (s.unstage path, .failed e)
  | .forget => ({ s with loaded := [] }, .done)
  | .plan =>
    let plan := converter.plan s.loaded
    ({ s with plan }, .planned plan)
  | .apply =>
    let done := s.plan.applyTo s.loaded s.fileSystem
    ({ s with fileSystem := done.fileSystem, plan := done.plan }, .applied done.outcomes)
  | .report => (s, .report s.plan.reportText)

end Session

end CudaToHip
