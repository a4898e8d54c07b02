import CudaToHip.CommandLine.Disk
import CudaToHip.Json.Parser
import CudaToHip.Tree.Codec

/-!
# The program

Reads the options, takes a picture of the places the run can touch, runs on the picture and carries
the changes over to the disk.

The syntax trees come from the JSON file that the environment variable `CUDA_TO_HIP_TREES` names: an
object from source texts to their trees. Files without a tree are reported as failed.
-/

namespace CudaToHip.Program

/-- A place as an absolute path. -/
def spell (place : Place) : String := "/" ++ "/".intercalate place

/-- What stands at a place whose parent is a directory; nothing if it cannot be read. -/
def entryAt? (place : Place) : IO (Option Entry) := do
  try
    return some (.file (← IO.FS.readBinFile (spell place)))
  catch
    | .inappropriateType .. => return some .directory
    | _ => return none

/-- The picture with one more place on it. -/
def look (fs : FileSystem) (place : Place) : IO FileSystem := do
  if (fs.get? place).isSome || !fs.isDirectory place.dropLast then return fs
  match ← entryAt? place with
  | some e => return fs.put place e
  | none => return fs

/-- The picture with everything on it that looking up the paths can meet. -/
def lookUp (fs : FileSystem) (paths : List Path) : IO FileSystem :=
  (paths.flatMap (FileSystem.trail fs.base)).foldlM look fs

/-- One change carried out on the disk. -/
def carryOut : FileSystem.Change → IO Unit
  | .write place bytes => IO.FS.writeBinFile (spell place) bytes
  | .makeDirectory place => IO.FS.createDirAll (spell place)
  | .remove place => IO.FS.removeFile (spell place)

/-- The grammar of the trees file, or one that knows no text if none is named. -/
def readGrammar : IO Grammar := do
  match ← IO.getEnv "CUDA_TO_HIP_TREES" with
  | none => return .ofTrees []
  | some file =>
    match (Json.parse? (← IO.FS.readFile file)).bind Grammar.ofJson? with
    | some grammar => return grammar
    | none => throw (IO.userError (file ++ ": not a table of syntax trees"))

/-- The text that tells how to call the program. -/
def usage : String :=
  "Usage: cuda-to-hip [OPTIONS] FILES...\n\n" ++
  "  --config FILE                     read the configuration from FILE\n" ++
  "  --report FILE                     write a report to FILE\n" ++
  "  --dry-run                         print the edits and change nothing\n" ++
  "  --strict                          in a file with syntax errors, edit directives only\n" ++
  "  --conflict-policy exact|overlap   which edits exclude each other\n" ++
  "  -v, --verbose                     say more\n" ++
  "  -h, --help                        print this text\n" ++
  "  -V, --version                     print the version\n"

/-- The command line led to no run. -/
def stop (s : Stop) : IO UInt32 := do
  match s with
  | .usage => IO.eprint usage
  | .help => IO.print usage
  | .version => IO.println "cuda-to-hip 0.1.0"
  return s.exitCode.toUInt32

/-- A run on the disk. -/
def run (o : Options) : IO UInt32 := do
  let grammar ← readGrammar
  let base := ((toString (← IO.currentDir)).splitOn "/").filter (· ≠ "")
  let known ← lookUp ⟨base, []⟩ (o.config.toList)
  let config := (o.toConfig known).toOption.getD .default
  let before ← lookUp known (o.paths config)
  let outcome := o.run grammar before
  (before.changes outcome.fileSystem).forM carryOut
  IO.print outcome.printed
  if let .error e := outcome.result then IO.eprintln ("error: " ++ e.message)
  return outcome.exitCode.toUInt32

end CudaToHip.Program

/-- Converts the files that the arguments name. -/
def main (args : List String) : IO UInt32 :=
  match CudaToHip.Options.parse args with
  | .error s => CudaToHip.Program.stop s
  | .ok o => CudaToHip.Program.run o
