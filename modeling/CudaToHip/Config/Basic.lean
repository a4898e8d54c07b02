import CudaToHip.Failure
import CudaToHip.NameMap
import CudaToHip.Text.Marker

/-!
# Configuration

The settings of a conversion, their defaults, and the check that rules out settings under which
staging or marker exchange would be ambiguous (`Config.validate`).
-/

namespace CudaToHip

/-- When two edits of one file are in conflict. -/
inductive ConflictPolicy where
  /-- Only edits of identical spans are; partial overlaps are accepted. -/
  | exactSpan
  /-- Any two edits that claim common text are. -/
  | overlap
  deriving Repr, DecidableEq, Inhabited

def ConflictPolicy.label : ConflictPolicy → String
  | .exactSpan => "exact_span"
  | .overlap => "overlap"

def ConflictPolicy.ofLabel? (s : String) : Option ConflictPolicy :=
  if s = "exact_span" then some .exactSpan
  else if s = "overlap" then some .overlap
  else none

/-- How a kernel launch is spelled in the output. -/
structure LaunchSpelling where
  /-- The function called in place of the launch. -/
  launchFunction : String
  /-- The macro wrapped around the kernel's name. -/
  kernelNameWrapper : String
  /-- The parameter put in front of every launched kernel's parameters. -/
  extraParameter : String
  /-- The configuration type whose arguments are wrapped in it. -/
  extentType : String
  deriving Repr, DecidableEq, Inhabited

def LaunchSpelling.default : LaunchSpelling where
  launchFunction := "hipLaunchKernel"
  kernelNameWrapper := "HIP_KERNEL_NAME"
  extraParameter := "hipLaunchParm lp"
  extentType := "dim3"

/-- The settings of a conversion. -/
structure Config where
  /-- The ending of files that are converted. -/
  sourceExtension : String
  /-- The ending of the scratch copy that is analysed and edited. -/
  markerExtension : String
  /-- What names of the source API begin with. -/
  sourceStem : String
  launch : LaunchSpelling
  stringMarker : Text.Marker
  /-- What the members of coordinate objects begin with. -/
  builtinMemberStem : String
  conflictPolicy : ConflictPolicy
  /-- Report matches of the tree even when the tree has errors. -/
  tolerant : Bool
  /-- The largest file scanned, in bytes. -/
  maxFileSize : Nat
  /-- Mappings put on top of the built-in table. -/
  extraSymbols : NameMap
  deriving Repr, DecidableEq

namespace Config

def default : Config where
  sourceExtension := ".cu"
  markerExtension := ".hip.cu"
  sourceStem := "cuda"
  launch := .default
  stringMarker := .default
  builtinMemberStem := "__fetch_builtin_"
  conflictPolicy := .exactSpan
  tolerant := true
  maxFileSize := 10 * 1024 * 1024
  extraSymbols := []

/-- Files with errors yield the matches of their directives only. -/
def strict : Config := { default with tolerant := false }

/-- What is wrong with the settings, the first reason found. -/
def problem? (c : Config) : Option ConfigError :=
  if c.sourceExtension = "" then some .emptySourceExtension
  else if c.markerExtension = c.sourceExtension then some (.sameExtensions c.sourceExtension)
  else if c.stringMarker.word = "" then some .emptyMarker
  else none

/-- The settings, unless something is wrong with them. -/
def validate (c : Config) : Except Failure Config :=
  match c.problem? with
  | some e => .error (.config e)
  | none => .ok c

def withSymbol (c : Config) (name target : String) : Config :=
  { c with extraSymbols := c.extraSymbols.insert name target }

end Config

end CudaToHip
