import CudaToHip.Path

/-!
# Failures

What can stop a step of a conversion. Names without a mapping, edits in conflict, problems in the
converted source and skipped edits are no failures: they are recorded as data and the run goes on.
-/

namespace CudaToHip

/-- Why a file could not be read, made, moved or removed. -/
inductive FileError where
  | notFound
  | alreadyExists
  | notDirectory
  | isDirectory
  | invalidMove
  | notEmpty
  /-- The path, or a name in it, has too many bytes. -/
  | nameTooLong
  /-- The path holds the character that ends a path for the system. -/
  | nulInPath
  /-- The bytes of the file are no text. -/
  | notText
  deriving Repr, DecidableEq, Inhabited

def FileError.message : FileError → String
  | .notFound => "No such file or directory (os error 2)"
  | .alreadyExists => "File exists (os error 17)"
  | .notDirectory => "Not a directory (os error 20)"
  | .isDirectory => "Is a directory (os error 21)"
  | .invalidMove => "Invalid argument (os error 22)"
  | .notEmpty => "Directory not empty (os error 39)"
  | .nameTooLong => "File name too long (os error 36)"
  | .nulInPath => "file name contained an unexpected NUL byte"
  | .notText => "stream did not contain valid UTF-8"

/-- Why a configuration is refused. -/
inductive ConfigError where
  /-- The text does not spell a configuration. -/
  | malformed
  | emptySourceExtension
  /-- The scratch copy would have the name of its source. -/
  | sameExtensions (ext : String)
  | emptyMarker
  /-- Any other reason, in words. -/
  | other (reason : String)
  deriving Repr, DecidableEq, Inhabited

def ConfigError.message : ConfigError → String
  | .malformed => "not a configuration"
  | .emptySourceExtension => "source_extension must not be empty"
  | .sameExtensions ext =>
    "marker_extension must differ from source_extension (" ++ ext ++ ")"
  | .emptyMarker => "string_marker.from must not be empty"
  | .other reason => reason

/-- Why the front end could not scan a file at all. -/
inductive FrontEndError where
  /-- The grammar could not be loaded. -/
  | grammar (path : Path) (reason : String)
  /-- The parser gave no tree. -/
  | noTree (path : Path)
  /-- Any other reason, in words. -/
  | other (path : Path) (reason : String)
  deriving Repr, DecidableEq, Inhabited

namespace FrontEndError

def path : FrontEndError → Path
  | .grammar p _ | .noTree p | .other p _ => p

def reason : FrontEndError → String
  | .grammar p reason => "failed to load C++ grammar for " ++ p.text ++ ": " ++ reason
  | .noTree p => "parser produced no tree for " ++ p.text
  | .other _ reason => reason

end FrontEndError

/-- What can stop a step. -/
inductive Failure where
  | file (path : Path) (cause : FileError)
  | config (cause : ConfigError)
  | frontEnd (cause : FrontEndError)
  | serialization (reason : String)
  deriving Repr, DecidableEq, Inhabited

/-- A text that spells no configuration is not an invalid one. -/
def Failure.message : Failure → String
  | .file path cause => "IO error on " ++ path.text ++ ": " ++ cause.message
  | .config .malformed => ConfigError.malformed.message
  | .config cause => "Invalid configuration: " ++ cause.message
  | .frontEnd cause => "Front end error in " ++ cause.path.text ++ ": " ++ cause.reason
  | .serialization reason => "Serialization error: " ++ reason

end CudaToHip
