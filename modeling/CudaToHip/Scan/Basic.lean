import CudaToHip.Failure
import CudaToHip.Match

/-!
# Scans

A front end scans a source file under one compilation view and reports the matches it found and the
problems it met. The same source compiles twice, for the host and for the device: bodies of kernels
mean something in the device view only, launches in the host view only.
-/

namespace CudaToHip

/-- The half of a compilation that a scan sees. -/
inductive View where
  | hostOnly
  | deviceOnly
  deriving Repr, DecidableEq, Inhabited

def View.label : View → String
  | .hostOnly => "host-only"
  | .deviceOnly => "device-only"

/-- The order in which views are scanned and their edits are taken up. -/
def View.passOrder : List View := [.hostOnly, .deviceOnly]

/-- A file with the text that all spans refer to. -/
structure SourceFile where
  path : Path
  text : String
  deriving Repr, DecidableEq, Inhabited

/-- A problem met while scanning, with line and column counted from one. -/
structure Diagnostic where
  line : Nat
  column : Nat
  message : String
  deriving Repr, DecidableEq, Inhabited

instance : ToString Diagnostic :=
  ⟨fun d => toString d.line ++ ":" ++ toString d.column ++ ": " ++ d.message⟩

/-- What a scan found. If there are diagnostics the scan failed on the way, and the matches are
those recognized nonetheless. -/
structure Scan where
  found : List Match
  diagnostics : List Diagnostic
  deriving Repr, Inhabited

namespace Scan

/-- A scan that found nothing. -/
def empty : Scan := ⟨[], []⟩

def withDiagnostic (s : Scan) (d : Diagnostic) : Scan :=
  { s with diagnostics := s.diagnostics ++ [d] }

def failed (s : Scan) : Bool := !s.diagnostics.isEmpty

end Scan

/-- Something that scans files. It fails only where no scan could be attempted at all. -/
structure FrontEnd where
  name : String
  scan : SourceFile → View → Except Failure Scan

end CudaToHip
