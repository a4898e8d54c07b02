import CudaToHip.Config.Basic
import CudaToHip.Scan.Constructs
import CudaToHip.Scan.Directives
import CudaToHip.Scan.SyntaxErrors

/-!
# The front end for CUDA

A file is neutralized, parsed by a grammar of plain C++, and searched: first its directives, then
its tree. In a tolerant scan the tree is searched even if it has errors; in a strict one a file with
errors yields the matches of its directives only.

A file with a directive that cannot be read has no scan: the program breaks off (`breaksOff`).

The grammar itself is not part of this library: any function from neutralized text to trees will do.
-/

namespace CudaToHip

open CudaToHip.Tree

/-- A parser of neutralized text. -/
structure Grammar where
  parse? : String → Option Node

namespace CudaFrontEnd

/-- What a walk over a tree of the source needs to know. -/
def context (config : Config) (source : String) (tree : Node) : Constructs.Context :=
  let neutral := neutralize source
  { source, neutral
    kernels := KernelDecl.scan source neutral tree
    stem := config.sourceStem
    memberStem := config.builtinMemberStem }

/-- The scan of a source whose neutralized text has the given tree. -/
def scanTree (config : Config) (view : View) (source : String) (tree : Node) : Scan :=
  let diagnostics := SyntaxErrors.scan source tree
  let constructs :=
    if diagnostics.isEmpty || config.tolerant then
      Constructs.scan (context config source tree) view tree
    else []
  ⟨Directives.scan source tree ++ constructs, diagnostics⟩

/-- The diagnostic of a file that is too large to scan. -/
def oversized (size limit : Nat) : Diagnostic :=
  ⟨0, 0, "file is " ++ toString size ++ " bytes, larger than the " ++ toString limit ++
    " byte limit"⟩

/-- The scan of one file under one view. -/
def scan (grammar : Grammar) (config : Config) (file : SourceFile) (view : View) :
    Except Failure Scan :=
  let size := file.text.utf8ByteSize
  if size > config.maxFileSize then
    .ok (Scan.empty.withDiagnostic (oversized size config.maxFileSize))
  else
    match grammar.parse? (neutralize file.text).code with
    | none => .error (.frontEnd (.noTree file.path))
    | some tree => .ok (scanTree config view file.text tree)

/-- The scan of the file breaks off, under every view alike. -/
def breaksOff (grammar : Grammar) (config : Config) (file : SourceFile) : Bool :=
  file.text.utf8ByteSize ≤ config.maxFileSize &&
    (grammar.parse? (neutralize file.text).code).any fun tree =>
      (Directives.scan? file.text tree).isNone

end CudaFrontEnd

/-- The front end that scans with a grammar under a configuration. -/
def CudaFrontEnd (grammar : Grammar) (config : Config) : FrontEnd where
  name := "tree-sitter-cuda"
  scan := CudaFrontEnd.scan grammar config

end CudaToHip
