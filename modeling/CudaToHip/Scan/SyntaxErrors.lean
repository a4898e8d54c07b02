import CudaToHip.Scan.Basic
import CudaToHip.Tree.Site

/-!
# Syntax errors

One diagnostic for each outermost node that is an error or was put in by the parser. The search goes
down only where the tree says that there was trouble.
-/

namespace CudaToHip.SyntaxErrors

open CudaToHip.Tree

/-- The node itself is an error or a token put in by the parser. -/
def isBad (s : Site) : Bool := s.node.label.isError || s.node.label.isMissing

/-- Nothing to look for below: the node is bad, or the tree reports no trouble below it. -/
def isSettled (s : Site) : Bool := isBad s || !s.node.label.hasError

/-- The diagnostic of a bad node, with its line and column counted from one. -/
def diagnostic (source : String) (s : Site) : Diagnostic :=
  let (line, column) := Text.lineAndColumn source s.span.start
  ⟨line + 1, column + 1,
    if s.node.label.isMissing then "missing \x60" ++ s.kind.name ++ "\x60" else "syntax error"⟩

/-- The diagnostics of a tree, in order. -/
def scan (source : String) (tree : Node) : List Diagnostic :=
  if tree.label.hasError then
    (((Site.root tree).outermost isSettled).filter isBad).map (diagnostic source)
  else []

end CudaToHip.SyntaxErrors
