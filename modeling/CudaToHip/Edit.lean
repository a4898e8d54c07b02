import CudaToHip.Span
import CudaToHip.Text.Quoted

/-!
# Edits

An edit replaces one span of a text by a new text and remembers which rule asked for it.
-/

namespace CudaToHip

/-- The rule that produced an edit. -/
inductive EditOrigin where
  | callRename
  /-- The extra leading parameter of a kernel's declaration. -/
  | kernelParameters
  | kernelLaunch
  | builtinAccess
  | typeRename
  | stringLiteral
  | inclusion
  | macroIdentifier
  deriving Repr, DecidableEq, Inhabited

/-- The short name used in reports. -/
def EditOrigin.label : EditOrigin → String
  | .callRename => "call-rename"
  | .kernelParameters => "kernel-parameters"
  | .kernelLaunch => "kernel-launch"
  | .builtinAccess => "builtin-access"
  | .typeRename => "type-rename"
  | .stringLiteral => "string-literal"
  | .inclusion => "include"
  | .macroIdentifier => "macro-identifier"

/-- Replacement of one span by a new text. -/
structure Edit where
  span : Span
  newText : String
  origin : EditOrigin
  deriving Repr, DecidableEq, Inhabited

/-- An insertion removes nothing. -/
def Edit.isInsertion (e : Edit) : Bool := e.span.isEmpty

instance : ToString Edit :=
  ⟨fun e => "[" ++ e.origin.label ++ "] " ++ toString e.span ++ " -> " ++ Text.quoted e.newText⟩

end CudaToHip
