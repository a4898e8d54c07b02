import CudaToHip.Neutralized
import CudaToHip.Scan.Basic
import CudaToHip.Tree.Site

/-!
# Execution spaces

Where the body of a function runs is said by the qualifiers written before its declarator. They are
blanked before parsing, so they are found by position: between the end of what precedes the function
and the start of its declarator.
-/

namespace CudaToHip

open CudaToHip.Tree

/-- Where a function body runs. -/
inductive ExecSpace where
  | host
  | device
  | kernel
  | hostDevice
  deriving Repr, DecidableEq, Inhabited

namespace ExecSpace

/-- A kernel qualifier decides alone; otherwise those of host and device together do. -/
def ofQualifiers (qs : List Qualifier) : ExecSpace :=
  if qs.contains .global then .kernel
  else if qs.contains .device then
    if qs.contains .host then .hostDevice else .device
  else .host

/-- Bodies in this space are analysed under the view. -/
def visibleIn : ExecSpace → View → Bool
  | .hostDevice, _ => true
  | .host, v => v = .hostOnly
  | .device, v | .kernel, v => v = .deviceOnly

/-- The execution space of a function or declaration. -/
def ofSite (neutral : Neutralized) (s : Site) : ExecSpace :=
  let stop := ((s.child? .declarator).map (·.span.start)).getD s.span.start
  if stop < s.lead then .host
  else ofQualifiers (neutral.qualifiersIn ⟨s.lead, stop⟩)

end ExecSpace

end CudaToHip
