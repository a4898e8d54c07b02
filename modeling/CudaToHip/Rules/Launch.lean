import CudaToHip.Config.Basic
import CudaToHip.Edit
import CudaToHip.Match
import CudaToHip.Text.Blank

/-!
# The launch rule

A launch `k<<<grid, block>>>(a, b)` becomes one call of the launch function, with the kernel's name
wrapped, the configuration spelled out and the arguments behind it; every declaration of the kernel
gets one more parameter in front. Edits that belong inside an argument are worked into the call.
-/

namespace CudaToHip.LaunchRule

/-- The edits inside an argument applied to its text, counted from byte `cursor` of it. An edit that
an earlier one leaves no room for is dropped. -/
def spliceFrom (arg : Captured) (cursor : Nat) : List Edit → String
  | [] => (Text.slice? arg.text cursor arg.text.utf8ByteSize).getD ""
  | e :: es =>
    let start := e.span.start - arg.span.start
    let stop := e.span.stop - arg.span.start
    match Text.slice? arg.text cursor start, Text.slice? arg.text start stop with
    | some kept, some _ => kept ++ e.newText ++ spliceFrom arg stop es
    | _, _ => spliceFrom arg cursor es

/-- The text of an argument with the edits inside it applied; of two that overlap the first wins. -/
def splice (arg : Captured) (edits : List Edit) : String :=
  let inside := edits.filter (arg.span.contains ·.span)
  if inside.isEmpty then arg.text
  else spliceFrom arg 0 (inside.mergeSort fun a b => (compare a.span b.span).isLE)

/-- A configuration argument in the call: an extent is wrapped in its type, a default is zero. -/
def renderConfigArg (spelling : LaunchSpelling) (edits : List Edit) : ConfigArg → String
  | .written arg declaredType =>
    if declaredType = spelling.extentType then
      spelling.extentType ++ "(" ++ splice arg edits ++ ")"
    else splice arg edits
  | .defaulted => "0"

/-- The call that takes the place of a launch. -/
def render (spelling : LaunchSpelling) (callee : String) (configArgs : List ConfigArg)
    (launchArgs : List Captured) (edits : List Edit) : String :=
  let args :=
    (spelling.kernelNameWrapper ++ "(" ++ callee ++ ")") ::
      configArgs.map (renderConfigArg spelling edits) ++ launchArgs.map (splice · edits)
  spelling.launchFunction ++ "(" ++ String.intercalate ", " args ++ ")"

/-- A parameter list that declares no parameter. -/
def isVacant (params : String) : Bool :=
  let list := Text.trim params
  list.isEmpty || list = ['v', 'o', 'i', 'd']

/-- The extra parameter of one declaration. It takes the place of a vacant list; before other
parameters it is inserted, since their types may have edits of their own. -/
def parameterEdit (spelling : LaunchSpelling) (params : Captured) : Edit :=
  if isVacant params.text then ⟨params.span, spelling.extraParameter, .kernelParameters⟩
  else
    ⟨.ofLength params.span.start 0, spelling.extraParameter ++ ", ", .kernelParameters⟩

/-- The edits of a launch: those of the declarations, that of the launch itself with the `nested`
edits that lie inside an argument, and then the other nested edits. -/
def edits (spelling : LaunchSpelling) (l : Launch) (nested : List Edit) : List Edit :=
  let (inner, outer) :=
    nested.partition fun e => l.argSpans.any (·.contains e.span)
  l.paramLists.map (parameterEdit spelling) ++
    ⟨l.span, render spelling l.callee l.configArgs l.launchArgs inner, .kernelLaunch⟩ :: outer

end CudaToHip.LaunchRule
