import CudaToHip.Json.Basic
import CudaToHip.Scan.CudaFrontEnd

/-!
# Trees as JSON

The grammar is an outside program, so trees come as documents: the list of all nodes in preorder,
each as `[kind, field, flags, start, stop, children]`, where `field` may be null and `flags` is a
sum of one for a named node, two for an error, four for a node put in by the parser, and eight for
trouble at or below the node.

`Grammar.ofTrees` is the grammar that knows the trees of some texts and no others, and
`Grammar.ofJson?` reads such a grammar from an object whose keys are the texts.
-/

namespace CudaToHip.Tree

/-- The label with the given flags. -/
def Label.ofFlags (kind : String) (field : Option String) (flags start stop : Nat) : Label where
  kind := .ofName kind
  field := field.map .ofName
  named := flags.testBit 0
  isError := flags.testBit 1
  isMissing := flags.testBit 2
  hasError := flags.testBit 3
  span := ⟨start, stop⟩

/-- A role: null for none. -/
def fieldOfJson? : Json → Option (Option String)
  | .null => some none
  | j => j.text?.map some

/-- One node of the list. -/
def Node.Row.ofJson? : Json → Option Node.Row
  | .array [kind, field, flags, start, stop, count] => do
    let label := Label.ofFlags (← kind.text?) (← fieldOfJson? field) (← flags.natural?)
      (← start.natural?) (← stop.natural?)
    return ⟨label, ← count.natural?⟩
  | _ => none

/-- The tree of a list of nodes. -/
def Node.ofJson? : Json → Option Node
  | .array rows => do Node.ofPreorder? (← rows.mapM Node.Row.ofJson?)
  | _ => none

end CudaToHip.Tree

namespace CudaToHip

/-- The grammar that knows the trees of the given texts. -/
def Grammar.ofTrees (trees : List (String × Tree.Node)) : Grammar :=
  let known := trees.map fun (source, tree) => ((neutralize source).code, tree)
  ⟨fun code => known.lookup code⟩

/-- The grammar of an object from texts to their trees. -/
def Grammar.ofJson? (j : Json) : Option Grammar := do
  return .ofTrees (← (← j.fields?).mapM fun (source, tree) => do
    return (source, ← Tree.Node.ofJson? tree))

end CudaToHip
