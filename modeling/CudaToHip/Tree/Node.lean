import CudaToHip.Span
import CudaToHip.Tree.Kind

/-!
# Syntax trees

A tree is a node with its subtrees. `Node.ofPreorder?` builds a tree from the list of its nodes in
preorder, each with the number of its children, which is how trees travel.
-/

namespace CudaToHip.Tree

/-- What a tree says about one of its nodes. -/
structure Label where
  kind : Kind
  /-- The role in which the node stands in its parent. -/
  field : Option Field
  named : Bool
  /-- Text that fits no rule of the grammar. -/
  isError : Bool
  /-- A token that the parser put in where the grammar needs one. -/
  isMissing : Bool
  /-- The parser had trouble here or below. -/
  hasError : Bool
  span : Span
  deriving Repr, DecidableEq, Inhabited

/-- A tree. -/
inductive Node where
  | mk (label : Label) (children : List Node)
  deriving Repr, Inhabited

namespace Node

def label : Node → Label
  | .mk l _ => l

def children : Node → List Node
  | .mk _ cs => cs

def kind (n : Node) : Kind := n.label.kind

def span (n : Node) : Span := n.label.span

/-- The node stands in its parent in the given role. -/
def hasField (n : Node) (f : Field) : Bool := n.label.field = some f

/-- The text of a node; nothing if its span splits a character. -/
def text (source : String) (n : Node) : String := (n.span.text? source).getD ""

theorem sizeOf_lt_of_mem_children {n c : Node} (h : c ∈ n.children) : sizeOf c < sizeOf n := by
  cases n with
  | mk l cs =>
    have := List.sizeOf_lt_of_mem h
    simp only [children, Node.mk.sizeOf_spec] at this ⊢
    omega

/-- One node of a preorder list, with the number of its children. -/
structure Row where
  label : Label
  childCount : Nat
  deriving Repr, DecidableEq

/-- The finished trees behind a row, with the row's own tree in front: it takes as many of them as
it has children. -/
def pushRow (row : Row) (done : List Node) : List Node :=
  .mk row.label (done.take row.childCount) :: done.drop row.childCount

/-- The tree whose nodes in preorder are the rows, if they make a single tree. -/
def ofPreorder? (rows : List Row) : Option Node :=
  match rows.foldr pushRow [] with
  | [root] => some root
  | _ => none

end Node

end CudaToHip.Tree
