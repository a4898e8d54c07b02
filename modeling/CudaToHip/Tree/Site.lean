import CudaToHip.Tree.Node

/-!
# Places in a tree

A site is a node together with what stands around it: its preceding siblings and its ancestors. A
walk over a tree goes from site to site, so that at any node it can look back at what was written
before it.

`outermost p` collects, in order, the sites with `p` that have no site with `p` above them. Walks
that only look for certain nodes are all of this form.

`Site.Below`: a site found from another one by going down has a smaller tree.
-/

namespace CudaToHip.Tree

/-- A node of a tree with its surroundings. -/
structure Site where
  node : Node
  /-- The preceding siblings, nearest first. -/
  left : List Node
  /-- The ancestors, nearest first. -/
  up : List Node
  deriving Repr, Inhabited

namespace Site

/-- The site of a whole tree. -/
def root (n : Node) : Site := ⟨n, [], []⟩

def kind (s : Site) : Kind := s.node.kind

def span (s : Site) : Span := s.node.span

/-- Where the text that stands before a node and may belong to it begins: after the preceding
sibling, or else where the parent begins. The root begins at its first token only, so before the
first of its children the text counts from the start. -/
def lead (s : Site) : Nat :=
  match s.left, s.up with
  | sibling :: _, _ => sibling.span.stop
  | [], parent :: _ :: _ => parent.span.start
  | [], _ => 0

/-- The sites of consecutive siblings. -/
def siblings (up : List Node) (left : List Node) : List Node → List Site
  | [] => []
  | c :: cs => ⟨c, left, up⟩ :: siblings up (c :: left) cs

def children (s : Site) : List Site := siblings (s.node :: s.up) [] s.node.children

/-- The children that the grammar names, without its literal tokens. -/
def namedChildren (s : Site) : List Site := s.children.filter (·.node.label.named)

/-- All children in a role. -/
def childrenIn (s : Site) (f : Field) : List Site := s.children.filter (·.node.hasField f)

/-- The first child in a role. -/
def child? (s : Site) (f : Field) : Option Site := s.children.find? (·.node.hasField f)

/-- The site is the first child of its parent in the given role. -/
def isFirstIn (s : Site) (f : Field) : Bool :=
  s.node.hasField f && !s.left.any (·.hasField f)

/-- The first site has a smaller tree than the second. -/
def Below (t s : Site) : Prop := sizeOf t.node < sizeOf s.node

theorem Below.trans {t u s : Site} (h₁ : Below t u) (h₂ : Below u s) : Below t s :=
  Nat.lt_trans h₁ h₂

theorem node_mem_of_mem_siblings {up left cs : List Node} {t : Site}
    (h : t ∈ siblings up left cs) : t.node ∈ cs := by
  induction cs generalizing left with
  | nil => simp [siblings] at h
  | cons c cs ih =>
    simp only [siblings, List.mem_cons] at h ⊢
    rcases h with rfl | h
    · exact Or.inl rfl
    · exact Or.inr (ih h)

theorem below_of_mem_children {s t : Site} (h : t ∈ s.children) : Below t s :=
  Node.sizeOf_lt_of_mem_children (node_mem_of_mem_siblings h)

theorem below_of_mem_namedChildren {s t : Site} (h : t ∈ s.namedChildren) : Below t s :=
  below_of_mem_children ((List.mem_filter.mp h).1)

theorem below_of_mem_childrenIn {s t : Site} {f : Field} (h : t ∈ s.childrenIn f) : Below t s :=
  below_of_mem_children ((List.mem_filter.mp h).1)

theorem below_of_child? {s t : Site} {f : Field} (h : s.child? f = some t) : Below t s :=
  below_of_mem_children (List.mem_of_find?_eq_some h)

/-- The sites with `p` that no other site with `p` is above of, in order. -/
def outermost (p : Site → Bool) (s : Site) : List Site :=
  if p s then [s]
  else s.children.attach.flatMap fun ⟨t, _⟩ => outermost p t
termination_by sizeOf s.node
decreasing_by exact below_of_mem_children ‹_›

end Site

end CudaToHip.Tree
