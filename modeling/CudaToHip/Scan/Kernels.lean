import CudaToHip.Scan.ExecSpace

/-!
# Kernel declarations

Every definition and prototype of a kernel, with the text of its parameter list. A launch of the
kernel gives each of these lists one more parameter.
-/

namespace CudaToHip

open CudaToHip.Tree

namespace Tree

/-- The function declarator of a definition or prototype, seen through pointer and reference
declarators. -/
def Site.throughPointers? (s : Site) : Option Site :=
  match s.kind with
  | .functionDeclarator => some s
  | .pointerDeclarator | .referenceDeclarator =>
    match _h : (s.child? .declarator).or s.namedChildren.getLast? with
    | some t => throughPointers? t
    | none => none
  | _ => none
termination_by sizeOf s.node
decreasing_by
  rcases Option.or_eq_some_iff.mp _h with h | ⟨_, h⟩
  · exact Site.below_of_child? h
  · exact Site.below_of_mem_namedChildren (List.mem_of_getLast? h)

def Site.functionDeclarator? (s : Site) : Option Site :=
  (s.child? .declarator).bind Site.throughPointers?

theorem Site.below_or_eq_of_throughPointers? {s t : Site} (h : s.throughPointers? = some t) :
    t.Below s ∨ t = s := by
  fun_induction Site.throughPointers? s with
  | case1 s => exact Or.inr (Option.some.inj h).symm
  | case2 s _ u hu ih | case4 s _ u hu ih =>
    have hus : u.Below s := by
      rcases Option.or_eq_some_iff.mp hu with h | ⟨_, h⟩
      · exact Site.below_of_child? h
      · exact Site.below_of_mem_namedChildren (List.mem_of_getLast? h)
    rcases ih h with h | rfl
    · exact Or.inl (h.trans hus)
    · exact Or.inl hus
  | case3 | case5 | case6 => exact absurd h (by simp)

theorem Site.below_of_functionDeclarator? {s t : Site} (h : s.functionDeclarator? = some t) :
    t.Below s := by
  obtain ⟨u, hu, ht⟩ := Option.bind_eq_some_iff.mp h
  rcases below_or_eq_of_throughPointers? ht with h | rfl
  · exact h.trans (below_of_child? hu)
  · exact below_of_child? hu

/-- The first child in a role. -/
def Node.child? (n : Node) (f : Field) : Option Node := n.children.find? (·.hasField f)

/-- The name of a function or declarator, without qualification and template arguments. -/
def Node.baseName (source : String) (n : Node) : String :=
  match n.kind with
  | .qualifiedIdentifier | .templateFunction =>
    match _h : n.child? .name with
    | some c => baseName source c
    | none => n.text source
  | _ => n.text source
termination_by sizeOf n
decreasing_by exact Node.sizeOf_lt_of_mem_children (List.mem_of_find?_eq_some _h)

end Tree

/-- A declaration of a kernel. -/
structure KernelDecl where
  name : String
  params : Captured
  deriving Repr, DecidableEq, Inhabited

namespace KernelDecl

/-- A definition or a declaration; kernels are not looked for inside of it. -/
def isDeclaration (s : Site) : Bool :=
  match s.kind with
  | .functionDefinition | .declaration | .fieldDeclaration => true
  | _ => false

/-- The text between the parentheses of a parameter list, comments at its ends left out; with no
parameters, the empty text behind the opening parenthesis. -/
def paramsOf (source : String) (params : Site) : Captured :=
  let named := params.namedChildren.filter (·.kind ≠ .comment)
  let span : Span :=
    match named.head?, named.getLast? with
    | some first, some last => ⟨first.span.start, last.span.stop⟩
    | _, _ => .ofLength (params.span.start + 1) 0
  ⟨span, (span.text? source).getD ""⟩

/-- The kernel that a definition or declaration declares. -/
def ofSite? (source : String) (neutral : Neutralized) (s : Site) : Option KernelDecl := do
  let declarator ← s.functionDeclarator?
  guard (ExecSpace.ofSite neutral s = .kernel)
  let name ← declarator.child? .declarator
  let params ← declarator.child? .parameters
  return ⟨name.node.baseName source, paramsOf source params⟩

/-- All kernel declarations of a tree, in order. -/
def scan (source : String) (neutral : Neutralized) (tree : Node) : List KernelDecl :=
  ((Site.root tree).outermost isDeclaration).filterMap (ofSite? source neutral)

end KernelDecl

end CudaToHip
