import CudaToHip.Proofs.Text.Boundary
import CudaToHip.Proofs.Tree.Reaches
import CudaToHip.Rules.Launch
import CudaToHip.Scan.CudaFrontEnd

/-!
# Trees that a scan can rely on

`WellFormed` is what the grammar promises about every node of the trees it makes; the scan does not
check any of it. `Regular` adds what is asked of the source: nothing but expressions stands in a
launch, and nothing is found where a kernel has no parameters.

Both are decidable (`regular_iff`), so a tree at hand can be checked.
-/

namespace CudaToHip

open CudaToHip.Tree

namespace Tree.Kind

/-- Include directives and macro definitions. -/
def isDirective : Kind → Bool
  | .includeDirective | .defineDirective | .functionDefineDirective => true
  | _ => false

/-- String literals. -/
def isLiteral : Kind → Bool
  | .stringLiteral | .rawStringLiteral => true
  | _ => false

/-- Names and comments, which are single tokens. -/
def isToken : Kind → Bool
  | .identifier | .typeIdentifier | .comment => true
  | _ => false

/-- The kind has a constructor of its own, and so a meaning for the scan. -/
def isKnown : Kind → Bool
  | .other _ => false
  | _ => true

/-- Names of types, and the bodies of types defined in place. -/
def isTypePart : Kind → Bool
  | .typeIdentifier | .fieldList | .enumeratorList => true
  | _ => false

/-- The kinds of nodes whose text is exchanged, alone or with what stands in it. -/
def isExchanged : Kind → Bool
  | .identifier | .typeIdentifier | .stringLiteral | .rawStringLiteral | .fieldExpression
  | .callExpression | .includeDirective | .defineDirective | .functionDefineDirective => true
  | _ => false

theorem isKnown_of_isExchanged {k : Kind} (h : k.isExchanged = true) : k.isKnown = true := by
  cases k <;> first | rfl | cases h

theorem ne_comment_of_isExchanged {k : Kind} (h : k.isExchanged = true) : k ≠ .comment := by
  rintro rfl
  cases h

def parameterList : Kind := .other "parameter_list"

def argumentList : Kind := .other "argument_list"

end Tree.Kind

namespace Constructs.Context

variable (ctx : Context)

/-- The site is a member access that reads as a coordinate. -/
def readsCoordinate (s : Site) : Bool := s.kind = .fieldExpression && (ctx.coordinate? s).isSome

/-- The site is a call with a launch configuration in front of its arguments. -/
def isLaunch (s : Site) : Bool :=
  s.kind = .callExpression &&
    match s.child? .function, s.child? .arguments with
    | some f, some a => (ctx.neutral.launchIn? ⟨f.span.stop, a.span.start⟩).isSome
    | _, _ => false

/-- The site declares a kernel. -/
def declaresKernel (s : Site) : Bool :=
  KernelDecl.isDeclaration s && (KernelDecl.ofSite? ctx.source ctx.neutral s).isSome

end Constructs.Context

/-- What the C++ grammar promises about a node. -/
structure WellFormed (ctx : Constructs.Context) (s : Site) : Prop where
  boundaries : (s.span.text? ctx.source).isSome
  inside : ∀ c ∈ s.children, s.span.contains c.span = true
  ordered : s.children.Pairwise Site.Precedes
  /-- Nodes that the grammar does not name are its literal tokens. -/
  anonymous : s.node.label.named = false → s.kind.isKnown = false ∧ s.node.children = []
  /-- Names and comments are tokens too, though named. -/
  tokens : s.kind.isToken = true → s.node.children = []
  /-- A literal and a coordinate are read as one piece. -/
  pieces : s.kind.isLiteral = true ∨ ctx.readsCoordinate s = true → ∀ t, s.Reaches t →
    t.kind.isDirective = false ∧ KernelDecl.isDeclaration t = false
  /-- A directive is text to the grammar: no declaration and no type is recognized in it. -/
  directives : s.kind.isDirective = true → ∀ t, s.Reaches t →
    t.kind.isTypePart = false ∧ KernelDecl.isDeclaration t = false
  /-- The initializers of a constructor have no role in its definition. -/
  initializers : s.kind = .initializerList → s.node.label.field = none
  /-- The arguments of a call and the parameters of a function stand in lists of their own. -/
  arguments : s.kind = .callExpression → ∀ a, s.child? .arguments = some a →
    a.kind = .argumentList
  parameters : s.kind = .functionDeclarator → ∀ p, s.child? .parameters = some p →
    p.kind = .parameterList
  parenthesis : s.kind = .parameterList → (s.node.text ctx.source).toList.head? = some '('

/-- Where a match was found. -/
def Match.offset : Match → Nat
  | .call _ loc | .builtin _ _ loc | .typeRef _ loc _ => loc.effective
  | .launch l _ => l.span.start
  | .stringLiteral _ span | .inclusion _ _ span _ | .macroIdentifier _ _ span _ => span.start

namespace CudaFrontEnd

/-- A well-formed tree with nothing but expressions in its launches, where no match is reported
inside a parameter list that reads as empty. -/
structure Regular (config : Config) (source : String) (tree : Node) : Prop where
  wellFormed : ∀ s, (Site.root tree).Reaches s → WellFormed (context config source tree) s
  launches : ∀ s, (Site.root tree).Reaches s → (context config source tree).isLaunch s = true →
    ∀ t, s.Reaches t → t.kind.isDirective = false ∧ t.kind ≠ .functionDefinition ∧
      (context config source tree).declaresKernel t = false
  vacant : ∀ view, ∀ k ∈ (context config source tree).kernels,
    LaunchRule.isVacant k.params.text = true →
      ∀ m ∈ (scanTree config view source tree).found,
        m.offset < k.params.span.start ∨ k.params.span.stop ≤ m.offset

end CudaFrontEnd

/-! ## Checking a tree -/

theorem wellFormed_iff {ctx : Constructs.Context} {s : Site} : WellFormed ctx s ↔
    (s.span.text? ctx.source).isSome ∧
    (∀ c ∈ s.children, s.span.contains c.span = true) ∧
    s.children.Pairwise Site.Precedes ∧
    (s.node.label.named = false → s.kind.isKnown = false ∧ s.node.children.isEmpty = true) ∧
    (s.kind.isToken = true → s.node.children.isEmpty = true) ∧
    (s.kind.isLiteral = true ∨ ctx.readsCoordinate s = true → ∀ t, s.Reaches t →
      t.kind.isDirective = false ∧ KernelDecl.isDeclaration t = false) ∧
    (s.kind.isDirective = true → ∀ t, s.Reaches t →
      t.kind.isTypePart = false ∧ KernelDecl.isDeclaration t = false) ∧
    (s.kind = .initializerList → s.node.label.field = none) ∧
    (s.kind = .callExpression → ∀ a ∈ s.child? .arguments, a.kind = .argumentList) ∧
    (s.kind = .functionDeclarator → ∀ p ∈ s.child? .parameters, p.kind = .parameterList) ∧
    (s.kind = .parameterList → (s.node.text ctx.source).toList.head? = some '(') := by
  simp only [List.isEmpty_iff]
  constructor
  · intro h
    exact ⟨h.boundaries, h.inside, h.ordered, h.anonymous, h.tokens, h.pieces, h.directives,
      h.initializers, h.arguments, h.parameters, h.parenthesis⟩
  · rintro ⟨h₁, h₂, h₃, h₄, h₅, h₆, h₇, h₈, h₉, h₁₀, h₁₁⟩
    exact ⟨h₁, h₂, h₃, h₄, h₅, h₆, h₇, h₈, h₉, h₁₀, h₁₁⟩

instance (ctx : Constructs.Context) (s : Site) : Decidable (WellFormed ctx s) :=
  decidable_of_iff' _ wellFormed_iff

namespace CudaFrontEnd

/-- **Regularity can be checked**, site by site and view by view. -/
theorem regular_iff {config : Config} {source : String} {tree : Node} :
    Regular config source tree ↔
      (∀ s, (Site.root tree).Reaches s → WellFormed (context config source tree) s) ∧
      (∀ s, (Site.root tree).Reaches s → (context config source tree).isLaunch s = true →
        ∀ t, s.Reaches t → t.kind.isDirective = false ∧ t.kind ≠ .functionDefinition ∧
          (context config source tree).declaresKernel t = false) ∧
      ∀ view ∈ View.passOrder, ∀ k ∈ (context config source tree).kernels,
        LaunchRule.isVacant k.params.text = true →
          ∀ m ∈ (scanTree config view source tree).found,
            m.offset < k.params.span.start ∨ k.params.span.stop ≤ m.offset := by
  have hview (view : View) : view ∈ View.passOrder := by
    cases view <;> decide
  constructor
  · intro h
    exact ⟨h.wellFormed, h.launches, fun view _ => h.vacant view⟩
  · rintro ⟨hwf, hlaunches, hvacant⟩
    exact ⟨hwf, hlaunches, fun view => hvacant view (hview view)⟩

instance (config : Config) (source : String) (tree : Node) :
    Decidable (Regular config source tree) :=
  decidable_of_iff' _ regular_iff

end CudaFrontEnd

/-! ## Consequences for single nodes -/

namespace WellFormed

variable {ctx : Constructs.Context} {s : Site}

theorem placed (h : WellFormed ctx s) : s.Placed where
  le := (Text.slice?_isSome_iff.mp h.boundaries).1
  inside := h.inside
  ordered := h.ordered

/-- The text of a node fills its span. -/
theorem stop_eq (h : WellFormed ctx s) :
    s.span.stop = s.span.start + (s.node.text ctx.source).utf8ByteSize := by
  obtain ⟨t, ht⟩ := Option.isSome_iff_exists.mp h.boundaries
  have htext : s.node.text ctx.source = t := by
    show (s.span.text? ctx.source).getD "" = t
    rw [ht, Option.getD_some]
  rw [htext]
  exact Text.utf8ByteSize_of_slice? ht

/-- A span that begins where a node does and has the length of its text is that of the node. -/
theorem ofLength_eq (h : WellFormed ctx s) :
    Span.ofLength s.span.start (s.node.text ctx.source).utf8ByteSize = s.span := by
  rw [Span.ofLength, ← h.stop_eq]

theorem start_lt_stop (h : WellFormed ctx s) (hne : s.node.text ctx.source ≠ "") :
    s.span.start < s.span.stop := by
  have hstop := h.stop_eq
  have hsize : (s.node.text ctx.source).utf8ByteSize ≠ 0 :=
    fun h0 => hne (String.utf8ByteSize_eq_zero_iff.mp h0)
  omega

end WellFormed

end CudaToHip
