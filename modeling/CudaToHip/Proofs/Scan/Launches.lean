import CudaToHip.Proofs.Scan.Spelled
import CudaToHip.Proofs.Token.Blanked
import CudaToHip.Proofs.Replacement.Accepted

/-!
# Edits of a launch

The edits of a launch are parameters for the declarations of its kernel, one edit of the whole
launch, and those nested edits that lie in none of its arguments (`mem_edits`). In a launch that was
found in a tree no edit is left over this way: the arguments of the configuration and the named
nodes among the arguments in parentheses take in all text that is edited
(`LaunchAt.isInner_of_config`, `LaunchAt.isInner_of_arguments`).
-/

namespace CudaToHip

open CudaToHip.Tree

namespace LaunchRule

variable {spelling : LaunchSpelling} {l : Launch} {nested : List Edit} {e : Edit}

/-- The nested edit lies inside an argument. -/
def isInner (l : Launch) (e : Edit) : Bool := l.argSpans.any (·.contains e.span)

/-- The edit of the launch itself. -/
def launchEdit (spelling : LaunchSpelling) (l : Launch) (nested : List Edit) : Edit :=
  ⟨l.span, render spelling l.callee l.configArgs l.launchArgs (nested.filter (isInner l)),
    .kernelLaunch⟩

/-- **The edits of a launch**: of declarations, of the launch itself, or left over. -/
theorem mem_edits (h : e ∈ edits spelling l nested) :
    (∃ params ∈ l.paramLists, e = parameterEdit spelling params) ∨
      e = launchEdit spelling l nested ∨ (e ∈ nested ∧ isInner l e = false) := by
  unfold edits at h
  rw [List.partition_eq_filter_filter] at h
  rcases List.mem_append.mp h with h | h
  · obtain ⟨params, hp, rfl⟩ := List.mem_map.mp h
    exact Or.inl ⟨params, hp, rfl⟩
  rcases List.mem_cons.mp h with rfl | h
  · exact Or.inr (Or.inl rfl)
  · obtain ⟨hmem, hout⟩ := List.mem_filter.mp h
    exact Or.inr (Or.inr ⟨hmem, by simpa [isInner] using hout⟩)

theorem isInner_of_mem {sp : Span} (hsp : sp ∈ l.argSpans) (h : sp.contains e.span = true) :
    isInner l e = true := List.any_eq_true.mpr ⟨sp, hsp, h⟩

end LaunchRule

namespace Constructs

variable {ctx : Context} {s f args a c : Site} {config : LaunchConfig}

theorem mem_configArgs {arg : Captured} (h : arg ∈ config.args) :
    ∃ type, .written arg type ∈ Context.configArgs config := by
  obtain ⟨i, hi, hget⟩ := List.getElem_of_mem h
  refine ⟨configTypes[i]?.getD "", List.mem_map.mpr ⟨i, ?_, ?_⟩⟩
  · rw [List.mem_range]
    omega
  · rw [List.getElem?_eq_getElem hi, hget]

/-- The arguments of the configuration are among the arguments of the launch. -/
theorem mem_argSpans_of_config {arg : Captured} (h : arg ∈ config.args) :
    arg.span ∈ (ctx.launchOf s f args config).argSpans := by
  obtain ⟨type, hmem⟩ := mem_configArgs h
  exact List.mem_append_left _ (List.mem_filterMap.mpr ⟨_, hmem, rfl⟩)

/-- So are the named nodes in the parentheses, comments left out. -/
theorem mem_argSpans_of_child (hc : c ∈ args.namedChildren) (hk : c.kind ≠ .comment) :
    c.span ∈ (ctx.launchOf s f args config).argSpans := by
  have hmem : c ∈ args.namedChildren.filter (·.kind ≠ .comment) :=
    List.mem_filter.mpr ⟨hc, decide_eq_true hk⟩
  exact List.mem_append_right _ (List.mem_map.mpr ⟨_, List.mem_map_of_mem hmem, rfl⟩)

/-- The parameter lists of a launch are those of kernels. -/
theorem exists_of_mem_paramLists {params : Captured}
    (h : params ∈ (ctx.launchOf s f args config).paramLists) :
    ∃ k ∈ ctx.kernels, params = k.params := by
  obtain ⟨k, hk, rfl⟩ := List.mem_map.mp h
  exact ⟨k, List.mem_of_mem_filter hk, rfl⟩

/-- A node with a meaning for the scan that stands strictly inside a node lies within one of its
named children, and this child is no comment. -/
theorem exists_namedChild (hs : Sound ctx s) (hsa : s.Reaches a) (hne : a ≠ s)
    (ha : a.kind.isKnown = true) (hcom : a.kind ≠ .comment) :
    ∃ c ∈ s.namedChildren, c.kind ≠ .comment ∧ c.Reaches a := by
  rcases hsa.eq_or_child with rfl | ⟨c, hc, hca⟩
  · exact absurd rfl hne
  · have hwf : WellFormed ctx c := hs c (.of_mem_children hc)
    have hnamed : c.node.label.named = true := by
      by_contra hanon
      obtain ⟨hunknown, hleaf⟩ := hwf.anonymous (by simpa using hanon)
      rw [hca.eq_of_leaf hleaf, hunknown] at ha
      cases ha
    have hcomment : c.kind ≠ .comment := by
      intro hk
      rw [hca.eq_of_leaf (hwf.tokens (by rw [hk]; rfl))] at hcom
      exact hcom hk
    exact ⟨c, List.mem_filter.mpr ⟨hc, hnamed⟩, hcomment, hca⟩

namespace LaunchAt

variable (h : LaunchAt ctx s f args config)
include h

theorem mem_function : f ∈ s.children := Site.mem_children_of_child? h.inFunction

theorem mem_arguments : args ∈ s.children := Site.mem_children_of_child? h.inArguments

theorem mem_launches : config ∈ ctx.neutral.launches := List.mem_of_find?_eq_some h.between

/-- The configuration stands between the function and the arguments. -/
theorem config_between :
    f.span.stop ≤ config.span.start ∧ config.span.stop ≤ args.span.start := by
  have hbetween : Span.contains ⟨f.span.stop, args.span.start⟩ config.span = true :=
    List.find?_some (p := fun l : LaunchConfig =>
      Span.contains ⟨f.span.stop, args.span.start⟩ l.span) h.between
  exact Span.contains_iff.mp hbetween

/-- A launch takes text: that of its configuration, at least. -/
theorem start_lt_stop (hs : Sound ctx s) (hn : ctx.neutral = neutralize ctx.source) :
    s.span.start < s.span.stop := by
  have hconfig : config.span.start < config.span.stop :=
    lt_of_mem_launches (hn ▸ h.mem_launches)
  have hin := h.config_between
  have hf := Span.contains_iff.mp (hs.self.inside f h.mem_function)
  have hargs := Span.contains_iff.mp (hs.self.inside args h.mem_arguments)
  have hfle := (hs f (.of_mem_children h.mem_function)).placed.le
  have hale := (hs args (.of_mem_children h.mem_arguments)).placed.le
  omega

/-- **No edit in a configuration is left over.** -/
theorem isInner_of_config {rules : Rules} {e : Edit} (hn : ctx.neutral = neutralize ctx.source)
    (he : e ∈ rules.editsForAll (ctx.ofConfig config)) :
    LaunchRule.isInner (ctx.launchOf s f args config) e = true := by
  have hargs := text?_of_mem_args (hn ▸ h.mem_launches)
  obtain ⟨arg, harg, hin⟩ := contains_of_mem_ofConfig hargs he
  exact LaunchRule.isInner_of_mem (mem_argSpans_of_config harg) hin

/-- **No edit of a site in the arguments is left over.** -/
theorem isInner_of_arguments {e : Edit} (hs : Sound ctx s) (hreach : args.Reaches a)
    (ha : a.kind.isKnown = true) (hcom : a.kind ≠ .comment) (he : e.span = a.span) :
    LaunchRule.isInner (ctx.launchOf s f args config) e = true := by
  have hsound : Sound ctx args := hs.of_reaches (.of_mem_children h.mem_arguments)
  have hlist : args.kind = .argumentList := hs.self.arguments h.isCall args h.inArguments
  have hne : a ≠ args := by
    rintro rfl
    rw [hlist] at ha
    cases ha
  obtain ⟨c, hc, hkc, hca⟩ := exists_namedChild hsound hreach hne ha hcom
  have hcsound : Sound ctx c :=
    hsound.of_reaches (.of_mem_children (Site.mem_children_of_mem_namedChildren hc))
  refine LaunchRule.isInner_of_mem (mem_argSpans_of_child hc hkc) ?_
  rw [he]
  exact Site.contains_of_reaches hcsound.placed hca

end LaunchAt

end Constructs

end CudaToHip
