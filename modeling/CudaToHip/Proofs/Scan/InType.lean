import CudaToHip.Proofs.Scan.Shows
import CudaToHip.Proofs.Tree.Lineage

/-!
# Parts of types

A site is a part of a type (`InType`) if it stands in a type that is written somewhere, with nothing
in between that has a meaning of its own there. A walk looks at the parts of types as types and at
everything else in another mode.

* `Shows.exists_child`: what a site shows is a child, or further down with nothing but links
  (`Linked`) in between.
* `inType_iff_of_visits`: what a walk comes to as a type is what is a part of one.
-/

namespace CudaToHip

open CudaToHip.Tree

/-- What a walk passes over between a declaration and its parameters, or between a call and its
template arguments. -/
def Tree.Kind.isLink (k : Kind) : Bool :=
  k ∈ [.pointerDeclarator, .referenceDeclarator, .functionDeclarator, parameterList,
    .templateFunction, .qualifiedIdentifier]

namespace Constructs

variable {ctx : Context} {enters : ExecSpace → Bool} {r s t u c d : Site} {mode mode' : Mode}

/-- The site is a part of a type that is written somewhere. -/
def InType (r s : Site) : Prop := ∃ w t, r.Reaches w ∧ t ∈ w.types ∧ TypeIn t s

theorem TypeIn.trans (h : TypeIn s t) (hu : TypeIn t u) : TypeIn s u := by
  induction hu with
  | self => exact h
  | child _ hk hc ih => exact ih.child hk hc

theorem InType.typeIn (h : InType r t) (hu : TypeIn t u) : InType r u := by
  obtain ⟨w, x, hw, hx, hin⟩ := h
  exact ⟨w, x, hw, hx, hin.trans hu⟩

/-! ## What links lead to -/

/-- What lies between a part and a site further down that a walk goes on in. -/
inductive Linked (c : Site) : Site → Prop
  | self : Linked c c
  | child {t d : Site} : Linked c t → t.kind.isLink = true → d ∈ t.children → Linked c d

namespace Linked

theorem trans (h : Linked c t) (hd : Linked t d) : Linked c d := by
  induction hd with
  | self => exact h
  | child _ hk hd ih => exact ih.child hk hd

/-- Only links stand in front of the function declarator of a declarator. -/
theorem of_throughPointers? (h : c.throughPointers? = some d) :
    Linked c d ∧ d.kind = .functionDeclarator := by
  fun_induction Site.throughPointers? c with
  | case1 c hk =>
    obtain rfl := Option.some.inj h
    exact ⟨.self, hk⟩
  | case2 c hk e he ih | case4 c hk e he ih =>
    obtain ⟨hed, hkind⟩ := ih h
    exact ⟨(Linked.self.child (by rw [hk]; rfl) (Site.mem_children_of_pointee he)).trans hed, hkind⟩
  | case3 | case5 | case6 => cases h

/-- Only the list stands between a function declarator and its parameters. -/
theorem of_parameters {params : Site} (hd : WellFormed ctx d) (hk : d.kind = .functionDeclarator)
    (hparams : d.child? .parameters = some params) (ht : t ∈ params.namedChildren) :
    Linked params t := by
  refine Linked.self.child ?_ (Site.mem_children_of_mem_namedChildren ht)
  rw [hd.parameters hk params hparams]
  rfl

theorem reaches (h : Linked c t) : c.Reaches t := by
  induction h with
  | self => exact .self
  | child _ _ hd ih => exact ih.child hd

end Linked

/-- The walk looks at a type. -/
def Mode.isTypes : Mode → Bool
  | .types _ => true
  | _ => false

theorem not_mem_types_of_field {f : Field} (hc : c.node.label.field = some f) (hf : f ≠ .type)
    (hs : s.kind ≠ .typeDescriptor) : c ∉ s.types := by
  have hchild : c ∉ (s.child? .type).toList := fun h =>
    hf (Option.some.inj (hc.symm.trans (Site.field_of_child? (Option.mem_toList.mp h))))
  unfold Site.types
  split
  case h_6 hk => exact absurd hk hs
  case h_7 => exact List.not_mem_nil
  all_goals exact hchild

theorem types_of_isLink (h : s.kind.isLink = true) : s.types = [] ∧ s.kind.isTypePart = false := by
  have hk := of_decide_eq_true h
  simp only [List.mem_cons, List.not_mem_nil, or_false] at hk
  rcases hk with hk | hk | hk | hk | hk | hk <;> (unfold Site.types; rw [hk]; exact ⟨rfl, rfl⟩)

theorem types_of_passes (h : ctx.passes s = true) : s.types = [] := by
  unfold Site.types
  split
  case h_7 => rfl
  all_goals
    rename_i hk
    rw [Context.passes, hk] at h
    cases h

theorem types_of_isConditional (h : s.kind.isConditional = true) : s.types = [] := by
  unfold Site.types
  split
  case h_7 => rfl
  all_goals
    rename_i hk
    rw [hk] at h
    cases h

theorem of_mem_codeRoles {f : Field} (h : f ∈ s.codeRoles) :
    f ≠ .type ∧ s.kind ≠ .typeDescriptor := by
  unfold Site.codeRoles at h
  split at h
  case h_1 hk | h_2 hk =>
    split at h
    · cases h
    · obtain rfl := List.mem_singleton.mp h
      exact ⟨by decide, by rw [hk]; decide⟩
  case h_3 hk | h_4 hk | h_5 hk =>
    obtain rfl := List.mem_singleton.mp h
    exact ⟨by decide, by rw [hk]; decide⟩
  case h_6 hk =>
    refine ⟨?_, by rw [hk]; decide⟩
    rintro rfl
    revert h
    decide
  case h_7 => cases h

theorem mem_types_of_typeKind? {kind : TypeRefKind} (hkind : s.typeKind? = some kind)
    (ht : s.child? .type = some t) : t ∈ s.types := by
  unfold Site.typeKind? at hkind
  unfold Site.types
  split at hkind
  case h_6 => cases hkind
  all_goals
    rename_i hk
    rw [hk, ht]
    exact List.mem_singleton_self _

/-- The name of a called function that has parts. -/
theorem isLink_of_calleeName? {f name : Site} (hf : WellFormed ctx f)
    (hname : Context.calleeName? f = some name) (hc : c ∈ f.children) : f.kind.isLink = true := by
  unfold Context.calleeName? at hname
  split at hname
  case h_1 hk =>
    rw [Site.children, hf.tokens (by rw [hk]; rfl)] at hc
    cases hc
  case h_2 hk | h_3 hk =>
    rw [hk]
    rfl
  case h_4 => cases hname

/-- **A site shows a child of it**, or what links lead to from there. What is shown as a type is a
type written at the site or a part of it. -/
theorem Shows.exists_child (hs : Sound ctx s) (h : Shows ctx enters s mode mode' t) :
    ∃ c ∈ s.children, Linked c t ∧ (mode'.isTypes = true ↔
      c ∈ s.types ∨ mode.isTypes = true ∧ s.kind.isTypePart = false) := by
  have code {c : Site} (hm : mode.isTypes = false) (hm' : mode'.isTypes = false)
      (hc : c ∈ s.children) (htypes : c ∉ s.types) (hct : Linked c t) :
      ∃ c ∈ s.children, Linked c t ∧ (mode'.isTypes = true ↔
        c ∈ s.types ∨ mode.isTypes = true ∧ s.kind.isTypePart = false) :=
    ⟨c, hc, hct, by simp [hm, hm', htypes]⟩
  have child {c : Site} {f : Field} (hm : mode.isTypes = false) (hm' : mode'.isTypes = false)
      (hc : s.child? f = some c) (hf : f ≠ .type) (hk : s.kind ≠ .typeDescriptor)
      (hct : Linked c t) :=
    code hm hm' (Site.mem_children_of_child? hc)
      (not_mem_types_of_field (Site.field_of_child? hc) hf hk) hct
  cases h with
  | part hp ht => exact code rfl rfl ht (types_of_passes hp ▸ List.not_mem_nil) .self
  | guarded hk ht => exact code rfl rfl ht (types_of_isConditional hk ▸ List.not_mem_nil) .self
  | role hf ht =>
    obtain ⟨hne, hk⟩ := of_mem_codeRoles hf
    exact child rfl rfl ht hne hk .self
  | type hkind ht =>
    have htypes := mem_types_of_typeKind? hkind ht
    exact ⟨t, Site.mem_children_of_mem_types htypes, .self, by simp [Mode.isTypes, htypes]⟩
  | named hk ht => exact ⟨t, ht, .self, by simp [Mode.isTypes, Site.types, hk, ht]⟩
  | @parameter d params _ hdecl hd hparams ht =>
    obtain ⟨c, hc, hcd⟩ := Option.bind_eq_some_iff.mp hd
    obtain ⟨hlinked, hk⟩ := Linked.of_throughPointers? hcd
    have hdr : s.Reaches d :=
      hlinked.reaches.trans (.of_mem_children (Site.mem_children_of_child? hc))
    have hparameter := Linked.of_parameters (hs d hdr) hk hparams ht
    have hlist : Linked c params :=
      hlinked.child (by rw [hk]; rfl) (Site.mem_children_of_child? hparams)
    refine child rfl rfl hc (by decide) ?_ (hlist.trans hparameter)
    intro hkind
    rw [KernelDecl.isDeclaration, hkind] at hdecl
    cases hdecl
  | body hk henters ht => exact child rfl rfl ht (by decide) (by rw [hk]; decide) .self
  | initializers hk henters ht hinit =>
    refine code rfl rfl ht (fun htypes => ?_) .self
    have hfield := (hs t (.of_mem_children ht)).initializers hinit
    rw [Site.types, hk] at htypes
    have hchild := Site.field_of_child? (Option.mem_toList.mp htypes)
    rw [hfield] at hchild
    cases hchild
  | declarator hk hd ht =>
    obtain ⟨hmem, hfield⟩ := List.mem_filter.mp ht
    refine code rfl rfl hmem ?_ .self
    refine not_mem_types_of_field (of_decide_eq_true hfield) (by decide) fun hkind => ?_
    rw [hkind] at hk
    cases hk
  | callee hk hplain hf hargs hname => exact child rfl rfl hf (by decide) (by rw [hk]; decide) .self
  | @templateArguments f _ _ _ hk hplain hf hargs hname ht =>
    refine child rfl rfl hf (by decide) (by rw [hk]; decide) ?_
    have hmem := Site.mem_children_of_child? ht
    have hwf := hs f (.of_mem_children (Site.mem_children_of_child? hf))
    exact Linked.self.child (isLink_of_calleeName? hwf hname hmem) hmem
  | arguments hk hf hargs => exact child rfl rfl hargs (by decide) (by rw [hk]; decide) .self
  | bare hk hnone ht => exact code rfl rfl ht (by rw [Site.types, hk]; exact List.not_mem_nil) .self
  | typePart hpart ht => exact ⟨t, ht, .self, by simp [Mode.isTypes, hpart]⟩
  | member hk ht =>
    rcases hk with hk | hk <;>
      exact ⟨t, ht, .self, by simp [Mode.isTypes, Site.types, Kind.isTypePart, hk]⟩
  | inner hk ht =>
    refine child rfl rfl ht (by decide) ?_ .self
    rcases hk with hk | hk <;> rw [hk] <;> decide
  | value hk ht => exact child rfl rfl ht (by decide) (by rw [hk]; decide) .self
  | size hk ht => exact child rfl rfl ht (by decide) (by rw [hk]; decide) .self
  | wrapped hk ht =>
    refine code rfl rfl (Site.mem_children_of_mem_namedChildren ht) ?_ .self
    unfold Kind.isWrapper at hk
    unfold Site.types
    split at hk
    case h_5 => cases hk
    all_goals simp_all
  | innerParameter hk hparams ht =>
    exact child rfl rfl hparams (by decide) (by rw [hk]; decide)
      (Linked.of_parameters hs.self hk hparams ht)

/-! ## Types on the way down -/

section Line

variable (hr : Sound ctx r) (hu : u.span.start < u.span.stop)

include hr hu

/-- A child is a part of a type if it is written as one, or if its parent is and passes it on. -/
theorem inType_child_iff (hs : r.Reaches s) (hc : c ∈ s.children) (hcu : c.Reaches u) :
    InType r c ↔ c ∈ s.types ∨ InType r s ∧ s.kind.isTypePart = false := by
  constructor
  · rintro ⟨w, t, hw, ht, hin⟩
    have htr : r.Reaches t := hw.child (Site.mem_children_of_mem_types ht)
    cases hin with
    | self =>
      have hsw : s = w :=
        Site.eq_of_mem_children hr.placed hu hs hw hc (Site.mem_children_of_mem_types ht) hcu
      exact Or.inl (hsw ▸ ht)
    | @child p _ hin hpart hp =>
      have hsp : s = p := Site.eq_of_mem_children hr.placed hu hs (hin.reaches.trans htr) hc hp hcu
      rw [hsp]
      exact Or.inr ⟨⟨w, t, hw, ht, hin⟩, hpart⟩
  · rintro (h | ⟨⟨w, t, hw, ht, hin⟩, hpart⟩)
    · exact ⟨s, c, hs, h, .self⟩
    · exact ⟨w, t, hw, ht, hin.child hpart hc⟩

theorem inType_iff_of_linked (hc : r.Reaches c) (h : Linked c t) (htu : t.Reaches u) :
    InType r t ↔ InType r c := by
  induction h with
  | self => exact Iff.rfl
  | @child t d hct hk hd ih =>
    obtain ⟨htypes, hpart⟩ := types_of_isLink hk
    rw [inType_child_iff hr hu (hct.reaches.trans hc) hd htu,
      ← ih (htu.trans (.of_mem_children hd)), htypes]
    simp [hpart]

/-- **A walk looks at parts of types as types**, and at nothing else. -/
theorem inType_iff_of_visits (h : Visits ctx enters .code r mode t) (htu : t.Reaches u) :
    InType r t ↔ mode.isTypes = true := by
  induction h with
  | self =>
    refine iff_of_false ?_ (by decide)
    rintro ⟨w, t, hw, ht, hin⟩
    exact Site.not_reaches_of_mem_children (Site.mem_children_of_mem_types ht)
      (hw.trans hin.reaches)
  | @step mode mode' s t step hvisits hstep hnext ih =>
    obtain ⟨c, hc, hct, hmode⟩ := (shows_iff.mpr ⟨step, hstep, hnext⟩).exists_child
      (hr.of_reaches hvisits.reaches)
    have hcu := htu.trans hct.reaches
    rw [inType_iff_of_linked hr hu (hvisits.reaches.child hc) hct htu,
      inType_child_iff hr hu hvisits.reaches hc hcu, hmode,
      ih (hcu.trans (.of_mem_children hc))]

/-- On the way down, links come before what they lead to. -/
theorem Linked.isLink_or_reaches (h : Linked c t) (hc : r.Reaches c) (htu : t.Reaches u)
    (hcs : c.Reaches s) (hsu : s.Reaches u) : s.kind.isLink = true ∨ t.Reaches s := by
  induction h with
  | self => exact Or.inr hcs
  | @child t d hct hk hd ih =>
    rcases ih (htu.trans (.of_mem_children hd)) with hlink | hts
    · exact Or.inl hlink
    · have hrt := hct.reaches.trans hc
      rcases Site.reaches_of_mem_children hr.placed hu hrt hd htu hts hsu with rfl | hds
      · exact Or.inl hk
      · exact Or.inr hds

end Line

end Constructs

end CudaToHip
