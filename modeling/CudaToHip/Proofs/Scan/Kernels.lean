import CudaToHip.Proofs.Scan.Walk

/-!
# Parameters of kernels

The text of a kernel's parameter list (`KernelDecl.paramsOf`) takes in every parameter and stands
inside the declaration of the kernel, behind its qualifier (`ParamsAt`). So the extra parameters of
two kernels never meet (`agree_of_parameters`). An edit that exchanges text elsewhere in the tree
agrees with an extra parameter (`agree_of_parameter_of_touches`), provided that it does not begin
within a list that reads as empty: such a list is exchanged as a whole.
-/

namespace CudaToHip

open CudaToHip.Tree ReplacementSet Constructs

variable {ctx : Context} {s a c params : Site} {k : KernelDecl}

/-- The edit exchanges text inside the site `a` of the tree, which holds no kernel. -/
structure Touches (ctx : Context) (r a : Site) (e : Edit) : Prop where
  reach : r.Reaches a
  kind : a.kind.isExchanged = true
  pure : ∀ t, a.Reaches t → ctx.declaresKernel t = false
  inside : a.span.contains e.span = true
  lt : e.span.start < e.span.stop

namespace ExecSpace

theorem global_of_ofQualifiers {qs : List Qualifier} (h : ofQualifiers qs = .kernel) :
    .global ∈ qs := by
  unfold ofQualifiers at h
  split at h
  · rename_i hg
    simpa using hg
  · split at h
    · split at h <;> cases h
    · cases h

/-- A kernel has its qualifier in front of its declarator. -/
theorem exists_of_kernel {neutral : Neutralized} (h : ofSite neutral s = .kernel)
    (hc : s.child? .declarator = some c) :
    ∃ q ∈ neutral.qualifiers, q.kind = .global ∧ s.lead ≤ q.span.start ∧
      q.span.stop ≤ c.span.start := by
  unfold ofSite at h
  rw [hc] at h
  dsimp only [Option.map_some, Option.getD_some] at h
  split at h
  · cases h
  · obtain ⟨q, hq, hkind⟩ := List.mem_map.mp (global_of_ofQualifiers h)
    obtain ⟨hmem, hin⟩ := List.mem_filter.mp hq
    have hin := Span.contains_iff.mp hin
    exact ⟨q, hmem, hkind, hin.1, hin.2⟩

/-- The text in front of a kernel begins before its declarator does. -/
theorem lead_lt_of_kernel {source : String} (h : ofSite (neutralize source) s = .kernel)
    (hc : s.child? .declarator = some c) : s.lead < c.span.start := by
  obtain ⟨q, hq, hglobal, hlead, hstop⟩ := exists_of_kernel h hc
  have hlt : q.span.start < q.span.stop := lt_of_mem_qualifiers hq hglobal
  omega

end ExecSpace

namespace Tree.Site

/-- Of sites in order, the first starts first and the last ends last. -/
theorem between_of_pairwise {sites : List Site} {first last : Site}
    (hle : ∀ c ∈ sites, c.span.start ≤ c.span.stop) (hp : sites.Pairwise Precedes)
    (hf : sites.head? = some first) (hl : sites.getLast? = some last) (hc : c ∈ sites) :
    first.span.start ≤ c.span.start ∧ c.span.stop ≤ last.span.stop := by
  constructor
  · obtain ⟨rest, rfl⟩ := List.head?_eq_some_iff.mp hf
    have hfirst := hle first List.mem_cons_self
    rcases List.mem_cons.mp hc with rfl | hc
    · exact Nat.le_refl _
    · exact Nat.le_trans hfirst ((List.pairwise_cons.mp hp).1 c hc)
  · obtain ⟨front, rfl⟩ := List.getLast?_eq_some_iff.mp hl
    have hlast := hle last (List.mem_append_right _ List.mem_cons_self)
    rcases List.mem_append.mp hc with hc | hc
    · have hcl : Precedes c last :=
        (List.pairwise_append.mp hp).2.2 c hc last List.mem_cons_self
      exact Nat.le_trans hcl hlast
    · obtain rfl := List.mem_singleton.mp hc
      exact Nat.le_refl _

end Tree.Site

namespace KernelDecl

/-! ## The text of a parameter list -/

/-- The parameters of a list. -/
def named (params : Site) : List Site := params.namedChildren.filter (·.kind ≠ .comment)

theorem mem_children_of_mem_named (h : c ∈ named params) : c ∈ params.children :=
  Site.mem_children_of_mem_namedChildren (List.mem_of_mem_filter h)

theorem pairwise_named (hs : Sound ctx params) : (named params).Pairwise Site.Precedes :=
  hs.self.ordered.sublist (List.filter_sublist.trans List.filter_sublist)

theorem le_of_mem_named (hs : Sound ctx params) : ∀ c ∈ named params, c.span.start ≤ c.span.stop :=
  fun c hc => (hs c (.of_mem_children (mem_children_of_mem_named hc))).placed.le

/-- From the first parameter to the last. -/
theorem span_paramsOf {source : String} {first last : Site}
    (hf : (named params).head? = some first) (hl : (named params).getLast? = some last) :
    (paramsOf source params).span = ⟨first.span.start, last.span.stop⟩ := by
  unfold named at hf hl
  unfold paramsOf
  dsimp only
  rw [hf, hl]

/-- Without parameters, right behind the parenthesis. -/
theorem span_paramsOf_of_none {source : String} (h : (named params).head? = none) :
    (paramsOf source params).span = .ofLength (params.span.start + 1) 0 := by
  unfold named at h
  unfold paramsOf
  dsimp only
  rw [h]

/-- The text between the parentheses lies inside of them and takes in every parameter. -/
theorem contains_paramsOf (hs : Sound ctx params) (hk : params.kind = .parameterList) :
    (paramsOf ctx.source params).span.start ≤ (paramsOf ctx.source params).span.stop ∧
    params.span.contains (paramsOf ctx.source params).span = true ∧
    ∀ c ∈ named params, (paramsOf ctx.source params).span.contains c.span = true := by
  cases hn : named params with
  | nil =>
    rw [span_paramsOf_of_none (by rw [hn]; rfl)]
    -- the list is opened by a parenthesis
    have hopen := hs.self.parenthesis hk
    have hlt : params.span.start < params.span.stop := by
      refine hs.self.start_lt_stop fun h0 => ?_
      rw [h0] at hopen
      cases hopen
    refine ⟨Nat.le_refl _, Span.contains_iff.mpr ⟨?_, ?_⟩,
      fun c hc => absurd hc List.not_mem_nil⟩
    · exact Nat.le_succ _
    · exact hlt
  | cons first rest =>
    obtain ⟨last, hlast⟩ : ∃ last, (first :: rest).getLast? = some last :=
      ⟨_, List.getLast?_eq_some_getLast (List.cons_ne_nil first rest)⟩
    rw [span_paramsOf (by rw [hn]; rfl) (by rw [hn, hlast])]
    have hbetween {c : Site} (hc : c ∈ first :: rest) :=
      Site.between_of_pairwise (hn ▸ le_of_mem_named hs) (hn ▸ pairwise_named hs)
        (List.head?_cons) hlast hc
    have hmem {c : Site} (hc : c ∈ first :: rest) : c ∈ params.children :=
      mem_children_of_mem_named (hn ▸ hc)
    have hfirst : first ∈ first :: rest := List.mem_cons_self
    have hlast' : last ∈ first :: rest := List.mem_of_getLast? hlast
    have hin := Span.contains_iff.mp (hs.self.inside first (hmem hfirst))
    have hin' := Span.contains_iff.mp (hs.self.inside last (hmem hlast'))
    have hle := le_of_mem_named hs first (hn ▸ hfirst)
    refine ⟨?_, Span.contains_iff.mpr ⟨hin.1, hin'.2⟩, fun c hc => ?_⟩
    · exact Nat.le_trans hle (hbetween hfirst).2
    · exact Span.contains_iff.mpr (hbetween hc)

/-! ## Where the parameters of a kernel stand -/

/-- The site `s` of the tree declares the kernel `k`, whose parameters are those of `params`. -/
structure ParamsAt (ctx : Context) (s params : Site) (k : KernelDecl) : Prop where
  reach : s.Reaches params
  declares : ctx.declaresKernel s = true
  text : k.params = paramsOf ctx.source params
  list : params.kind = .parameterList
  /-- Only declarators stand between. -/
  up : ∀ n ∈ params.up, n ∈ s.up ∨ n.kind.isExchanged = false
  /-- The qualifier stands in front of the parameters. -/
  lead : s.lead < params.span.start

theorem isExchanged_of_isDeclaration (h : isDeclaration s = true) :
    s.kind.isExchanged = false := by
  unfold isDeclaration at h
  cases hk : s.kind <;> rw [hk] at h <;> first | rfl | cases h

/-- The site declares the kernel `name` with the parameters `list`: it has a function declarator,
seen through pointers and references, it runs as a kernel, and its name without qualification and
template arguments is `name`. -/
inductive Declares (source : String) (neutral : Neutralized) (s : Site) :
    String → Captured → Prop
  | intro {d name params : Site} : s.functionDeclarator? = some d →
      ExecSpace.ofSite neutral s = .kernel → d.child? .declarator = some name →
      d.child? .parameters = some params →
      Declares source neutral s (name.node.baseName source) (paramsOf source params)

theorem ofSite?_eq_some_iff {source : String} {neutral : Neutralized} :
    ofSite? source neutral s = some k ↔ Declares source neutral s k.name k.params := by
  constructor
  · intro h
    unfold ofSite? at h
    obtain ⟨d, hd, h⟩ := Option.bind_eq_some_iff.mp h
    obtain ⟨_, hkernel, h⟩ := Option.bind_eq_some_iff.mp h
    obtain ⟨name, hname, h⟩ := Option.bind_eq_some_iff.mp h
    obtain ⟨params, hparams, hk⟩ := Option.bind_eq_some_iff.mp h
    obtain rfl := Option.some.inj hk
    have hspace : ExecSpace.ofSite neutral s = .kernel := by
      by_contra hne
      rw [guard, if_neg hne] at hkernel
      cases hkernel
    exact .intro hd hspace hname hparams
  · obtain ⟨name, list⟩ := k
    rintro ⟨hd, hspace, hname, hparams⟩
    rw [ofSite?, hd, Option.bind_eq_bind, Option.bind_some, hspace, guard, if_pos rfl, hname,
      hparams]
    rfl

/-- Where the parameters of a kernel come from. -/
theorem params_of_ofSite? {source : String} {neutral : Neutralized}
    (h : ofSite? source neutral s = some k) :
    ∃ d params, s.functionDeclarator? = some d ∧ ExecSpace.ofSite neutral s = .kernel ∧
      d.child? .parameters = some params ∧ k.params = paramsOf source params := by
  obtain ⟨name, list⟩ := k
  cases ofSite?_eq_some_iff.mp h with
  | intro hd hspace _ hparams => exact ⟨_, _, hd, hspace, hparams, rfl⟩

theorem exists_of_ofSite? (hs : Sound ctx s) (hn : ctx.neutral = neutralize ctx.source)
    (hd : isDeclaration s = true) (h : ofSite? ctx.source ctx.neutral s = some k) :
    ∃ params, ParamsAt ctx s params k := by
  have hdeclares : ctx.declaresKernel s = true := by
    unfold Context.declaresKernel
    rw [hd, h]
    rfl
  obtain ⟨d, params, hdecl, hspace, hparams, hk⟩ := params_of_ofSite? h
  obtain ⟨c, hc, hchild, hcd, hdk, hup⟩ := Site.exists_of_functionDeclarator? hdecl
  have hp : params ∈ d.children := Site.mem_children_of_child? hparams
  have hcp : c.Reaches params := hcd.child hp
  have hsc : s.Reaches c := .of_mem_children hc
  have hlead : s.lead < c.span.start := ExecSpace.lead_lt_of_kernel (hn ▸ hspace) hchild
  have hin := Span.contains_iff.mp
    (Site.contains_of_reaches (hs.of_reaches hsc).placed hcp)
  have hsk : s.node.kind.isExchanged = false := isExchanged_of_isDeclaration hd
  refine ⟨params, ⟨hcp.trans hsc, hdeclares, ?_, ?_, fun n hnup => ?_, by omega⟩⟩
  · exact hk
  · exact (hs d (hcd.trans hsc)).parameters hdk params hparams
  · rw [Site.up_of_mem_children hp] at hnup
    rcases List.mem_cons.mp hnup with rfl | hnup
    · have hkind : d.kind.isExchanged = false := by rw [hdk]; rfl
      exact Or.inr hkind
    · rcases hup n hnup with hnup | hnk | hnk
      · rw [Site.up_of_mem_children hc] at hnup
        rcases List.mem_cons.mp hnup with rfl | hnup
        · exact Or.inr hsk
        · exact Or.inl hnup
      · exact Or.inr (by rw [hnk]; rfl)
      · exact Or.inr (by rw [hnk]; rfl)

/-- Every kernel of a tree is declared by one of the outermost declarations. -/
theorem exists_of_mem_scan {tree : Node} (hs : Sound ctx (.root tree))
    (hn : ctx.neutral = neutralize ctx.source) (hk : k ∈ scan ctx.source ctx.neutral tree) :
    ∃ s ∈ (Site.root tree).outermost isDeclaration,
      ofSite? ctx.source ctx.neutral s = some k ∧ ∃ params, ParamsAt ctx s params k := by
  obtain ⟨s, hs', hk⟩ := List.mem_filterMap.mp hk
  obtain ⟨hreach, hd⟩ := Site.of_mem_outermost hs'
  exact ⟨s, hs', hk, exists_of_ofSite? (hs.of_reaches hreach) hn hd hk⟩

/-! ## Edits of parameter lists -/

variable {spelling : LaunchSpelling} {e : Edit}

/-- The edit of a parameter list starts with the list and stays inside of it. -/
theorem span_parameterEdit {list : Captured} (hle : list.span.start ≤ list.span.stop) :
    (LaunchRule.parameterEdit spelling list).span.start = list.span.start ∧
    list.span.contains (LaunchRule.parameterEdit spelling list).span = true ∧
    (LaunchRule.parameterEdit spelling list).span.start ≤
      (LaunchRule.parameterEdit spelling list).span.stop := by
  unfold LaunchRule.parameterEdit
  split
  · exact ⟨rfl, Span.contains_self _, hle⟩
  · exact ⟨rfl, Span.contains_iff.mpr ⟨Nat.le_refl _, hle⟩, Nat.le_refl _⟩

namespace ParamsAt

variable (h : ParamsAt ctx s params k)
include h

theorem span_params (hs : Sound ctx s) : k.params.span.start ≤ k.params.span.stop ∧
    params.span.contains k.params.span = true ∧
    ∀ c ∈ named params, k.params.span.contains c.span = true :=
  h.text ▸ contains_paramsOf (hs.of_reaches h.reach) h.list

/-- The edit stays inside the parentheses of the list. -/
theorem contains_parameterEdit (hs : Sound ctx s) (spelling : LaunchSpelling) :
    params.span.contains (LaunchRule.parameterEdit spelling k.params).span = true := by
  obtain ⟨hle, hin, -⟩ := h.span_params hs
  exact Span.contains_trans hin (span_parameterEdit hle).2.1

theorem parameterEdit_le (hs : Sound ctx s) (spelling : LaunchSpelling) :
    (LaunchRule.parameterEdit spelling k.params).span.start ≤
      (LaunchRule.parameterEdit spelling k.params).span.stop :=
  (span_parameterEdit (h.span_params hs).1).2.2

/-- The edit stands in the declaration, behind the qualifier. -/
theorem parameterEdit_within (hs : Sound ctx s) (spelling : LaunchSpelling) :
    s.lead < (LaunchRule.parameterEdit spelling k.params).span.start ∧
      s.span.contains (LaunchRule.parameterEdit spelling k.params).span = true := by
  have hin := h.contains_parameterEdit hs spelling
  have hlist := Site.contains_of_reaches hs.placed h.reach
  exact ⟨Nat.lt_of_lt_of_le h.lead (Span.contains_iff.mp hin).1, Span.contains_trans hlist hin⟩

end ParamsAt

variable {tree : Node} {k₁ k₂ : KernelDecl}

/-- **The extra parameters of kernels agree.** -/
theorem agree_of_parameters (hs : Sound ctx (.root tree))
    (hn : ctx.neutral = neutralize ctx.source) (h₁ : k₁ ∈ scan ctx.source ctx.neutral tree)
    (h₂ : k₂ ∈ scan ctx.source ctx.neutral tree) :
    Agree (LaunchRule.parameterEdit spelling k₁.params)
      (LaunchRule.parameterEdit spelling k₂.params) := by
  obtain ⟨s, hs₁, hk₁, params₁, hp₁⟩ := exists_of_mem_scan hs hn h₁
  obtain ⟨t, ht₂, hk₂, params₂, hp₂⟩ := exists_of_mem_scan hs hn h₂
  have hss := hs.of_reaches (Site.of_mem_outermost hs₁).1
  have hst := hs.of_reaches (Site.of_mem_outermost ht₂).1
  obtain ⟨hlead₁, hin₁⟩ := hp₁.parameterEdit_within hss spelling
  obtain ⟨hlead₂, hin₂⟩ := hp₂.parameterEdit_within hst spelling
  have hle₁ := hp₁.parameterEdit_le hss spelling
  have hle₂ := hp₂.parameterEdit_le hst spelling
  rw [Span.contains_iff] at hin₁ hin₂
  rcases Site.eq_or_before_of_mem_outermost hs.placed hs₁ ht₂ with rfl | hbefore | hbefore
  · obtain rfl := Option.some.inj (hk₁.symm.trans hk₂)
    exact Agree.refl _
  · have hstop := hbefore.1
    exact agree_of_lt hle₁ hle₂ (by omega)
  · have hstop := hbefore.1
    exact (agree_of_lt hle₂ hle₁ (by omega)).symm

/-- An edit inside one of the parameters agrees with the extra parameter in front of them. -/
theorem agree_of_inside {list : Captured} (hlt : e.span.start < e.span.stop)
    (hin : list.span.contains e.span = true)
    (hvacant : LaunchRule.isVacant list.text = true →
      e.span.start < list.span.start ∨ list.span.stop ≤ e.span.start) :
    Agree (LaunchRule.parameterEdit spelling list) e := by
  rw [Span.contains_iff] at hin
  have hfull : ¬ LaunchRule.isVacant list.text = true := by
    intro hv
    have hout := hvacant hv
    omega
  unfold LaunchRule.parameterEdit
  rw [if_neg hfull]
  exact (agree_of_apart hlt (Nat.le_refl _) (Or.inr hin.1)).symm

namespace ParamsAt

variable (h : ParamsAt ctx s params k)
include h

theorem ne_of_isExchanged (hka : a.kind.isExchanged = true) : a ≠ params := by
  rintro rfl
  rw [h.list] at hka
  cases hka

/-- Between the declaration and its parameters nothing is exchanged. -/
theorem not_reaches (hreach : (Site.root tree).Reaches s) (hsa : s.Reaches a)
    (hka : a.kind.isExchanged = true) : ¬ a.Reaches params := by
  intro hap
  rcases hap.eq_or_child with heq | ⟨c, hc, hcp⟩
  · exact h.ne_of_isExchanged hka heq.symm
  · rcases h.up a.node (Site.node_mem_up hc hcp) with hup | hkind
    · have hlt := Site.sizeOf_lt_of_mem_up hreach hup
      have hle := Site.sizeOf_le_of_reaches hsa
      omega
    · have hkind' : a.kind.isExchanged = false := hkind
      rw [hkind'] at hka
      cases hka

/-- What is exchanged within the list is exchanged within its text. -/
theorem contains_of_reaches (hs : Sound ctx s) (hpa : params.Reaches a)
    (hka : a.kind.isExchanged = true) : k.params.span.contains a.span = true := by
  have hsp := hs.of_reaches h.reach
  obtain ⟨c, hc, hcom, hca⟩ := exists_namedChild hsp hpa (h.ne_of_isExchanged hka)
    (Kind.isKnown_of_isExchanged hka) (Kind.ne_comment_of_isExchanged hka)
  have hcn : c ∈ named params := List.mem_filter.mpr ⟨hc, decide_eq_true hcom⟩
  have hsc := hsp.of_reaches (.of_mem_children (mem_children_of_mem_named hcn))
  exact Span.contains_trans ((h.span_params hs).2.2 c hcn)
    (Site.contains_of_reaches hsc.placed hca)

end ParamsAt

/-- **An edit elsewhere in the tree agrees with an extra parameter**, if it does not begin in a list
that reads as empty. -/
theorem agree_of_parameter_of_touches (hs : Sound ctx (.root tree))
    (hn : ctx.neutral = neutralize ctx.source) (hk : k ∈ scan ctx.source ctx.neutral tree)
    (ht : Touches ctx (.root tree) a e)
    (hvacant : LaunchRule.isVacant k.params.text = true →
      e.span.start < k.params.span.start ∨ k.params.span.stop ≤ e.span.start) :
    Agree (LaunchRule.parameterEdit spelling k.params) e := by
  obtain ⟨s, hmem, -, params, hp⟩ := exists_of_mem_scan hs hn hk
  have hreach := (Site.of_mem_outermost hmem).1
  have hss := hs.of_reaches hreach
  -- text apart from the site of the edit
  have hapart {b : Site}
      (hb : b.span.contains (LaunchRule.parameterEdit spelling k.params).span = true)
      (hab : a.span.Apart b.span) : Agree (LaunchRule.parameterEdit spelling k.params) e :=
    (agree_of_apart ht.lt (hp.parameterEdit_le hss spelling) (hab.mono ht.inside hb)).symm
  rcases Site.reaches_or_apart hs.placed ht.reach hreach with has | hsa | hab
  · -- the site would hold the kernel
    have hpure := ht.pure s has
    rw [hp.declares] at hpure
    cases hpure
  · rcases Site.reaches_or_apart hss.placed hsa hp.reach with hap | hpa | hab
    · exact absurd hap (hp.not_reaches hreach hsa ht.kind)
    · have hin := Span.contains_trans (hp.contains_of_reaches hss hpa ht.kind) ht.inside
      exact agree_of_inside ht.lt hin hvacant
    · exact hapart (hp.contains_parameterEdit hss spelling) hab
  · exact hapart (hp.parameterEdit_within hss spelling).2 hab

end KernelDecl

end CudaToHip
