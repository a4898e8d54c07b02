import CudaToHip.Proofs.Scan.Hiding

/-!
# The qualifiers of a function

Qualifiers are blanked before parsing, so those of a function are looked for in the text in front of
it, which begins behind the sibling before it (`Site.lead`). A comment is a sibling too: qualifiers
in front of a comment are not found. Passing over comments, the text begins at `Site.openLead`, and
its qualifiers say where the function was written to run (`ExecSpace.written`).

* `Site.openLead_le_lead`, `Site.lead_le_start`: what begins where.
* `ExecSpace.ofQualifiers_eq_iff`: when leaving out qualifiers makes no difference.
* `ExecSpace.runs_as_written`: views and kernels go by the qualifiers that are found; it is as if
  all of them were, unless a comment cuts off a qualifier that matters.
* `CudaFrontEnd.comment_cuts_qualifier`: in front of a comment, `__device__` is lost.
-/

namespace CudaToHip

open CudaToHip.Tree Constructs

/-! ## Text in front of a site -/

namespace Tree.Site

variable {s t c : Site}

/-- Where the text in front of a site begins if comments are passed over: after the nearest
preceding sibling that is none, or else as it does for a first child. -/
def openLead (s : Site) : Nat :=
  lead { s with left := s.left.dropWhile (·.kind = .comment) }

/-- Where the text in front of a function ends. -/
def declaratorStart (s : Site) : Nat :=
  ((s.child? .declarator).map (·.span.start)).getD s.span.start

/-- The children of a node are divided at each of them. -/
theorem exists_of_mem_siblings {up left cs : List Node} (h : c ∈ siblings up left cs) :
    ∃ front behind, cs = front ++ c.node :: behind ∧ c.left = front.reverse ++ left := by
  induction cs generalizing left with
  | nil => cases h
  | cons n ns ih =>
    rcases List.mem_cons.mp h with rfl | h
    · exact ⟨[], ns, rfl, rfl⟩
    · obtain ⟨front, behind, rfl, hleft⟩ := ih h
      refine ⟨n :: front, behind, rfl, ?_⟩
      rw [hleft, List.reverse_cons, List.append_assoc]
      rfl

theorem children_eq_append (h : c ∈ s.children) :
    ∃ behind, s.node.children = c.left.reverse ++ c.node :: behind := by
  obtain ⟨front, behind, hcs, hleft⟩ := exists_of_mem_siblings h
  rw [List.append_nil] at hleft
  exact ⟨behind, by rw [hleft, List.reverse_reverse, hcs]⟩

/-- The preceding siblings stand in front of a child, the nearest one last. -/
theorem left_of_mem_children (hs : s.Placed) (hc : ∀ c ∈ s.children, c.Placed)
    (h : c ∈ s.children) :
    (∀ n ∈ c.left, s.span.start ≤ n.span.start ∧ n.span.start ≤ n.span.stop ∧
      n.span.stop ≤ c.span.start) ∧
    c.left.Pairwise fun a b => b.span.stop ≤ a.span.start := by
  obtain ⟨behind, hcs⟩ := children_eq_append h
  have hnodes : s.children.map node = s.node.children := map_node_siblings _ _ _
  have hord : s.node.children.Pairwise fun a b => a.span.stop ≤ b.span.start :=
    hnodes ▸ List.pairwise_map.mpr hs.ordered
  rw [hcs] at hord
  obtain ⟨hleft, -, hbefore⟩ := List.pairwise_append.mp hord
  refine ⟨fun n hn => ?_, List.pairwise_reverse.mp hleft⟩
  have hn' : n ∈ c.left.reverse := List.mem_reverse.mpr hn
  have hmem : n ∈ s.children.map node := by
    rw [hnodes, hcs]
    exact List.mem_append_left _ hn'
  obtain ⟨d, hd, rfl⟩ := List.mem_map.mp hmem
  exact ⟨(Span.contains_iff.mp (hs.inside d hd)).1, (hc d hd).le,
    hbefore d.node hn' c.node List.mem_cons_self⟩

/-- Text in front of a first child begins where its parent does, or before. -/
theorem lead_of_left_nil (hleft : c.left = []) (h : c.up = s.node :: s.up) :
    c.lead ≤ s.span.start := by
  unfold lead
  rw [hleft, h]
  cases s.up with
  | nil => exact Nat.zero_le _
  | cons p ps => exact Nat.le_refl _

theorem lead_le_start (hs : s.Placed) (hc : ∀ c ∈ s.children, c.Placed) (h : c ∈ s.children) :
    c.lead ≤ c.span.start := by
  obtain ⟨hleft, -⟩ := left_of_mem_children hs hc h
  cases hl : c.left with
  | nil =>
    have hin := (Span.contains_iff.mp (hs.inside c h)).1
    exact Nat.le_trans (lead_of_left_nil hl (up_of_mem_children h)) hin
  | cons n ns =>
    unfold lead
    rw [hl]
    exact (hleft n (hl ▸ List.mem_cons_self)).2.2

/-- With comments passed over, the text in front of a site begins before or where it does. -/
theorem openLead_le_lead (hs : s.Placed) (hc : ∀ c ∈ s.children, c.Placed) (h : c ∈ s.children) :
    c.openLead ≤ c.lead := by
  obtain ⟨hleft, hord⟩ := left_of_mem_children hs hc h
  cases hl : c.left with
  | nil =>
    have hopen : ({ c with left := [] } : Site) = c := by rw [← hl]
    rw [openLead, hl, List.dropWhile_nil, hopen]
  | cons n ns =>
    have hlead : c.lead = n.span.stop := by
      rw [lead, hl]
    rw [hl] at hleft hord
    have hn := hleft n List.mem_cons_self
    rw [openLead, hl, hlead]
    cases hopen : (n :: ns).dropWhile (·.kind = .comment) with
    | nil =>
      have hup := up_of_mem_children h
      have hfirst := lead_of_left_nil (c := { c with left := [] }) rfl hup
      omega
    | cons m ms =>
      have hm : m ∈ n :: ns := (List.dropWhile_suffix _).subset (hopen ▸ List.mem_cons_self)
      show m.span.stop ≤ n.span.stop
      rcases List.mem_cons.mp hm with rfl | hm
      · exact Nat.le_refl _
      · have hmn := (List.pairwise_cons.mp hord).1 m hm
        omega

theorem start_le_declaratorStart (hs : s.Placed) : s.span.start ≤ s.declaratorStart := by
  unfold declaratorStart
  cases hd : s.child? .declarator with
  | none => exact Nat.le_refl _
  | some d => exact (Span.contains_iff.mp (hs.inside d (List.mem_of_find?_eq_some hd))).1

/-- In a tree, what is in front of a site begins in front of it, first with comments passed over. -/
theorem leads_of_reaches {tree : Node} (hplaced : ∀ u, (root tree).Reaches u → u.Placed)
    (h : (root tree).Reaches s) : s.openLead ≤ s.lead ∧ s.lead ≤ s.span.start := by
  cases h with
  | self => exact ⟨Nat.le_refl _, Nat.zero_le _⟩
  | @child t _ ht hc =>
    have hchildren : ∀ d ∈ t.children, d.Placed := fun d hd => hplaced d (ht.child hd)
    exact ⟨openLead_le_lead (hplaced t ht) hchildren hc, lead_le_start (hplaced t ht) hchildren hc⟩

end Tree.Site

/-! ## The space of a function -/

namespace ExecSpace

variable {qs rs : List Qualifier}

theorem ofQualifiers_eq_kernel : ofQualifiers qs = .kernel ↔ .global ∈ qs := by
  refine ⟨global_of_ofQualifiers, fun h => ?_⟩
  rw [ofQualifiers, if_pos (List.contains_iff_mem.mpr h)]

theorem ofQualifiers_of_not_global (h : .global ∉ qs) : ofQualifiers qs =
    if .device ∈ qs then if .host ∈ qs then .hostDevice else .device else .host := by
  simp only [ofQualifiers, List.contains_iff_mem, if_neg h]

/-- **What fewer qualifiers say** is the same if one of the kernel is still among them, and without
one in any case those of device and host are, as far as they matter. -/
theorem ofQualifiers_eq_iff (h : ∀ q ∈ qs, q ∈ rs) : ofQualifiers qs = ofQualifiers rs ↔
    (.global ∈ rs → .global ∈ qs) ∧
    (.global ∉ rs → .device ∈ rs → .device ∈ qs ∧ (.host ∈ rs → .host ∈ qs)) := by
  by_cases hglobal : .global ∈ rs
  · rw [ofQualifiers_eq_kernel.mpr hglobal, ofQualifiers_eq_kernel]
    simp [hglobal]
  · have hglobal' : .global ∉ qs := fun hq => hglobal (h _ hq)
    have hdevice := h .device
    have hhost := h .host
    rw [ofQualifiers_of_not_global hglobal, ofQualifiers_of_not_global hglobal']
    split_ifs <;> simp_all

variable {neutral : Neutralized} {s : Site}

/-- The space that a function is written to run in: its qualifiers are those that stand between
what precedes it, comments passed over, and its declarator. -/
def written (neutral : Neutralized) (s : Site) : ExecSpace :=
  ofQualifiers (neutral.qualifiersIn ⟨s.openLead, s.declaratorStart⟩)

/-- No qualifier of the function stands in front of a comment. -/
def Uncut (neutral : Neutralized) (s : Site) : Prop :=
  ∀ q ∈ neutral.qualifiers, s.openLead ≤ q.span.start → q.span.stop ≤ s.declaratorStart →
    s.lead ≤ q.span.start

instance (neutral : Neutralized) (s : Site) : Decidable (Uncut neutral s) :=
  inferInstanceAs (Decidable (∀ q ∈ neutral.qualifiers, _ → _ → _))

theorem ofSite_eq (h : s.lead ≤ s.declaratorStart) :
    ofSite neutral s = ofQualifiers (neutral.qualifiersIn ⟨s.lead, s.declaratorStart⟩) :=
  if_neg (Nat.not_lt.mpr h)

/-- Qualifiers that are found are found too if comments are passed over. -/
theorem qualifiersIn_subset (h : s.openLead ≤ s.lead) :
    ∀ q ∈ neutral.qualifiersIn ⟨s.lead, s.declaratorStart⟩,
      q ∈ neutral.qualifiersIn ⟨s.openLead, s.declaratorStart⟩ := by
  intro kind hkind
  obtain ⟨q, hq, rfl⟩ := List.mem_map.mp hkind
  obtain ⟨hmem, hin⟩ := List.mem_filter.mp hq
  have hin := Span.contains_iff.mp hin
  refine List.mem_map_of_mem (List.mem_filter.mpr ⟨hmem, Span.contains_iff.mpr ⟨?_, hin.2⟩⟩)
  exact Nat.le_trans h hin.1

/-- Without a comment behind a qualifier the same ones are found. -/
theorem Uncut.qualifiersIn_eq (h : Uncut neutral s) (hlead : s.openLead ≤ s.lead) :
    neutral.qualifiersIn ⟨s.lead, s.declaratorStart⟩ =
      neutral.qualifiersIn ⟨s.openLead, s.declaratorStart⟩ := by
  refine congrArg (List.map _) (List.filter_congr fun q hq => ?_)
  rw [Bool.eq_iff_iff, Span.contains_iff, Span.contains_iff]
  refine and_congr_left fun hstop => ⟨fun hstart => ?_, fun hstart => h q hq hstart hstop⟩
  exact Nat.le_trans hlead hstart

end ExecSpace

namespace KernelDecl

variable {s : Site} {source : String} {neutral : Neutralized}

/-- The site declares a function with a name and parameters. -/
def DeclaresFunction (s : Site) : Prop :=
  ∃ d, s.functionDeclarator? = some d ∧ (d.child? .declarator).isSome ∧
    (d.child? .parameters).isSome

/-- A function is a kernel by its space. -/
theorem isSome_ofSite? : (ofSite? source neutral s).isSome ↔
    DeclaresFunction s ∧ ExecSpace.ofSite neutral s = .kernel := by
  unfold ofSite? DeclaresFunction
  cases hd : s.functionDeclarator? with
  | none => simp
  | some d =>
    by_cases hspace : ExecSpace.ofSite neutral s = .kernel
    · cases hname : d.child? .declarator with
      | none => simp [hspace, hname]
      | some name => cases hparams : d.child? .parameters <;> simp [hspace, hname, hparams]
    · simp [hspace]

end KernelDecl

namespace CudaFrontEnd

variable {config : Config} {source : String} {tree : Node} {s : Site}

/-- **Where a function runs.** Views and kernels go by the qualifiers that stand between what
precedes a function, be it a comment, and its declarator. That is the space the function is written
to run in exactly if no qualifier that matters stands in front of a comment. -/
theorem runs_as_written (hplaced : ∀ u, (Site.root tree).Reaches u → u.Placed)
    (hs : (Site.root tree).Reaches s) :
    let ctx := context config source tree
    let space := ExecSpace.ofSite ctx.neutral s
    let found := ctx.neutral.qualifiersIn ⟨s.lead, s.declaratorStart⟩
    let all := ctx.neutral.qualifiersIn ⟨s.openLead, s.declaratorStart⟩
    (∀ mode space' t, .enter space' t ∈ ctx.steps mode s → space' = space) ∧
    ((KernelDecl.ofSite? source ctx.neutral s).isSome ↔
      KernelDecl.DeclaresFunction s ∧ space = .kernel) ∧
    (space = ExecSpace.written ctx.neutral s ↔
      (.global ∈ all → .global ∈ found) ∧
      (.global ∉ all → .device ∈ all → .device ∈ found ∧ (.host ∈ all → .host ∈ found))) ∧
    (ExecSpace.Uncut ctx.neutral s → space = ExecSpace.written ctx.neutral s) := by
  intro ctx space found all
  obtain ⟨hopen, hlead⟩ := Site.leads_of_reaches hplaced hs
  have hstop := Site.start_le_declaratorStart (hplaced s hs)
  have hspace : space = ExecSpace.ofQualifiers found := ExecSpace.ofSite_eq (by omega)
  refine ⟨fun mode space' t h => space_of_enter_mem h, KernelDecl.isSome_ofSite?, ?_,
    fun huncut => ?_⟩
  · rw [hspace]
    exact ExecSpace.ofQualifiers_eq_iff (ExecSpace.qualifiersIn_subset hopen)
  · rw [hspace]
    exact congrArg _ (huncut.qualifiersIn_eq hopen)

/-- The tree of a function `f` behind a comment that begins at a byte. -/
def commentTree (comment : Nat) : Node :=
  (Node.ofPreorder? [
    namedRow (.other "translation_unit") none comment 54 2,
    namedRow .comment none comment (comment + 10) 0,
    namedRow .functionDefinition none 22 53 3,
    namedRow (.other "primitive_type") (some .type) 22 25 0,
    namedRow .functionDeclarator (some .declarator) 26 29 2,
    namedRow .identifier (some .declarator) 26 27 0,
    namedRow .parameterList (some .parameters) 27 29 2, tokenRow "(" 27, tokenRow ")" 28,
    namedRow (.other "compound_statement") (some .body) 30 53 3, tokenRow "\x7b" 30,
    namedRow (.other "return_statement") none 32 51 3, wordRow "return" 32,
    namedRow .identifier none 39 50 0, tokenRow ";" 50,
    tokenRow "\x7d" 52]).getD default

/-- A comment in front of the qualifier makes no difference. -/
theorem runs_as_written_behind_comment :
    let source := "// comment\n__device__\nint f() \x7b return cudaSuccess; \x7d\n"
    let ctx := context .default source (commentTree 0)
    (∀ u, (Site.root (commentTree 0)).Reaches u → u.Placed) ∧
    ∃ s, (Site.root (commentTree 0)).Reaches s ∧ s.kind = .functionDefinition ∧
      ExecSpace.Uncut ctx.neutral s ∧ ExecSpace.written ctx.neutral s = .device ∧
      ExecSpace.ofSite ctx.neutral s = .device := by
  intro source ctx
  have hplaced : ∀ u, (Site.root (commentTree 0)).Reaches u → u.Placed := by
    have hwf : ∀ u, (Site.root (commentTree 0)).Reaches u → WellFormed ctx u := by decide +kernel
    exact fun u hu => (hwf u hu).placed
  have hsite : ∃ s ∈ (Site.root (commentTree 0)).all, s.kind = .functionDefinition ∧
      ExecSpace.Uncut ctx.neutral s ∧ ExecSpace.written ctx.neutral s = .device := by decide +kernel
  obtain ⟨s, hs, hkind, huncut, hwritten⟩ := hsite
  have hs := Site.mem_all.mp hs
  obtain ⟨-, -, -, hspace⟩ := runs_as_written hplaced hs
  exact ⟨hplaced, s, hs, hkind, huncut, hwritten, (hspace huncut).trans hwritten⟩

/-- **A comment cuts off the qualifier in front of it**: the tree is regular, the function is
written to run on the device and taken for one of the host, whose scan alone reports the name in
it. -/
theorem comment_cuts_qualifier :
    let source := "__device__\n// comment\nint f() \x7b return cudaSuccess; \x7d\n"
    let neutral := neutralize source
    Regular .default source (commentTree 11) ∧
    (∃ s, (Site.root (commentTree 11)).Reaches s ∧ s.kind = .functionDefinition ∧
      ExecSpace.written neutral s = .device ∧ ExecSpace.ofSite neutral s = .host) ∧
    ∀ view, (scanTree .default view source (commentTree 11)).found.map typeRefAt? =
      if view = .hostOnly then [some ("cudaSuccess", .direct 39, .enumConstant)] else [] := by
  intro source neutral
  refine ⟨by decide +kernel, ?_, ?_⟩
  · have hsite : ∃ s ∈ (Site.root (commentTree 11)).all, s.kind = .functionDefinition ∧
        ExecSpace.written neutral s = .device ∧ ExecSpace.ofSite neutral s = .host := by
      decide +kernel
    obtain ⟨s, hs, h⟩ := hsite
    exact ⟨s, Site.mem_all.mp hs, h⟩
  · have hviews : ∀ view ∈ View.passOrder,
        (scanTree .default view source (commentTree 11)).found.map typeRefAt? =
          if view = .hostOnly then [some ("cudaSuccess", .direct 39, .enumConstant)] else [] := by
      decide +kernel
    exact fun view => hviews view (by cases view <;> decide)

end CudaFrontEnd

end CudaToHip
