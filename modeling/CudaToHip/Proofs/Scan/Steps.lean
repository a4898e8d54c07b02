import CudaToHip.Proofs.Scan.WellFormed
import Mathlib.Data.List.Forall2

/-!
# Steps of a walk do not meet

A step of a walk at a site reports a match that a site spells, or goes on at a site
(`Step.At`). The steps at one site are *laid out* (`Laid`): they are taken at sites below it whose
spans are pairwise apart, and no directive stands between. So what two different steps find never
shares text.

`doing_steps`: at a well-formed site a walk takes the one step of a launch, reports the match that
the site itself spells, or takes steps that are laid out.
-/

namespace CudaToHip

open CudaToHip.Tree

namespace Tree.Site

variable {s t u c : Site}

/-- The second site is reached from the first, and no directive stands between them. -/
def ClearTo (s t : Site) : Prop :=
  s.Reaches t ∧ ∀ n ∈ t.up, n ∈ s.up ∨ n.kind.isDirective = false

theorem ClearTo.self (s : Site) : s.ClearTo s := ⟨.self, fun _ h => Or.inl h⟩

theorem ClearTo.child (h : s.ClearTo t) (ht : t.kind.isDirective = false)
    (hc : c ∈ t.children) : s.ClearTo c := by
  refine ⟨h.1.child hc, fun n hn => ?_⟩
  rw [up_of_mem_children hc] at hn
  rcases List.mem_cons.mp hn with rfl | hn
  · exact Or.inr ht
  · exact h.2 n hn

theorem ClearTo.trans (hst : s.ClearTo t) (htu : t.ClearTo u) : s.ClearTo u := by
  refine ⟨htu.1.trans hst.1, fun n hn => ?_⟩
  rcases htu.2 n hn with hn | hn
  · exact hst.2 n hn
  · exact Or.inr hn

theorem mem_children_of_child? {f : Field} (h : s.child? f = some c) : c ∈ s.children :=
  List.mem_of_find?_eq_some h

theorem field_of_child? {f : Field} (h : s.child? f = some c) : c.node.label.field = some f := by
  have hf : c.node.hasField f = true := List.find?_some (p := fun c : Site => c.node.hasField f) h
  exact of_decide_eq_true hf

theorem mem_children_of_mem_namedChildren (h : c ∈ s.namedChildren) : c ∈ s.children :=
  (List.mem_filter.mp h).1

/-- What a pointer or reference declarator declares is a child of it. -/
theorem mem_children_of_pointee
    (h : (s.child? .declarator).or s.namedChildren.getLast? = some c) : c ∈ s.children := by
  rcases Option.or_eq_some_iff.mp h with h | ⟨_, h⟩
  · exact mem_children_of_child? h
  · exact mem_children_of_mem_namedChildren (List.mem_of_getLast? h)

/-- Only pointer and reference declarators stand above the function declarator of a declarator. -/
theorem reaches_of_throughPointers? (h : s.throughPointers? = some t) :
    s.Reaches t ∧ t.kind = .functionDeclarator ∧
      ∀ n ∈ t.up, n ∈ s.up ∨ n.kind = .pointerDeclarator ∨ n.kind = .referenceDeclarator := by
  fun_induction throughPointers? s with
  | case1 s hk =>
    obtain rfl := Option.some.inj h
    exact ⟨.self, hk, fun n hn => Or.inl hn⟩
  | case2 s hk u hu ih | case4 s hk u hu ih =>
    have hc := mem_children_of_pointee hu
    obtain ⟨hut, hkind, hup⟩ := ih h
    refine ⟨hut.trans (.of_mem_children hc), hkind, fun n hn => ?_⟩
    rcases hup n hn with hn | hn
    · rw [up_of_mem_children hc] at hn
      rcases List.mem_cons.mp hn with rfl | hn
      · exact Or.inr (by first | exact Or.inl hk | exact Or.inr hk)
      · exact Or.inl hn
    · exact Or.inr hn
  | case3 | case5 | case6 => cases h

/-- The function declarator of a declaration stands in the role of its declarator. -/
theorem exists_of_functionDeclarator? (h : s.functionDeclarator? = some t) :
    ∃ c ∈ s.children, s.child? .declarator = some c ∧ c.Reaches t ∧ t.kind = .functionDeclarator ∧
      ∀ n ∈ t.up, n ∈ c.up ∨ n.kind = .pointerDeclarator ∨ n.kind = .referenceDeclarator := by
  obtain ⟨c, hc, ht⟩ := Option.bind_eq_some_iff.mp h
  obtain ⟨hct, hkind, hup⟩ := reaches_of_throughPointers? ht
  exact ⟨c, mem_children_of_child? hc, hc, hct, hkind, hup⟩

end Tree.Site

namespace Constructs

variable {ctx : Context} {s t u c a : Site} {m : Match}

/-! ## Matches spelled by a site -/

/-- The match was read off the text of the site. -/
inductive Spells (ctx : Context) (a : Site) : Match → Prop where
  | call : a.kind = .identifier → ctx.isApiName (a.node.text ctx.source) = true →
    Spells ctx a (.call (a.node.text ctx.source) (.direct a.span.start))
  | typeRef (kind : TypeRefKind) : a.kind = .identifier ∨ a.kind = .typeIdentifier →
    ctx.isApiName (a.node.text ctx.source) = true →
    Spells ctx a (.typeRef (a.node.text ctx.source) (.direct a.span.start) kind)
  | coordinate {m : Match} : a.kind = .fieldExpression → ctx.coordinate? a = some m →
    Spells ctx a m
  | literal : a.kind.isLiteral = true →
    Spells ctx a (.stringLiteral (a.node.text ctx.source) a.span)

/-- The site at which a step reports or goes on. -/
inductive Step.At (ctx : Context) : Step → Site → Prop where
  | found {m : Match} {a : Site} : Spells ctx a m → At ctx (.found m) a
  | go (mode : Mode) (t : Site) : At ctx (.go mode t) t
  | enter (space : ExecSpace) (t : Site) : At ctx (.enter space t) t

/-- The steps are taken at sites within children of `s` that stand in one of the given roles. No
directive stands between, and the spans of the sites are pairwise apart. -/
def Laid (ctx : Context) (s : Site) (roles : List (Option Field)) (steps : List Step) : Prop :=
  ∃ sites, List.Forall₂ (Step.At ctx) steps sites ∧
    (∀ t ∈ sites, s.ClearTo t ∧ ∃ c ∈ s.children, c.node.label.field ∈ roles ∧ c.Reaches t) ∧
    sites.Pairwise fun t u => t.span.Apart u.span

namespace Laid

variable {roles roles' : List (Option Field)} {xs ys : List Step}

theorem nil : Laid ctx s roles [] := by
  refine ⟨[], .nil, fun t ht => ?_, .nil⟩
  cases ht

/-- Steps in different roles do not meet. -/
theorem append (hs : ∀ u, s.Reaches u → u.Placed) (hx : Laid ctx s roles xs)
    (hy : Laid ctx s roles' ys) (hr : ∀ r ∈ roles, r ∉ roles') :
    Laid ctx s (roles ++ roles') (xs ++ ys) := by
  obtain ⟨as, hxat, hxin, hxapart⟩ := hx
  obtain ⟨bs, hyat, hyin, hyapart⟩ := hy
  refine ⟨as ++ bs, List.rel_append hxat hyat, fun t ht => ?_,
    List.pairwise_append.mpr ⟨hxapart, hyapart, fun a ha b hb => ?_⟩⟩
  · rcases List.mem_append.mp ht with ht | ht
    · obtain ⟨hclear, c, hc, hrole, hct⟩ := hxin t ht
      exact ⟨hclear, c, hc, List.mem_append_left _ hrole, hct⟩
    · obtain ⟨hclear, c, hc, hrole, hct⟩ := hyin t ht
      exact ⟨hclear, c, hc, List.mem_append_right _ hrole, hct⟩
  · obtain ⟨_, c, hc, hcrole, hca⟩ := hxin a ha
    obtain ⟨_, d, hd, hdrole, hdb⟩ := hyin b hb
    have hne : c ≠ d := by
      rintro rfl
      exact hr _ hcrole hdrole
    have below {e : Site} (he : e ∈ s.children) : ∀ u, e.Reaches u → u.Placed :=
      fun u hu => hs u (hu.trans (.of_mem_children he))
    exact ((hs s .self).apart hc hd hne).mono (Site.contains_of_reaches (below hc) hca)
      (Site.contains_of_reaches (below hd) hdb)

/-- Steps at some of the children. -/
theorem ofChildren {step : Site → Step} {sites : List Site} (hstep : ∀ t, (step t).At ctx t)
    (hs : s.Placed) (hdir : s.kind.isDirective = false) (hsub : sites.Sublist s.children)
    (hr : ∀ t ∈ sites, t.node.label.field ∈ roles) : Laid ctx s roles (sites.map step) := by
  refine ⟨sites, ?_, fun t ht => ?_, (hs.ordered.imp Or.inl).sublist hsub⟩
  · rw [List.forall₂_map_left_iff]
    exact List.forall₂_same.mpr fun t _ => hstep t
  · have hc := hsub.subset ht
    exact ⟨(Site.ClearTo.self s).child hdir hc, t, hc, hr t ht, .self⟩

theorem goAll {mode : Mode} {sites : List Site} (hs : s.Placed)
    (hdir : s.kind.isDirective = false) (hsub : sites.Sublist s.children)
    (hr : ∀ t ∈ sites, t.node.label.field ∈ roles) : Laid ctx s roles (Context.goAll mode sites) :=
  ofChildren (fun t => .go mode t) hs hdir hsub hr

theorem children {mode : Mode} (hs : s.Placed) (hdir : s.kind.isDirective = false) :
    Laid ctx s (s.children.map (·.node.label.field)) (Context.goAll mode s.children) :=
  goAll hs hdir (List.Sublist.refl _) fun _ ht => List.mem_map_of_mem ht

/-- Steps at some of the children, in whatever roles. -/
theorem filter {mode : Mode} {p : Site → Bool} (hs : s.Placed)
    (hdir : s.kind.isDirective = false) :
    Laid ctx s (s.children.map (·.node.label.field)) (Context.goAll mode (s.children.filter p)) :=
  goAll hs hdir List.filter_sublist fun _ ht => List.mem_map_of_mem (List.mem_of_mem_filter ht)

theorem ofChild? {step : Site → Step} {f : Field} (hstep : ∀ t, (step t).At ctx t)
    (hs : s.Placed) (hdir : s.kind.isDirective = false) :
    Laid ctx s [some f] ((s.child? f).toList.map step) := by
  refine ofChildren hstep hs hdir ?_ fun t ht => ?_
  · cases h : s.child? f with
    | none => exact List.nil_sublist _
    | some c => exact List.singleton_sublist.mpr (Site.mem_children_of_child? h)
  · rw [Site.field_of_child? (Option.mem_toList.mp ht)]
    exact List.mem_singleton_self _

theorem goTo {mode : Mode} {f : Field} (hs : s.Placed) (hdir : s.kind.isDirective = false) :
    Laid ctx s [some f] (Context.goTo mode s f) := ofChild? (fun t => .go mode t) hs hdir

/-- What is laid out further down is laid out in the child above it. -/
theorem lift (h : Laid ctx u roles xs) (hc : c ∈ s.children) (hcu : c.Reaches u)
    (hsu : s.ClearTo u) : Laid ctx s [c.node.label.field] xs := by
  obtain ⟨sites, hat, hin, hapart⟩ := h
  refine ⟨sites, hat, fun t ht => ?_, hapart⟩
  have hut := (hin t ht).1
  exact ⟨hsu.trans hut, c, hc, List.mem_singleton_self _, hut.1.trans hcu⟩

/-- A single step at a child. -/
theorem single {step : Step} (hstep : step.At ctx c) (hc : c ∈ s.children)
    (hdir : s.kind.isDirective = false) : Laid ctx s [c.node.label.field] [step] := by
  refine ⟨[c], .cons hstep .nil, fun t ht => ?_, List.pairwise_singleton _ _⟩
  obtain rfl := List.mem_singleton.mp ht
  exact ⟨(Site.ClearTo.self s).child hdir hc, t, hc, List.mem_singleton_self _, .self⟩

end Laid

/-! ## The steps at each kind of node -/

/-- The site is a launch of `function` on `arguments` with a configuration between them. -/
structure LaunchAt (ctx : Context) (s function arguments : Site) (config : LaunchConfig) :
    Prop where
  isCall : s.kind = .callExpression
  inFunction : s.child? .function = some function
  inArguments : s.child? .arguments = some arguments
  between : ctx.neutral.launchIn? ⟨function.span.stop, arguments.span.start⟩ = some config

theorem LaunchAt.isLaunch {function arguments : Site} {config : LaunchConfig}
    (h : LaunchAt ctx s function arguments config) : ctx.isLaunch s = true := by
  unfold Context.isLaunch
  rw [h.isCall, h.inFunction, h.inArguments]
  simp [h.between]

/-- Everything that is reached from the site is well-formed. -/
def Sound (ctx : Context) (s : Site) : Prop := ∀ u, s.Reaches u → WellFormed ctx u

namespace Sound

theorem self (h : Sound ctx s) : WellFormed ctx s := h s .self

theorem of_reaches (h : Sound ctx s) (ht : s.Reaches t) : Sound ctx t :=
  fun u hu => h u (hu.trans ht)

theorem placed (h : Sound ctx s) : ∀ u, s.Reaches u → u.Placed := fun u hu => (h u hu).placed

end Sound

theorem not_isDirective {k : Kind} (h : s.kind = k) (hk : k.isDirective = false) :
    s.kind.isDirective = false := h ▸ hk

theorem laid_parameterSteps (hs : Sound ctx s) (hk : s.kind = .functionDeclarator) :
    Laid ctx s [some .parameters] (Context.parameterSteps s) := by
  unfold Context.parameterSteps
  cases hp : s.child? .parameters with
  | none => exact .nil
  | some params =>
    have hc := Site.mem_children_of_child? hp
    have hsp : s.Reaches params := .of_mem_children hc
    have hdir : params.kind.isDirective = false :=
      not_isDirective (hs.self.parameters hk params hp) rfl
    have hlaid : Laid ctx params _ (Context.goAll .code params.namedChildren) :=
      .filter (hs params hsp).placed hdir
    rw [← Site.field_of_child? hp]
    exact hlaid.lift hc .self ((Site.ClearTo.self s).child (not_isDirective hk rfl) hc)

/-- The parameters of a function are laid out in its declarator. -/
theorem laid_functionDeclarator {d : Site} (hs : Sound ctx s) (hdir : s.kind.isDirective = false)
    (hd : s.functionDeclarator? = some d) :
    Laid ctx s [some .declarator] (Context.parameterSteps d) := by
  obtain ⟨c, hc, hchild, hcd, hkind, hup⟩ := Site.exists_of_functionDeclarator? hd
  have hsd : s.Reaches d := hcd.trans (.of_mem_children hc)
  have hclear : s.ClearTo d := by
    refine ((Site.ClearTo.self s).child hdir hc).trans ⟨hcd, fun n hn => ?_⟩
    rcases hup n hn with hn | hn | hn
    · exact Or.inl hn
    · exact Or.inr (by rw [hn]; rfl)
    · exact Or.inr (by rw [hn]; rfl)
  rw [← Site.field_of_child? hchild]
  exact (laid_parameterSteps (hs.of_reaches hsd) hkind).lift hc hcd hclear

theorem laid_functionSteps (hs : Sound ctx s) (hk : s.kind = .functionDefinition) :
    ∃ roles, Laid ctx s roles (ctx.functionSteps s) := by
  have hdir : s.kind.isDirective = false := not_isDirective hk rfl
  have hplaced := hs.self.placed
  have htype : Laid ctx s [some .type] (Context.goTo (.types .returnType) s .type) :=
    .goTo hplaced hdir
  have hinit : Laid ctx s [none] ((s.children.filter (·.kind = .initializerList)).map
      (.enter (ExecSpace.ofSite ctx.neutral s))) := by
    refine .ofChildren (fun t => .enter _ t) hplaced hdir List.filter_sublist fun t ht => ?_
    obtain ⟨hc, hkind⟩ := List.mem_filter.mp ht
    rw [(hs t (.of_mem_children hc)).initializers (of_decide_eq_true hkind)]
    exact List.mem_singleton_self _
  have hbody : Laid ctx s [some .body] ((s.child? .body).toList.map
      (.enter (ExecSpace.ofSite ctx.neutral s))) :=
    .ofChild? (fun t => .enter _ t) hplaced hdir
  refine ⟨_, ((htype.append hs.placed (?hparams : Laid ctx s [some .declarator] _)
    (by decide)).append hs.placed hinit (by decide)).append hs.placed hbody (by decide)⟩
  case hparams =>
    cases hd : s.functionDeclarator? with
    | none => exact .nil
    | some d => exact laid_functionDeclarator hs hdir hd

theorem laid_declarationSteps (hs : Sound ctx s) (hdir : s.kind.isDirective = false) :
    ∃ roles, Laid ctx s roles (Context.declarationSteps s) := by
  have hplaced := hs.self.placed
  unfold Context.declarationSteps
  cases hd : s.functionDeclarator? with
  | some d =>
    have htype : Laid ctx s [some .type] (Context.goTo (.types .returnType) s .type) :=
      .goTo hplaced hdir
    exact ⟨_, htype.append hs.placed (laid_functionDeclarator hs hdir hd) (by decide)⟩
  | none =>
    have hdecl : Laid ctx s [some .declarator]
        (Context.goAll .declarator (s.childrenIn .declarator)) := by
      refine .goAll hplaced hdir List.filter_sublist fun t ht => ?_
      have hf : t.node.hasField .declarator = true := (List.mem_filter.mp ht).2
      rw [show t.node.label.field = some .declarator from of_decide_eq_true hf]
      exact List.mem_singleton_self _
    have hdefault : Laid ctx s [some .defaultValue] (Context.goTo .code s .defaultValue) :=
      .goTo hplaced hdir
    refine ⟨_, ((?htype : Laid ctx s [some .type] _).append hs.placed hdecl
      (by decide)).append hs.placed hdefault (by decide)⟩
    case htype =>
      cases ht : s.child? .type with
      | none => exact .nil
      | some t =>
        rw [← Site.field_of_child? ht]
        exact .single (.go _ t) (Site.mem_children_of_child? ht) hdir

/-- The report of the name of a called function, if the source API has it. -/
def nameSteps (ctx : Context) (name : Site) : List Step :=
  if ctx.isApiName (name.node.text ctx.source) then
    [.found (.call (name.node.text ctx.source) (.direct name.span.start))]
  else []

theorem laid_name {name : Site} (hc : name ∈ s.children) (hk : name.kind = .identifier)
    (hdir : s.kind.isDirective = false) :
    Laid ctx s [name.node.label.field] (nameSteps ctx name) := by
  unfold nameSteps
  split
  · rename_i hapi
    exact .single (.found (.call hk hapi)) hc hdir
  · exact .nil

/-- A name with template arguments or a qualification is a child of the function, beside them. -/
theorem laid_path {f name : Site} (hs : Sound ctx s) (hdir : s.kind.isDirective = false)
    (hf : f ∈ s.children) (hk : f.kind.isDirective = false)
    (hname : (f.child? .name).filter (·.kind = .identifier) = some name) :
    Laid ctx s [f.node.label.field] (Context.goTo .code f .arguments ++ nameSteps ctx name) := by
  have hsf : Sound ctx f := hs.of_reaches (.of_mem_children hf)
  obtain ⟨hchild, hident⟩ := Option.filter_eq_some_iff.mp hname
  have hin : Laid ctx f [name.node.label.field] (nameSteps ctx name) :=
    laid_name (Site.mem_children_of_child? hchild) (of_decide_eq_true hident) hk
  rw [Site.field_of_child? hchild] at hin
  have hargs : Laid ctx f [some .arguments] (Context.goTo .code f .arguments) :=
    .goTo hsf.self.placed hk
  exact (hargs.append hsf.placed hin (by decide)).lift hf .self
    ((Site.ClearTo.self s).child hdir hf)

theorem laid_callee {f name : Site} (hs : Sound ctx s) (hdir : s.kind.isDirective = false)
    (hf : f ∈ s.children) (hname : Context.calleeName? f = some name) :
    Laid ctx s [f.node.label.field] (Context.goTo .code f .arguments ++ nameSteps ctx name) := by
  unfold Context.calleeName? at hname
  split at hname
  · rename_i hk
    obtain rfl := Option.some.inj hname
    -- a plain name has no template arguments
    have hleaf : f.children = [] := by
      rw [Site.children, (hs f (.of_mem_children hf)).tokens (by rw [hk]; rfl)]
      rfl
    have hnone : Context.goTo .code f .arguments = [] := by
      simp [Context.goTo, Site.child?, hleaf, Context.goAll]
    rw [hnone, List.nil_append]
    exact laid_name hf hk hdir
  · rename_i hk
    exact laid_path hs hdir hf (not_isDirective hk rfl) hname
  · rename_i hk
    exact laid_path hs hdir hf (not_isDirective hk rfl) hname
  · cases hname

theorem laid_plainCallSteps {f args : Site} (hs : Sound ctx s) (hdir : s.kind.isDirective = false)
    (hf : s.child? .function = some f) (hargs : s.child? .arguments = some args) :
    ∃ roles, Laid ctx s roles (ctx.plainCallSteps f args) := by
  have hcf := Site.mem_children_of_child? hf
  have hrole := Site.field_of_child? hf
  have hgo : Laid ctx s [some .arguments] [.go .code args] := by
    rw [← Site.field_of_child? hargs]
    exact .single (.go _ _) (Site.mem_children_of_child? hargs) hdir
  unfold Context.plainCallSteps
  cases hname : Context.calleeName? f with
  | some name =>
    have hcallee := laid_callee hs hdir hcf hname
    rw [hrole] at hcallee
    exact ⟨_, hcallee.append hs.placed hgo (by decide)⟩
  | none =>
    have hcallee : Laid ctx s [f.node.label.field] [.go .code f] := .single (.go _ _) hcf hdir
    rw [hrole] at hcallee
    exact ⟨_, hcallee.append hs.placed hgo (by decide)⟩

/-! ## All steps -/

/-- What a walk does at a site. -/
inductive Doing (ctx : Context) (s : Site) : List Step → Prop where
  /-- It takes the step of a launch. -/
  | launch {f args : Site} {config : LaunchConfig} (h : LaunchAt ctx s f args config) :
    Doing ctx s [.launch (ctx.launchOf s f args config) (ctx.ofConfig config) args]
  /-- It reports what the site spells. -/
  | found {m : Match} (h : Spells ctx s m) : Doing ctx s [.found m]
  /-- It takes steps that do not meet. -/
  | laid {roles : List (Option Field)} {steps : List Step} (h : Laid ctx s roles steps) :
    Doing ctx s steps

theorem Doing.of_exists {steps : List Step} (h : ∃ roles, Laid ctx s roles steps) :
    Doing ctx s steps := by
  obtain ⟨roles, h⟩ := h
  exact .laid h

theorem Doing.nil : Doing ctx s [] := .of_exists ⟨[], .nil⟩

theorem doing_typeRef {kind : TypeRefKind} (hk : s.kind = .identifier ∨ s.kind = .typeIdentifier) :
    Doing ctx s ((ctx.typeRef (s.node.text ctx.source) s.span.start kind).map .found) := by
  unfold Context.typeRef
  split
  · rename_i hapi
    exact .found (.typeRef kind hk hapi)
  · exact .nil

theorem doing_callSteps (hs : Sound ctx s) (hk : s.kind = .callExpression) :
    Doing ctx s (ctx.callSteps s) := by
  unfold Context.callSteps
  split
  · rename_i f args hf hargs
    split
    · rename_i config hconfig
      exact .launch ⟨hk, hf, hargs, hconfig⟩
    · exact .of_exists (laid_plainCallSteps hs (not_isDirective hk rfl) hf hargs)
  · exact .laid (.children hs.self.placed (not_isDirective hk rfl))

theorem doing_codeSteps (hs : Sound ctx s) (hdir : s.kind.isDirective = false) :
    Doing ctx s (ctx.codeSteps s) := by
  have hplaced := hs.self.placed
  have goTo {mode : Mode} {f : Field} : Laid ctx s [some f] (Context.goTo mode s f) :=
    .goTo hplaced hdir
  unfold Context.codeSteps
  split
  case h_1 | h_2 | h_3 | h_4 | h_5 => exact .nil
  case h_6 | h_7 | h_8 | h_9 => exact .laid (.filter hplaced hdir)
  case h_10 hk => exact .of_exists (laid_functionSteps hs hk)
  case h_11 | h_12 => exact .of_exists (laid_declarationSteps hs hdir)
  case h_13 | h_14 | h_16 => exact .laid (goTo.append hs.placed goTo (by decide))
  case h_15 => exact .laid goTo
  case h_17 hk => exact doing_callSteps hs hk
  case h_18 hk =>
    split
    · rename_i m hm
      exact .found (.coordinate hk hm)
    · exact .laid (.children hplaced hdir)
  case h_19 hk => exact doing_typeRef (Or.inl hk)
  case h_21 hk | h_22 hk => exact .found (.literal (by rw [hk]; rfl))
  case h_20 | h_23 => exact .laid (.children hplaced hdir)

theorem doing_typeSteps {kind : TypeRefKind} (hs : Sound ctx s)
    (hdir : s.kind.isDirective = false) : Doing ctx s (ctx.typeSteps kind s) := by
  have hplaced := hs.self.placed
  unfold Context.typeSteps
  split
  case h_1 hk => exact doing_typeRef (Or.inr hk)
  all_goals exact .laid (.children hplaced hdir)

theorem doing_declaratorSteps (hs : Sound ctx s) (hdir : s.kind.isDirective = false) :
    Doing ctx s (Context.declaratorSteps s) := by
  have hplaced := hs.self.placed
  have goTo {mode : Mode} {f : Field} : Laid ctx s [some f] (Context.goTo mode s f) :=
    .goTo hplaced hdir
  unfold Context.declaratorSteps
  split
  case h_1 | h_2 => exact .laid (goTo.append hs.placed goTo (by decide))
  case h_7 hk => exact .laid (laid_parameterSteps hs hk)
  case h_8 => exact .nil
  all_goals exact .laid (.filter hplaced hdir)

/-- **What a walk does at a site**: the step of a launch, a report of what the site spells, or steps
that do not meet. -/
theorem doing_steps {mode : Mode} (hs : Sound ctx s) (hdir : s.kind.isDirective = false) :
    Doing ctx s (ctx.steps mode s) := by
  cases mode with
  | code => exact doing_codeSteps hs hdir
  | types kind => exact doing_typeSteps hs hdir
  | declarator => exact doing_declaratorSteps hs hdir

end Constructs

end CudaToHip
