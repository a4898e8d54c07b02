import CudaToHip.Proofs.Scan.Reported

/-!
# The order of a walk

A walk takes the parts of a node in an order of its own. Where the tree has these parts in the same
order, what is found in an earlier part stands in front of what is found in a later one
(`InTurn`). `Overtakes` lists the places where it does not:

* the template arguments of a called function are walked through before the call is reported, though
  the name of the function stands in front of them;
* the first default value of a declaration is walked through after all of its declarators, though
  further declarators may stand behind it;
* a tree may have two parts of a node in an order that the grammar never writes (`Part.written`).

`inTurn_walk`: of two matches that a walk reports, the first begins no later in the source than the
second, or the second one overtakes it.
-/

namespace CudaToHip

open CudaToHip.Tree

/-! ## Where a match stands -/

/-- The match begins where a site at or below the given one begins. -/
def Match.StandsIn (m : Match) (s : Site) : Prop := ∃ a, s.Reaches a ∧ m.offset = a.span.start

namespace Match.StandsIn

variable {m : Match} {s t : Site}

theorem of_reaches (h : m.StandsIn t) (ht : s.Reaches t) : m.StandsIn s := by
  obtain ⟨a, ha, hoff⟩ := h
  exact ⟨a, ha.trans ht, hoff⟩

/-- What stands in a site begins inside of its span. -/
theorem between (hs : ∀ u, s.Reaches u → u.Placed) (h : m.StandsIn s) :
    s.span.start ≤ m.offset ∧ m.offset ≤ s.span.stop := by
  obtain ⟨a, ha, hoff⟩ := h
  have hin := Span.contains_iff.mp (Site.contains_of_reaches hs ha)
  have hle := (hs a ha).le
  omega

end Match.StandsIn

namespace Constructs

variable {ctx : Context} {s t u : Site} {m n : Match} {mode : Mode} {enters : ExecSpace → Bool}

/-! ## Matches in turn -/

/-- A part of a node: its children in a role, or the initializer lists of a constructor, which have
no role. -/
inductive Part where
  | role (f : Field)
  | initializers
  deriving DecidableEq

/-- The child belongs to the part. -/
def Part.has : Part → Site → Bool
  | .role f, c => c.node.hasField f
  | .initializers, c => c.kind = .initializerList

theorem Part.has_of_child? {f : Field} {c : Site} (h : s.child? f = some c) :
    (Part.role f).has c = true := decide_eq_true (Site.field_of_child? h)

/-- The pairs of parts that the grammar writes in this order, wherever a node has both. -/
def Part.written : List (Part × Part) :=
  [(.role .type, .role .declarator), (.role .type, .initializers), (.role .type, .role .body),
   (.role .type, .role .defaultValue), (.role .declarator, .initializers),
   (.role .declarator, .role .body), (.role .declarator, .role .value),
   (.role .declarator, .role .size), (.initializers, .role .body), (.role .right, .role .body),
   (.role .function, .role .arguments)]

/-- **The second match may stand in front of the first**, though a walk over the site comes to it
later. -/
inductive Overtakes (s : Site) (m n : Match) : Prop where
  /-- The second is a call by a name with template arguments, and the first stands in these. -/
  | templateArguments {c f name args : Site} {callee : String} (hc : s.Reaches c)
    (hk : c.kind = .callExpression) (hf : c.child? .function = some f)
    (hname : Context.calleeName? f = some name) (hargs : f.child? .arguments = some args)
    (hm : m.StandsIn args) (hn : n = .call callee (.direct name.span.start))
  /-- The second stands in the first default value of a declaration, the first in a declarator
  behind it. -/
  | defaultValue {c v d : Site} (hc : s.Reaches c)
    (hk : c.kind = .declaration ∨ c.kind = .fieldDeclaration) (hv : c.child? .defaultValue = some v)
    (hd : d ∈ c.childrenIn .declarator) (hvd : v.Precedes d) (hm : m.StandsIn d)
    (hn : n.StandsIn v)
  /-- They stand in two parts of a node that the tree has in an order never written. -/
  | misplaced {c x y : Site} {p q : Part} (hc : s.Reaches c) (hpq : (p, q) ∈ Part.written)
    (hx : x ∈ c.children) (hy : y ∈ c.children) (hxp : p.has x = true) (hyq : q.has y = true)
    (hxy : ¬ x.Precedes y) (hm : m.StandsIn x) (hn : n.StandsIn y)

theorem Overtakes.of_reaches (h : Overtakes t m n) (ht : s.Reaches t) : Overtakes s m n := by
  cases h with
  | templateArguments hc hk hf hname hargs hm hn =>
    exact .templateArguments (hc.trans ht) hk hf hname hargs hm hn
  | defaultValue hc hk hv hd hvd hm hn => exact .defaultValue (hc.trans ht) hk hv hd hvd hm hn
  | misplaced hc hpq hx hy hxp hyq hxy hm hn =>
    exact .misplaced (hc.trans ht) hpq hx hy hxp hyq hxy hm hn

/-- The first match begins no later than the second, unless the second overtakes it. -/
def InTurn (s : Site) (m n : Match) : Prop := m.offset ≤ n.offset ∨ Overtakes s m n

theorem InTurn.of_reaches (h : InTurn t m n) (ht : s.Reaches t) : InTurn s m n :=
  h.imp_right fun h => h.of_reaches ht

/-- All that the site reaches is placed. -/
def AllPlaced (s : Site) : Prop := ∀ u, s.Reaches u → u.Placed

theorem AllPlaced.of_reaches (h : AllPlaced s) (ht : s.Reaches t) : AllPlaced t :=
  fun u hu => h u (hu.trans ht)

theorem AllPlaced.child (h : AllPlaced s) (ht : t ∈ s.children) : AllPlaced t :=
  h.of_reaches (.of_mem_children ht)

/-- What stands in the first of two sites is in turn with what stands in the second. -/
theorem inTurn_of_precedes (ht : AllPlaced t) (hu : AllPlaced u) (h : t.Precedes u)
    (hm : m.StandsIn t) (hn : n.StandsIn u) : InTurn s m n := by
  have htu : t.span.stop ≤ u.span.start := h
  have hmt := hm.between ht
  have hnu := hn.between hu
  exact Or.inl (by omega)

/-! ## What a step shows -/

/-- What a step may report. -/
inductive Step.Shows : Step → Match → Prop where
  | found {m : Match} : Shows (.found m) m
  | go {mode : Mode} {t : Site} {m : Match} (h : m.StandsIn t) : Shows (.go mode t) m
  | enter {space : ExecSpace} {t : Site} {m : Match} (h : m.StandsIn t) : Shows (.enter space t) m
  | launch {l : Launch} {config : List Match} {t : Site} {m : Match}
    (h : m.offset = l.span.start) : Shows (.launch l config t) m

theorem Step.Shows.of_go (h : (Step.go mode t).Shows m) : m.StandsIn t := by
  cases h
  assumption

theorem Step.Shows.of_enter {space : ExecSpace} (h : (Step.enter space t).Shows m) :
    m.StandsIn t := by
  cases h
  assumption

/-- **What a walk reports stands in its site.** -/
theorem standsIn_of_mem_walk (h : m ∈ walk ctx enters mode s) : m.StandsIn s := by
  induction hn : sizeOf s.node using Nat.strongRecOn generalizing s mode with
  | ind n ih =>
    subst hn
    rw [walk_eq] at h
    obtain ⟨step, hstep, hm⟩ := List.mem_flatMap.mp h
    have below {t : Site} {mode' : Mode} (hsite : step.site? = some t) (ht : s.Reaches t)
        (hm : m ∈ walk ctx enters mode' t) : m.StandsIn s :=
      (ih _ (steps_below ctx mode s step hstep t hsite) hm rfl).of_reaches ht
    cases from_of_mem_steps hstep with
    | @found a _ ha hspells =>
      obtain rfl := List.mem_singleton.mp hm
      exact ⟨a, ha, offset_of_spells hspells⟩
    | go mode' ht => exact below rfl ht hm
    | enter space ht =>
      rw [follow_enter] at hm
      split at hm
      · exact below rfl ht hm
      · cases hm
    | launch hlaunch =>
      obtain rfl := List.mem_singleton.mp hm
      exact ⟨s, .self, rfl⟩

theorem shows_of_mem_follow {step : Step} (h : m ∈ follow ctx enters step) : step.Shows m := by
  cases step with
  | found =>
    obtain rfl := List.mem_singleton.mp h
    exact .found
  | go mode t => exact .go (standsIn_of_mem_walk h)
  | enter space t =>
    rw [follow_enter] at h
    split at h
    · exact .enter (standsIn_of_mem_walk h)
    · cases h
  | launch =>
    obtain rfl := List.mem_singleton.mp h
    exact .launch rfl

/-! ## Steps in line -/

/-- All that the steps may report is in turn. -/
def InLine (s : Site) (steps : List Step) : Prop :=
  steps.Pairwise fun x y => ∀ m n, x.Shows m → y.Shows n → InTurn s m n

/-- All that the steps may report stands in the given parts of the site. -/
def StayIn (s : Site) (parts : List Part) (steps : List Step) : Prop :=
  ∀ step ∈ steps, ∃ c ∈ s.children, (∃ p ∈ parts, p.has c = true) ∧
    ∀ m, step.Shows m → m.StandsIn c

variable {xs ys : List Step} {ps qs : List Part}

theorem StayIn.append (hx : StayIn s ps xs) (hy : StayIn s qs ys) :
    StayIn s (ps ++ qs) (xs ++ ys) := by
  intro step hstep
  rcases List.mem_append.mp hstep with hstep | hstep
  · obtain ⟨c, hc, ⟨p, hp, hpc⟩, hshows⟩ := hx step hstep
    exact ⟨c, hc, ⟨p, List.mem_append_left _ hp, hpc⟩, hshows⟩
  · obtain ⟨c, hc, ⟨q, hq, hqc⟩, hshows⟩ := hy step hstep
    exact ⟨c, hc, ⟨q, List.mem_append_right _ hq, hqc⟩, hshows⟩

/-- Steps that all stay in the child in a role. -/
theorem StayIn.ofChild? {f : Field} {c : Site} (hc : s.child? f = some c)
    (h : ∀ step ∈ xs, ∀ m, step.Shows m → m.StandsIn c) : StayIn s [.role f] xs :=
  fun step hstep => ⟨c, Site.mem_children_of_child? hc,
    ⟨_, List.mem_singleton_self _, Part.has_of_child? hc⟩, h step hstep⟩

namespace InLine

theorem of_reaches (h : InLine t xs) (ht : s.Reaches t) : InLine s xs :=
  h.imp fun hxy m n hm hn => (hxy m n hm hn).of_reaches ht

theorem nil : InLine s [] := List.Pairwise.nil

theorem single (step : Step) : InLine s [step] := List.pairwise_singleton _ _

/-- Steps at some of the children, in their order, are in line. -/
theorem ofChildren {step : Site → Step} {sites : List Site}
    (hstep : ∀ t m, (step t).Shows m → m.StandsIn t) (hs : AllPlaced s)
    (hsub : sites.Sublist s.children) : InLine s (sites.map step) := by
  refine List.pairwise_map.mpr (((hs s .self).ordered.sublist hsub).imp_of_mem ?_)
  intro c d hc hd hcd m n hm hn
  exact inTurn_of_precedes (hs.child (hsub.subset hc)) (hs.child (hsub.subset hd)) hcd
    (hstep c m hm) (hstep d n hn)

theorem goAll {sites : List Site} (hs : AllPlaced s) (hsub : sites.Sublist s.children) :
    InLine s (Context.goAll mode sites) :=
  ofChildren (fun _ _ h => h.of_go) hs hsub

end InLine

/-! ## Lines of steps within parts -/

/-- Steps that are in line and stay in the given parts. -/
structure Lined (s : Site) (parts : List Part) (steps : List Step) : Prop where
  inLine : InLine s steps
  stayIn : StayIn s parts steps

namespace Lined

theorem nil : Lined s ps [] := ⟨.nil, fun _ h => nomatch h⟩

/-- **Parts that are taken in the order of the grammar** are in line: where the tree has them in
another order, they are misplaced. -/
theorem append (hs : AllPlaced s) (hx : Lined s ps xs) (hy : Lined s qs ys)
    (hpq : ∀ p ∈ ps, ∀ q ∈ qs, (p, q) ∈ Part.written) : Lined s (ps ++ qs) (xs ++ ys) := by
  refine ⟨List.pairwise_append.mpr ⟨hx.inLine, hy.inLine, fun x hxs y hys m n hm hn => ?_⟩,
    hx.stayIn.append hy.stayIn⟩
  obtain ⟨c, hc, ⟨p, hp, hpc⟩, hmc⟩ := hx.stayIn x hxs
  obtain ⟨d, hd, ⟨q, hq, hqd⟩, hnd⟩ := hy.stayIn y hys
  by_cases hcd : c.Precedes d
  · exact inTurn_of_precedes (hs.child hc) (hs.child hd) hcd (hmc m hm) (hnd n hn)
  · exact Or.inr (.misplaced .self (hpq p hp q hq) hc hd hpc hqd hcd (hmc m hm) (hnd n hn))

theorem ofChildren {step : Site → Step} {sites : List Site} {p : Part}
    (hstep : ∀ t m, (step t).Shows m → m.StandsIn t) (hs : AllPlaced s)
    (hsub : sites.Sublist s.children) (hp : ∀ t ∈ sites, p.has t = true) :
    Lined s [p] (sites.map step) := by
  refine ⟨.ofChildren hstep hs hsub, fun st hst => ?_⟩
  obtain ⟨t, ht, rfl⟩ := List.mem_map.mp hst
  exact ⟨t, hsub.subset ht, ⟨p, List.mem_singleton_self _, hp t ht⟩, hstep t⟩

theorem ofChild? {step : Site → Step} {f : Field}
    (hstep : ∀ t m, (step t).Shows m → m.StandsIn t) (hs : AllPlaced s) :
    Lined s [.role f] ((s.child? f).toList.map step) := by
  refine ofChildren hstep hs ?_ fun t ht => ?_
  · cases h : s.child? f with
    | none => exact List.nil_sublist _
    | some c => exact List.singleton_sublist.mpr (Site.mem_children_of_child? h)
  · exact Part.has_of_child? (Option.mem_toList.mp ht)

theorem goTo {f : Field} (hs : AllPlaced s) : Lined s [.role f] (Context.goTo mode s f) :=
  ofChild? (fun _ _ h => h.of_go) hs

/-- A single step at the child in a role. -/
theorem single {step : Step} {f : Field} {c : Site} (hc : s.child? f = some c)
    (hstep : ∀ m, step.Shows m → m.StandsIn c) : Lined s [.role f] [step] := by
  refine ⟨.single step, .ofChild? hc fun st hst => ?_⟩
  obtain rfl := List.mem_singleton.mp hst
  exact hstep

/-- What is in line further down is in line in the child above it. -/
theorem lift {f : Field} {c : Site} (hc : s.child? f = some c) (hcu : c.Reaches u)
    (hx : InLine u xs) (hxs : ∀ step ∈ xs, ∀ m, step.Shows m → m.StandsIn u) :
    Lined s [.role f] xs :=
  ⟨hx.of_reaches (hcu.trans (.of_mem_children (Site.mem_children_of_child? hc))),
    .ofChild? hc fun step hstep m hm => (hxs step hstep m hm).of_reaches hcu⟩

end Lined

/-! ## The steps at each kind of node -/

theorem inLine_parameterSteps (hs : AllPlaced s) : InLine s (Context.parameterSteps s) := by
  unfold Context.parameterSteps
  cases hp : s.child? .parameters with
  | none => exact .nil
  | some params =>
    have hreach : s.Reaches params := .of_mem_children (Site.mem_children_of_child? hp)
    exact (InLine.goAll (hs.of_reaches hreach) List.filter_sublist).of_reaches hreach

theorem standsIn_of_parameterSteps {step : Step} (h : step ∈ Context.parameterSteps s)
    (hm : step.Shows m) : m.StandsIn s := by
  unfold Context.parameterSteps at h
  cases hp : s.child? .parameters with
  | none =>
    rw [hp] at h
    cases h
  | some params =>
    rw [hp] at h
    obtain ⟨t, ht, rfl⟩ := List.mem_map.mp h
    have hparams : s.Reaches params := .of_mem_children (Site.mem_children_of_child? hp)
    have hreach : s.Reaches t := hparams.child (Site.mem_children_of_mem_namedChildren ht)
    exact hm.of_go.of_reaches hreach

/-- The parameters of a function stand in its declarator. -/
theorem lined_functionDeclarator {d : Site} (hs : AllPlaced s)
    (hd : s.functionDeclarator? = some d) :
    Lined s [.role .declarator] (Context.parameterSteps d) := by
  obtain ⟨c, hc, hchild, hcd, -⟩ := Site.exists_of_functionDeclarator? hd
  exact .lift hchild hcd (inLine_parameterSteps (hs.of_reaches (hcd.trans (.of_mem_children hc))))
    fun _ hstep _ hm => standsIn_of_parameterSteps hstep hm

theorem inLine_functionSteps (hs : AllPlaced s) : InLine s (ctx.functionSteps s) := by
  have htype : Lined s [.role .type] (Context.goTo (.types .returnType) s .type) := .goTo hs
  have hinit : Lined s [.initializers] ((s.children.filter (·.kind = .initializerList)).map
      (.enter (ExecSpace.ofSite ctx.neutral s))) :=
    .ofChildren (fun _ _ h => h.of_enter) hs List.filter_sublist
      fun _ ht => (List.mem_filter.mp ht).2
  have hbody : Lined s [.role .body] ((s.child? .body).toList.map
      (.enter (ExecSpace.ofSite ctx.neutral s))) := .ofChild? (fun _ _ h => h.of_enter) hs
  refine (((htype.append hs (?hparams : Lined s [.role .declarator] _) (by decide)).append hs
    hinit (by decide)).append hs hbody (by decide)).inLine
  cases hd : s.functionDeclarator? with
  | none => exact .nil
  | some d => exact lined_functionDeclarator hs hd

/-- The declarators of a declaration and its first default value: a declarator behind the value is
overtaken. -/
theorem inLine_defaultValue (hs : AllPlaced s)
    (hk : s.kind = .declaration ∨ s.kind = .fieldDeclaration) :
    InLine s (Context.goAll .declarator (s.childrenIn .declarator) ++
      Context.goTo .code s .defaultValue) := by
  refine List.pairwise_append.mpr ⟨InLine.goAll hs List.filter_sublist, (Lined.goTo hs).inLine,
    fun x hx y hy m n hm hn => ?_⟩
  obtain ⟨d, hd, rfl⟩ := List.mem_map.mp hx
  obtain ⟨v, hv, rfl⟩ := List.mem_map.mp hy
  have hv := Option.mem_toList.mp hv
  obtain ⟨hdc, hdf⟩ := List.mem_filter.mp hd
  have hvc := Site.mem_children_of_child? hv
  rcases eq_or_of_pairwise (hs s .self).ordered hdc hvc with rfl | hdv | hvd
  · -- no child has both roles
    have hrole := (Site.field_of_child? hv).symm.trans (of_decide_eq_true hdf)
    cases hrole
  · exact inTurn_of_precedes (hs.child hdc) (hs.child hvc) hdv hm.of_go hn.of_go
  · exact Or.inr (.defaultValue .self hk hv hd hvd hm.of_go hn.of_go)

theorem inLine_declarationSteps (hs : AllPlaced s)
    (hk : s.kind = .declaration ∨ s.kind = .fieldDeclaration) :
    InLine s (Context.declarationSteps s) := by
  unfold Context.declarationSteps
  cases hd : s.functionDeclarator? with
  | some d =>
    have htype : Lined s [.role .type] (Context.goTo (.types .returnType) s .type) := .goTo hs
    exact (htype.append hs (lined_functionDeclarator hs hd) (by decide)).inLine
  | none =>
    have hdecl : Lined s [.role .declarator]
        (Context.goAll .declarator (s.childrenIn .declarator)) := by
      refine .ofChildren (fun _ _ h => h.of_go) hs List.filter_sublist ?_
      exact fun _ ht => (List.mem_filter.mp ht).2
    have hdefault : Lined s [.role .defaultValue] (Context.goTo .code s .defaultValue) := .goTo hs
    have hrest : Lined s [.role .declarator, .role .defaultValue]
        (Context.goAll .declarator (s.childrenIn .declarator) ++
          Context.goTo .code s .defaultValue) :=
      ⟨inLine_defaultValue hs hk, hdecl.stayIn.append hdefault.stayIn⟩
    dsimp only
    rw [List.append_assoc]
    refine (Lined.append hs (?htype : Lined s [.role .type] _) hrest (by decide)).inLine
    cases ht : s.child? .type with
    | none => exact .nil
    | some t => exact .single ht fun _ h => h.of_go

theorem eq_of_mem_nameSteps {name : Site} {step : Step} (h : step ∈ nameSteps ctx name) :
    step = .found (.call (name.node.text ctx.source) (.direct name.span.start)) := by
  unfold nameSteps at h
  split at h
  · exact List.mem_singleton.mp h
  · cases h

/-- A call by a name: its template arguments are overtaken by the name. -/
theorem lined_callee {f name : Site} (hs : AllPlaced s) (hk : s.kind = .callExpression)
    (hf : s.child? .function = some f) (hname : Context.calleeName? f = some name) :
    Lined s [.role .function] (Context.goTo .code f .arguments ++ nameSteps ctx name) := by
  have hfc := Site.mem_children_of_child? hf
  have harguments : InLine f (Context.goTo .code f .arguments) := (Lined.goTo (hs.child hfc)).inLine
  refine ⟨List.pairwise_append.mpr ⟨harguments.of_reaches (.of_mem_children hfc), ?_,
    fun x hx y hy m n hm hn => ?_⟩, .ofChild? hf fun step hstep m hm => ?_⟩
  · unfold nameSteps
    split
    · exact List.pairwise_singleton _ _
    · exact .nil
  · obtain ⟨targs, htargs, rfl⟩ := List.mem_map.mp hx
    obtain rfl := eq_of_mem_nameSteps hy
    cases hn
    exact Or.inr
      (.templateArguments .self hk hf hname (Option.mem_toList.mp htargs) hm.of_go rfl)
  · rcases List.mem_append.mp hstep with hstep | hstep
    · obtain ⟨targs, htargs, rfl⟩ := List.mem_map.mp hstep
      have hchild := Site.mem_children_of_child? (Option.mem_toList.mp htargs)
      exact hm.of_go.of_reaches (.of_mem_children hchild)
    · obtain rfl := eq_of_mem_nameSteps hstep
      cases hm
      rcases (exists_of_calleeName? hname).2.2 with rfl | hin
      · exact ⟨name, .self, rfl⟩
      · exact ⟨name, .of_mem_children hin, rfl⟩

theorem inLine_plainCallSteps {f args : Site} (hs : AllPlaced s) (hk : s.kind = .callExpression)
    (hf : s.child? .function = some f) (hargs : s.child? .arguments = some args) :
    InLine s (ctx.plainCallSteps f args) := by
  have hgo : Lined s [.role .arguments] [.go .code args] :=
    .single hargs fun _ h => h.of_go
  unfold Context.plainCallSteps
  refine (Lined.append hs (?hcallee : Lined s [.role .function] _) hgo (by decide)).inLine
  cases hname : Context.calleeName? f with
  | none => exact .single hf fun _ h => h.of_go
  | some name => exact lined_callee hs hk hf hname

theorem inLine_callSteps (hs : AllPlaced s) (hk : s.kind = .callExpression) :
    InLine s (ctx.callSteps s) := by
  unfold Context.callSteps
  split
  · rename_i f args hf hargs
    split
    · exact .single _
    · exact inLine_plainCallSteps hs hk hf hargs
  · exact .goAll hs (List.Sublist.refl _)

theorem inLine_typeRef {name : String} {offset : Nat} {kind : TypeRefKind} :
    InLine s ((ctx.typeRef name offset kind).map .found) := by
  unfold Context.typeRef
  split
  · exact .single _
  · exact .nil

theorem inLine_codeSteps (hs : AllPlaced s) : InLine s (ctx.codeSteps s) := by
  have children : InLine s (Context.goAll .code s.children) := .goAll hs (List.Sublist.refl _)
  have goTo {mode : Mode} {f : Field} : Lined s [.role f] (Context.goTo mode s f) := .goTo hs
  unfold Context.codeSteps
  split
  case h_1 | h_2 | h_3 | h_4 | h_5 => exact .nil
  case h_6 | h_7 | h_8 | h_9 => exact .goAll hs List.filter_sublist
  case h_10 => exact inLine_functionSteps hs
  case h_11 hk => exact inLine_declarationSteps hs (Or.inl hk)
  case h_12 hk => exact inLine_declarationSteps hs (Or.inr hk)
  case h_13 | h_14 | h_16 => exact (goTo.append hs goTo (by decide)).inLine
  case h_15 => exact goTo.inLine
  case h_17 hk => exact inLine_callSteps hs hk
  case h_18 =>
    split
    · exact .single _
    · exact children
  case h_19 => exact inLine_typeRef
  case h_20 => exact .goAll hs (List.Sublist.refl _)
  case h_21 | h_22 => exact .single _
  case h_23 => exact children

theorem inLine_typeSteps {kind : TypeRefKind} (hs : AllPlaced s) :
    InLine s (ctx.typeSteps kind s) := by
  unfold Context.typeSteps
  split
  case h_1 => exact inLine_typeRef
  all_goals exact .goAll hs (List.Sublist.refl _)

theorem inLine_declaratorSteps (hs : AllPlaced s) : InLine s (Context.declaratorSteps s) := by
  have goTo {mode : Mode} {f : Field} : Lined s [.role f] (Context.goTo mode s f) := .goTo hs
  unfold Context.declaratorSteps
  split
  case h_1 | h_2 => exact (goTo.append hs goTo (by decide)).inLine
  case h_7 => exact inLine_parameterSteps hs
  case h_8 => exact .nil
  all_goals exact .goAll hs List.filter_sublist

/-- **The steps at a site are in line.** -/
theorem inLine_steps (hs : AllPlaced s) : InLine s (ctx.steps mode s) := by
  cases mode with
  | code => exact inLine_codeSteps hs
  | types kind => exact inLine_typeSteps hs
  | declarator => exact inLine_declaratorSteps hs

/-! ## The walk -/

/-- **What a walk reports is in turn.** -/
theorem inTurn_walk (hs : AllPlaced s) : (walk ctx enters mode s).Pairwise (InTurn s) := by
  induction hn : sizeOf s.node using Nat.strongRecOn generalizing s mode with
  | ind n ih =>
    subst hn
    rw [walk_eq]
    refine List.pairwise_flatMap.mpr ⟨fun step hstep => ?_, (inLine_steps hs).imp ?_⟩
    · have below {t : Site} {mode' : Mode} (hsite : step.site? = some t) (ht : s.Reaches t) :
          (walk ctx enters mode' t).Pairwise (InTurn s) :=
        (ih _ (steps_below ctx mode s step hstep t hsite) (hs.of_reaches ht) rfl).imp
          fun h => h.of_reaches ht
      cases from_of_mem_steps hstep with
      | found | launch => exact List.pairwise_singleton _ _
      | go mode' ht => exact below rfl ht
      | enter space ht =>
        rw [follow_enter]
        split
        · exact below rfl ht
        · exact .nil
    · intro x y hxy m hm n hn
      exact hxy m n (shows_of_mem_follow hm) (shows_of_mem_follow hn)

end Constructs

end CudaToHip
