import CudaToHip.Proofs.Scan.Steps

/-!
# What a walk can do at a site

`Step.Possible` lists the steps that a walk can take at a site, each with all that is known of it:
where it leads and in which mode, what it reports, and what the site is. `possible_of_mem_steps` says
that a walk takes no others, whatever the tree is like. What all walks keep to is read off the list:
that they stay within a site, and which bodies they pass.
-/

namespace CudaToHip

open CudaToHip.Tree

namespace Tree.Site

/-- The types that are written at a site. -/
def types (s : Site) : List Site :=
  match s.kind with
  | .functionDefinition | .declaration | .fieldDeclaration | .parameterDeclaration
  | .optionalParameterDeclaration => (s.child? .type).toList
  | .typeDescriptor => s.children
  | _ => []

theorem mem_children_of_mem_types {s t : Site} (h : t ∈ s.types) : t ∈ s.children := by
  have hchild (h : t ∈ (s.child? .type).toList) : t ∈ s.children :=
    mem_children_of_child? (Option.mem_toList.mp h)
  unfold types at h
  split at h
  case h_6 => exact h
  case h_7 => cases h
  all_goals exact hchild h

end Tree.Site

namespace Constructs

variable {ctx : Context} {s t : Site} {mode : Mode}

/-- What a walk that looks at the site `s` in a mode may do. -/
inductive Step.Possible (ctx : Context) (mode : Mode) (s : Site) : Step → Prop where
  /-- It goes on in the code or the declarator of a child. -/
  | child {mode' : Mode} {t : Site} (hs : s.kind ≠ .functionDefinition) (ht : t ∈ s.children)
    (hmode : ∀ kind, mode' ≠ .types kind) : Possible ctx mode s (.go mode' t)
  /-- It goes on in a type that is written at the site. -/
  | type {kind : TypeRefKind} {t : Site} (ht : t ∈ s.types) :
    Possible ctx mode s (.go (.types kind) t)
  /-- Within a type it goes on in all of its parts. -/
  | typePart {kind : TypeRefKind} {t : Site} (hmode : mode = .types kind)
    (hs : s.kind.isTypePart = false) (ht : t ∈ s.children) :
    Possible ctx mode s (.go (.types kind) t)
  /-- It goes on in a parameter of the function that is declared. -/
  | parameter {d params t : Site}
    (hd : s.functionDeclarator? = some d ∨ s = d ∧ d.kind = .functionDeclarator)
    (hparams : d.child? .parameters = some params) (ht : t ∈ params.namedChildren) :
    Possible ctx mode s (.go .code t)
  /-- It goes on in the template arguments of the function that is called. -/
  | templateArguments {f name t : Site} (hs : s.kind = .callExpression) (hf : f ∈ s.children)
    (hname : Context.calleeName? f = some name) (ht : f.child? .arguments = some t) :
    Possible ctx mode s (.go .code t)
  /-- It reports the function that is called. -/
  | callee {f name : Site} {m : Match} (hs : s.kind = .callExpression) (hf : f ∈ s.children)
    (hname : Context.calleeName? f = some name) (h : Spells ctx name m) :
    Possible ctx mode s (.found m)
  /-- It reports what the site spells. -/
  | found {m : Match} (h : Spells ctx s m) : Possible ctx mode s (.found m)
  /-- It takes the launch that is written at the site. -/
  | launch {f args : Site} {config : LaunchConfig} (h : LaunchAt ctx s f args config) :
    Possible ctx mode s (.launch (ctx.launchOf s f args config) (ctx.ofConfig config) args)
  /-- It enters an initializer list of the function that is defined. -/
  | initializers {t : Site} (hs : s.kind = .functionDefinition) (ht : t ∈ s.children)
    (hk : t.kind = .initializerList) :
    Possible ctx mode s (.enter (ExecSpace.ofSite ctx.neutral s) t)
  /-- It enters the body of the function that is defined. -/
  | body {t : Site} (hs : s.kind = .functionDefinition) (ht : s.child? .body = some t) :
    Possible ctx mode s (.enter (ExecSpace.ofSite ctx.neutral s) t)

/-- The name of a called function is the function itself or a child of it. -/
theorem exists_of_calleeName? {f name : Site} (h : Context.calleeName? f = some name) :
    name.kind = .identifier ∧ f.kind ≠ .functionDefinition ∧ (name = f ∨ name ∈ f.children) := by
  have hpath (hk : f.kind ≠ .functionDefinition)
      (h : (f.child? .name).filter (·.kind = .identifier) = some name) :
      name.kind = .identifier ∧ f.kind ≠ .functionDefinition ∧ (name = f ∨ name ∈ f.children) := by
    obtain ⟨hchild, hname⟩ := Option.filter_eq_some_iff.mp h
    exact ⟨of_decide_eq_true hname, hk, Or.inr (Site.mem_children_of_child? hchild)⟩
  unfold Context.calleeName? at h
  split at h
  · rename_i hk
    obtain rfl := Option.some.inj h
    exact ⟨hk, by rw [hk]; nofun, Or.inl rfl⟩
  · rename_i hk
    exact hpath (by rw [hk]; nofun) h
  · rename_i hk
    exact hpath (by rw [hk]; nofun) h
  · cases h

/-- All steps are possible. -/
def AllPossible (ctx : Context) (mode : Mode) (s : Site) (steps : List Step) : Prop :=
  ∀ step ∈ steps, step.Possible ctx mode s

namespace AllPossible

variable {xs ys : List Step} {sites : List Site} {mode' : Mode} {f : Field}

theorem nil : AllPossible ctx mode s [] := fun _ h => nomatch h

theorem append (hx : AllPossible ctx mode s xs) (hy : AllPossible ctx mode s ys) :
    AllPossible ctx mode s (xs ++ ys) := by
  intro step h
  rcases List.mem_append.mp h with h | h
  · exact hx step h
  · exact hy step h

theorem single {step : Step} (h : step.Possible ctx mode s) : AllPossible ctx mode s [step] :=
  fun _ hstep => List.mem_singleton.mp hstep ▸ h

theorem map {step : Site → Step} (h : ∀ t ∈ sites, (step t).Possible ctx mode s) :
    AllPossible ctx mode s (sites.map step) := by
  intro st hst
  obtain ⟨t, ht, rfl⟩ := List.mem_map.mp hst
  exact h t ht

theorem goAll (hs : s.kind ≠ .functionDefinition) (hsites : ∀ t ∈ sites, t ∈ s.children)
    (hmode : ∀ kind, mode' ≠ .types kind) :
    AllPossible ctx mode s (Context.goAll mode' sites) :=
  map fun t ht => .child hs (hsites t ht) hmode

theorem goTo (hs : s.kind ≠ .functionDefinition) (hmode : ∀ kind, mode' ≠ .types kind) :
    AllPossible ctx mode s (Context.goTo mode' s f) :=
  goAll hs (fun _ ht => Site.mem_children_of_child? (Option.mem_toList.mp ht)) hmode

theorem types {kind : TypeRefKind} (hs : s.types = (s.child? f).toList) :
    AllPossible ctx mode s (Context.goTo (.types kind) s f) :=
  map fun _ ht => .type (hs ▸ ht)

theorem parameterSteps {d : Site}
    (hd : s.functionDeclarator? = some d ∨ s = d ∧ d.kind = .functionDeclarator) :
    AllPossible ctx mode s (Context.parameterSteps d) := by
  unfold Context.parameterSteps
  cases hparams : d.child? .parameters with
  | none => exact nil
  | some params => exact map fun t ht => .parameter hd hparams ht

theorem functionSteps (hk : s.kind = .functionDefinition) :
    AllPossible ctx mode s (ctx.functionSteps s) := by
  refine ((append ?_ ?_).append ?_).append ?_
  · exact types (by rw [Site.types, hk])
  · split
    · rename_i d hd
      exact parameterSteps (Or.inl hd)
    · exact nil
  · refine map fun t ht => ?_
    obtain ⟨hc, hinit⟩ := List.mem_filter.mp ht
    exact .initializers hk hc (of_decide_eq_true hinit)
  · exact map fun t ht => .body hk (Option.mem_toList.mp ht)

theorem declarationSteps (hk : s.kind = .declaration ∨ s.kind = .fieldDeclaration) :
    AllPossible ctx mode s (Context.declarationSteps s) := by
  have hs : s.kind ≠ .functionDefinition := by
    rcases hk with hk | hk <;> rw [hk] <;> nofun
  have htypes : s.types = (s.child? .type).toList := by
    rcases hk with hk | hk <;> rw [Site.types, hk]
  unfold Context.declarationSteps
  split
  · rename_i d hd
    exact (types htypes).append (parameterSteps (Or.inl hd))
  · have hdeclarators : AllPossible ctx mode s
        (Context.goAll .declarator (s.childrenIn .declarator)) :=
      goAll hs (fun _ ht => List.mem_of_mem_filter ht) nofun
    have hdefault : AllPossible ctx mode s (Context.goTo .code s .defaultValue) := goTo hs nofun
    refine (append ?_ hdeclarators).append hdefault
    split
    · rename_i t ht
      exact single (.type (htypes ▸ Option.mem_toList.mpr ht))
    · exact nil

theorem plainCallSteps {f args : Site} (hk : s.kind = .callExpression) (hf : f ∈ s.children)
    (hargs : args ∈ s.children) : AllPossible ctx mode s (ctx.plainCallSteps f args) := by
  have hs : s.kind ≠ .functionDefinition := by rw [hk]; nofun
  unfold Context.plainCallSteps
  refine append ?_ (single (.child hs hargs nofun))
  cases hname : Context.calleeName? f with
  | some name =>
    refine append (map fun t ht => .templateArguments hk hf hname (Option.mem_toList.mp ht)) ?_
    dsimp only
    split
    · rename_i hapi
      exact single (.callee hk hf hname (.call (exists_of_calleeName? hname).1 hapi))
    · exact nil
  | none => exact single (.child hs hf nofun)

theorem callSteps (hk : s.kind = .callExpression) :
    AllPossible ctx mode s (ctx.callSteps s) := by
  unfold Context.callSteps
  split
  · rename_i f args hf hargs
    split
    · rename_i config hconfig
      exact single (.launch ⟨hk, hf, hargs, hconfig⟩)
    · exact plainCallSteps hk (Site.mem_children_of_child? hf) (Site.mem_children_of_child? hargs)
  · exact goAll (by rw [hk]; nofun) (fun _ ht => ht) nofun

theorem typeRef {kind : TypeRefKind} (hk : s.kind = .identifier ∨ s.kind = .typeIdentifier) :
    AllPossible ctx mode s
      ((ctx.typeRef (s.node.text ctx.source) s.span.start kind).map .found) := by
  unfold Context.typeRef
  split
  · rename_i hapi
    exact single (.found (.typeRef kind hk hapi))
  · exact nil

theorem codeSteps : AllPossible ctx mode s (ctx.codeSteps s) := by
  by_cases hdef : s.kind = .functionDefinition
  · have hsteps : ctx.codeSteps s = ctx.functionSteps s := by
      unfold Context.codeSteps
      rw [hdef]
    exact hsteps ▸ functionSteps hdef
  have all {sites : List Site} (h : ∀ t ∈ sites, t ∈ s.children) :
      AllPossible ctx mode s (Context.goAll .code sites) := goAll hdef h nofun
  have one {f : Field} : AllPossible ctx mode s (Context.goTo .code s f) := goTo hdef nofun
  unfold Context.codeSteps
  split
  case h_1 | h_2 | h_3 | h_4 | h_5 => exact nil
  case h_6 | h_7 | h_8 | h_9 => exact all fun _ ht => List.mem_of_mem_filter ht
  case h_10 hk => exact absurd hk hdef
  case h_11 hk => exact declarationSteps (Or.inl hk)
  case h_12 hk => exact declarationSteps (Or.inr hk)
  case h_13 hk | h_14 hk => exact (types (by rw [Site.types, hk])).append one
  case h_15 => exact one
  case h_16 => exact one.append one
  case h_17 hk => exact callSteps hk
  case h_18 hk =>
    split
    · rename_i m hm
      exact single (.found (.coordinate hk hm))
    · exact all fun _ ht => ht
  case h_19 hk => exact typeRef (Or.inl hk)
  case h_20 hk =>
    refine map fun t ht => .type ?_
    rwa [Site.types, hk]
  case h_21 hk | h_22 hk => exact single (.found (.literal (by rw [hk]; rfl)))
  case h_23 => exact all fun _ ht => ht

theorem typeSteps {kind : TypeRefKind} :
    AllPossible ctx (.types kind) s (ctx.typeSteps kind s) := by
  unfold Context.typeSteps
  split
  case h_1 hk => exact typeRef (Or.inr hk)
  case h_2 hk | h_3 hk => exact goAll (by rw [hk]; nofun) (fun _ ht => ht) nofun
  case h_4 hname hfields henumerators =>
    have hpart : s.kind.isTypePart = false := by
      unfold Kind.isTypePart
      split <;> first | contradiction | rfl
    exact map fun t ht => .typePart rfl hpart ht

theorem declaratorSteps : AllPossible ctx mode s (Context.declaratorSteps s) := by
  unfold Context.declaratorSteps
  split
  case h_1 hk | h_2 hk =>
    have hs : s.kind ≠ .functionDefinition := by rw [hk]; nofun
    have hinner : AllPossible ctx mode s (Context.goTo .declarator s .declarator) :=
      goTo hs nofun
    have hvalue {f : Field} : AllPossible ctx mode s (Context.goTo .code s f) := goTo hs nofun
    exact hinner.append hvalue
  case h_7 hk => exact parameterSteps (Or.inr ⟨rfl, hk⟩)
  case h_8 => exact nil
  case h_3 hk | h_4 hk | h_5 hk | h_6 hk =>
    exact goAll (by rw [hk]; nofun) (fun _ ht => List.mem_of_mem_filter ht) nofun

end AllPossible

/-- **A walk takes no other steps.** -/
theorem possible_of_mem_steps {step : Step} (h : step ∈ ctx.steps mode s) :
    step.Possible ctx mode s := by
  cases mode with
  | code => exact AllPossible.codeSteps step h
  | types kind => exact AllPossible.typeSteps step h
  | declarator => exact AllPossible.declaratorSteps step h

/-- A body is entered in the space of the function at which the walk stands. -/
theorem space_of_enter_mem {space : ExecSpace} (h : .enter space t ∈ ctx.steps mode s) :
    space = ExecSpace.ofSite ctx.neutral s := by
  cases possible_of_mem_steps h <;> rfl

/-- Only function definitions have parts that a walk may leave out. -/
theorem kind_of_enter_mem {space : ExecSpace} (h : .enter space t ∈ ctx.steps mode s) :
    s.kind = .functionDefinition := by
  cases possible_of_mem_steps h with
  | initializers hs | body hs => exact hs

end Constructs

end CudaToHip
