import CudaToHip.Proofs.Scan.TemplateArguments

/-!
# What a site shows

`Shows` has one rule for each kind of part that a walk goes on in: in which mode the site is looked
at and in which mode its part is.

* `shows_iff`: the rules are the steps of a walk, no more and no fewer.
-/

namespace CudaToHip

open CudaToHip.Tree

namespace Tree

namespace Kind

/-- Conditional directives. What they guard is code, their condition is not. -/
def isConditional : Kind → Bool
  | .ifDirective | .ifdefDirective | .elifDirective | .elifdefDirective => true
  | _ => false

/-- Declarations of variables or members, unless they declare a function. -/
def isVariables : Kind → Bool
  | .declaration | .fieldDeclaration => true
  | _ => false

/-- Declarations of parameters. -/
def isParameter : Kind → Bool
  | .parameterDeclaration | .optionalParameterDeclaration => true
  | _ => false

theorem isVariables_iff {k : Kind} :
    k.isVariables = true ↔ k = .declaration ∨ k = .fieldDeclaration := by
  cases k <;> simp [isVariables]

theorem isParameter_iff {k : Kind} :
    k.isParameter = true ↔ k = .parameterDeclaration ∨ k = .optionalParameterDeclaration := by
  cases k <;> simp [isParameter]

/-- Declarators that wrap another one. -/
def isWrapper : Kind → Bool
  | .pointerDeclarator | .referenceDeclarator | .parenthesizedDeclarator
  | .attributedDeclarator => true
  | _ => false

end Kind

namespace Site

/-- The kind of reference that a name in the type of a declaration is. -/
def typeKind? (s : Site) : Option TypeRefKind :=
  match s.kind with
  | .functionDefinition => some .returnType
  | .declaration | .fieldDeclaration =>
    if s.functionDeclarator?.isSome then some .returnType
    else if (s.child? .type).any (·.kind = .enumSpecifier) then some .enumVariable
    else some .structVariable
  | .parameterDeclaration | .optionalParameterDeclaration => some .parameter
  | _ => none

/-- The roles in which parts of a declaration, an enumerator or a loop are code. -/
def codeRoles (s : Site) : List Field :=
  match s.kind with
  | .declaration | .fieldDeclaration =>
    if s.functionDeclarator?.isSome then [] else [.defaultValue]
  | .parameterDeclaration | .optionalParameterDeclaration => [.defaultValue]
  | .enumerator => [.value]
  | .rangeFor => [.right, .body]
  | _ => []

variable {s : Site}

theorem typeKind?_of_isVariables (h : s.kind.isVariables = true) :
    s.typeKind? = if s.functionDeclarator?.isSome then some .returnType
      else if (s.child? .type).any (·.kind = .enumSpecifier) then some .enumVariable
      else some .structVariable := by
  rcases Kind.isVariables_iff.mp h with hk | hk <;> rw [typeKind?, hk]

theorem codeRoles_of_isVariables (h : s.kind.isVariables = true) :
    s.codeRoles = if s.functionDeclarator?.isSome then [] else [.defaultValue] := by
  rcases Kind.isVariables_iff.mp h with hk | hk <;> rw [codeRoles, hk]

theorem typeKind?_of_isParameter (h : s.kind.isParameter = true) :
    s.typeKind? = some .parameter := by
  rcases Kind.isParameter_iff.mp h with hk | hk <;> rw [typeKind?, hk]

theorem codeRoles_of_isParameter (h : s.kind.isParameter = true) :
    s.codeRoles = [.defaultValue] := by
  rcases Kind.isParameter_iff.mp h with hk | hk <;> rw [codeRoles, hk]

end Site

end Tree

namespace Constructs

variable {ctx : Context} {enters : ExecSpace → Bool} {s t u : Site} {mode mode' : Mode}
  {kind : TypeRefKind}

/-! ## What a site shows -/

/-- **The parts that a site shows** if it is looked at in a mode, and the modes in which they are
looked at. Bodies are shown if `enters` says so of their execution space. -/
inductive Shows (ctx : Context) (enters : ExecSpace → Bool) (s : Site) : Mode → Mode → Site → Prop
  /-- A part of a statement or an expression. -/
  | part {t : Site} : ctx.passes s = true → t ∈ s.children → Shows ctx enters s .code .code t
  /-- Code that a conditional directive guards. -/
  | guarded {t : Site} : s.kind.isConditional = true → t ∈ s.children →
      t.isFirstIn .name = false → t.isFirstIn .condition = false →
      Shows ctx enters s .code .code t
  /-- A default value, the value of an enumerator, the range of a loop or its body. -/
  | role {f : Field} {t : Site} : f ∈ s.codeRoles → s.child? f = some t →
      Shows ctx enters s .code .code t
  /-- The type of a declaration. -/
  | type {kind : TypeRefKind} {t : Site} : s.typeKind? = some kind → s.child? .type = some t →
      Shows ctx enters s .code (.types kind) t
  /-- A type in an expression. -/
  | named {t : Site} : s.kind = .typeDescriptor → t ∈ s.children →
      Shows ctx enters s .code (.types .typeExpression) t
  /-- A parameter of a function that is defined or declared. -/
  | parameter {d params t : Site} : KernelDecl.isDeclaration s = true →
      s.functionDeclarator? = some d → d.child? .parameters = some params →
      t ∈ params.namedChildren → Shows ctx enters s .code .code t
  /-- The body of a function. -/
  | body {t : Site} : s.kind = .functionDefinition →
      enters (ExecSpace.ofSite ctx.neutral s) = true → s.child? .body = some t →
      Shows ctx enters s .code .code t
  /-- The initializers of a constructor. -/
  | initializers {t : Site} : s.kind = .functionDefinition →
      enters (ExecSpace.ofSite ctx.neutral s) = true → t ∈ s.children →
      t.kind = .initializerList → Shows ctx enters s .code .code t
  /-- The declarator of a variable or member. -/
  | declarator {t : Site} : s.kind.isVariables = true → s.functionDeclarator? = none →
      t ∈ s.childrenIn .declarator → Shows ctx enters s .code .declarator t
  /-- The function of a plain call, if it is more than a name. -/
  | callee {t args : Site} : s.kind = .callExpression → ctx.isLaunch s = false →
      s.child? .function = some t → s.child? .arguments = some args →
      Context.calleeName? t = none → Shows ctx enters s .code .code t
  /-- The template arguments of a function that is called by its name. -/
  | templateArguments {f args name t : Site} : s.kind = .callExpression →
      ctx.isLaunch s = false → s.child? .function = some f → s.child? .arguments = some args →
      Context.calleeName? f = some name → f.child? .arguments = some t →
      Shows ctx enters s .code .code t
  /-- The arguments of a call or a launch. -/
  | arguments {f t : Site} : s.kind = .callExpression → s.child? .function = some f →
      s.child? .arguments = some t → Shows ctx enters s .code .code t
  /-- A part of a call that lacks its function or its arguments. -/
  | bare {t : Site} : s.kind = .callExpression →
      s.child? .function = none ∨ s.child? .arguments = none → t ∈ s.children →
      Shows ctx enters s .code .code t
  /-- A part of a type. -/
  | typePart {kind : TypeRefKind} {t : Site} : s.kind.isTypePart = false → t ∈ s.children →
      Shows ctx enters s (.types kind) (.types kind) t
  /-- A member of a type that is defined in place. -/
  | member {kind : TypeRefKind} {t : Site} : s.kind = .fieldList ∨ s.kind = .enumeratorList →
      t ∈ s.children → Shows ctx enters s (.types kind) .code t
  /-- What is declared with an initial value or as an array. -/
  | inner {t : Site} : s.kind = .initDeclarator ∨ s.kind = .arrayDeclarator →
      s.child? .declarator = some t → Shows ctx enters s .declarator .declarator t
  /-- An initial value. -/
  | value {t : Site} : s.kind = .initDeclarator → s.child? .value = some t →
      Shows ctx enters s .declarator .code t
  /-- The size of an array. -/
  | size {t : Site} : s.kind = .arrayDeclarator → s.child? .size = some t →
      Shows ctx enters s .declarator .code t
  /-- What a wrapping declarator declares. -/
  | wrapped {t : Site} : s.kind.isWrapper = true → t ∈ s.namedChildren →
      Shows ctx enters s .declarator .declarator t
  /-- A parameter of a function behind wrapping declarators. -/
  | innerParameter {params t : Site} : s.kind = .functionDeclarator →
      s.child? .parameters = some params → t ∈ params.namedChildren →
      Shows ctx enters s .declarator .code t

/-! ## The steps by the kind of a site -/

theorem codeSteps_of_isConditional (h : s.kind.isConditional = true) :
    ctx.codeSteps s = Context.goAll .code
      (s.children.filter fun c => !(c.isFirstIn .name || c.isFirstIn .condition)) := by
  unfold Context.codeSteps
  cases hk : s.kind <;> rw [hk] at h <;> first | rfl | cases h

theorem codeSteps_of_isVariables (h : s.kind.isVariables = true) :
    ctx.codeSteps s = Context.declarationSteps s := by
  rcases Kind.isVariables_iff.mp h with hk | hk <;> rw [Context.codeSteps, hk]

theorem isDeclaration_of_isVariables (h : s.kind.isVariables = true) :
    KernelDecl.isDeclaration s = true := by
  rcases Kind.isVariables_iff.mp h with hk | hk <;> rw [KernelDecl.isDeclaration, hk]

theorem codeSteps_of_isParameter (h : s.kind.isParameter = true) :
    ctx.codeSteps s =
      Context.goTo (.types .parameter) s .type ++ Context.goTo .code s .defaultValue := by
  rcases Kind.isParameter_iff.mp h with hk | hk <;> rw [Context.codeSteps, hk]

theorem declaratorSteps_of_isWrapper (h : s.kind.isWrapper = true) :
    Context.declaratorSteps s = Context.goAll .declarator s.namedChildren := by
  unfold Context.declaratorSteps
  cases hk : s.kind <;> rw [hk] at h <;> first | rfl | cases h

theorem codeSteps_of_functionDefinition (h : s.kind = .functionDefinition) :
    ctx.codeSteps s = ctx.functionSteps s := by rw [Context.codeSteps, h]

theorem codeSteps_of_callExpression (h : s.kind = .callExpression) :
    ctx.codeSteps s = ctx.callSteps s := by rw [Context.codeSteps, h]

theorem declarationSteps_of_none (h : s.functionDeclarator? = none) :
    Context.declarationSteps s =
      Context.goTo (.types (if (s.child? .type).any (·.kind = .enumSpecifier) then .enumVariable
          else .structVariable)) s .type ++
        Context.goAll .declarator (s.childrenIn .declarator) ++
        Context.goTo .code s .defaultValue := by
  rw [Context.declarationSteps, h]
  dsimp only
  cases ht : s.child? .type with
  | none => simp [Context.goTo, ht, Context.goAll]
  | some t => simp [Context.goTo, ht, Context.goAll]

theorem declarationSteps_of_some {d : Site} (h : s.functionDeclarator? = some d) :
    Context.declarationSteps s =
      Context.goTo (.types .returnType) s .type ++ Context.parameterSteps d := by
  rw [Context.declarationSteps, h]

/-! ## What a site shows, a walk goes on in -/

theorem mem_goTo {f : Field} (h : s.child? f = some t) : .go mode t ∈ Context.goTo mode s f := by
  rw [Context.goTo, h]
  exact List.mem_singleton_self _

theorem mem_parameterSteps {params : Site} (hparams : s.child? .parameters = some params)
    (ht : t ∈ params.namedChildren) : .go .code t ∈ Context.parameterSteps s := by
  rw [Context.parameterSteps, hparams]
  exact List.mem_map_of_mem ht

theorem mem_codeSteps_of_codeRoles {f : Field} (hf : f ∈ s.codeRoles) (ht : s.child? f = some t) :
    .go .code t ∈ ctx.codeSteps s := by
  have of_variables (hs : s.kind.isVariables = true) : .go .code t ∈ ctx.codeSteps s := by
    rw [Site.codeRoles_of_isVariables hs] at hf
    split at hf
    · cases hf
    · rename_i hnone
      obtain rfl := List.mem_singleton.mp hf
      rw [codeSteps_of_isVariables hs, declarationSteps_of_none (by simpa using hnone)]
      exact List.mem_append_right _ (mem_goTo ht)
  have of_parameter (hs : s.kind.isParameter = true) : .go .code t ∈ ctx.codeSteps s := by
    rw [Site.codeRoles_of_isParameter hs] at hf
    obtain rfl := List.mem_singleton.mp hf
    rw [codeSteps_of_isParameter hs]
    exact List.mem_append_right _ (mem_goTo ht)
  have hroles := hf
  unfold Site.codeRoles at hroles
  split at hroles
  case h_1 hk | h_2 hk => exact of_variables (by rw [hk]; rfl)
  case h_3 hk | h_4 hk => exact of_parameter (by rw [hk]; rfl)
  case h_5 hk =>
    obtain rfl := List.mem_singleton.mp hroles
    rw [Context.codeSteps, hk]
    exact mem_goTo ht
  case h_6 hk =>
    rw [Context.codeSteps, hk]
    rcases List.mem_cons.mp hroles with rfl | hroles
    · exact List.mem_append_left _ (mem_goTo ht)
    · obtain rfl := List.mem_singleton.mp hroles
      exact List.mem_append_right _ (mem_goTo ht)
  case h_7 => cases hroles

theorem mem_codeSteps_of_typeKind? (hkind : s.typeKind? = some kind)
    (ht : s.child? .type = some t) : .go (.types kind) t ∈ ctx.codeSteps s := by
  have of_variables (hs : s.kind.isVariables = true) : .go (.types kind) t ∈ ctx.codeSteps s := by
    rw [Site.typeKind?_of_isVariables hs] at hkind
    rw [codeSteps_of_isVariables hs]
    cases hd : s.functionDeclarator? with
    | some d =>
      obtain rfl : TypeRefKind.returnType = kind := by simpa [hd] using hkind
      rw [declarationSteps_of_some hd]
      exact List.mem_append_left _ (mem_goTo ht)
    | none =>
      rw [declarationSteps_of_none hd]
      refine List.mem_append_left _ (List.mem_append_left _ ?_)
      rw [hd, Option.isSome_none, if_neg Bool.false_ne_true, ← apply_ite some] at hkind
      rw [Option.some.inj hkind]
      exact mem_goTo ht
  have of_parameter (hs : s.kind.isParameter = true) :
      .go (.types kind) t ∈ ctx.codeSteps s := by
    rw [Site.typeKind?_of_isParameter hs] at hkind
    obtain rfl := Option.some.inj hkind
    rw [codeSteps_of_isParameter hs]
    exact List.mem_append_left _ (mem_goTo ht)
  have htype := hkind
  unfold Site.typeKind? at htype
  split at htype
  case h_1 hk =>
    obtain rfl := Option.some.inj htype
    rw [codeSteps_of_functionDefinition hk, Context.functionSteps]
    simp only [List.append_assoc]
    exact List.mem_append_left _ (mem_goTo ht)
  case h_2 hk | h_3 hk => exact of_variables (by rw [hk]; rfl)
  case h_4 hk | h_5 hk => exact of_parameter (by rw [hk]; rfl)
  case h_6 => cases htype

theorem mem_codeSteps_of_parameterSteps {d : Site} {step : Step}
    (hs : KernelDecl.isDeclaration s = true) (hd : s.functionDeclarator? = some d)
    (hstep : step ∈ Context.parameterSteps d) : step ∈ ctx.codeSteps s := by
  have of_variables (hk : s.kind.isVariables = true) : step ∈ ctx.codeSteps s := by
    rw [codeSteps_of_isVariables hk, declarationSteps_of_some hd]
    exact List.mem_append_right _ hstep
  unfold KernelDecl.isDeclaration at hs
  split at hs
  case h_1 hk =>
    rw [codeSteps_of_functionDefinition hk, Context.functionSteps, hd]
    dsimp only
    simp only [List.append_assoc]
    exact List.mem_append_right _ (List.mem_append_left _ hstep)
  case h_2 hk | h_3 hk => exact of_variables (by rw [hk]; rfl)
  case h_4 => cases hs

/-- A call that is no launch is a plain one. -/
theorem callSteps_of_plain {f args : Site} (hk : s.kind = .callExpression)
    (hplain : ctx.isLaunch s = false) (hf : s.child? .function = some f)
    (hargs : s.child? .arguments = some args) : ctx.callSteps s = ctx.plainCallSteps f args := by
  rw [callSteps_of_not_isLaunch hk hplain hf, hargs]

/-- **A walk goes on in what a site shows.** -/
theorem Shows.exists_step (h : Shows ctx enters s mode mode' t) :
    ∃ step ∈ ctx.steps mode s, step.next? enters = some (mode', t) := by
  have go {mode' : Mode} (h : .go mode' t ∈ ctx.steps mode s) :
      ∃ step ∈ ctx.steps mode s, step.next? enters = some (mode', t) := ⟨_, h, rfl⟩
  cases h with
  | part hs ht =>
    refine go ?_
    rw [Context.steps, codeSteps_of_passes hs]
    exact List.mem_map_of_mem ht
  | guarded hs ht hname hcondition =>
    refine go ?_
    rw [Context.steps, codeSteps_of_isConditional hs]
    exact List.mem_map_of_mem (List.mem_filter.mpr ⟨ht, by simp [hname, hcondition]⟩)
  | role hf ht => exact go (mem_codeSteps_of_codeRoles hf ht)
  | type hkind ht => exact go (mem_codeSteps_of_typeKind? hkind ht)
  | named hk ht =>
    refine go ?_
    rw [Context.steps, Context.codeSteps, hk]
    exact List.mem_map_of_mem ht
  | parameter hs hd hparams ht =>
    exact go (mem_codeSteps_of_parameterSteps hs hd (mem_parameterSteps hparams ht))
  | body hk henters ht =>
    refine ⟨.enter _ t, ?_, by rw [Step.next?, if_pos henters]⟩
    rw [Context.steps, codeSteps_of_functionDefinition hk, Context.functionSteps, ht]
    exact List.mem_append_right _ (List.mem_singleton_self _)
  | initializers hk henters ht hinit =>
    refine ⟨.enter _ t, ?_, by rw [Step.next?, if_pos henters]⟩
    rw [Context.steps, codeSteps_of_functionDefinition hk, Context.functionSteps]
    exact List.mem_append_left _ (List.mem_append_right _
      (List.mem_map_of_mem (List.mem_filter.mpr ⟨ht, decide_eq_true hinit⟩)))
  | declarator hs hd ht =>
    refine go ?_
    rw [Context.steps, codeSteps_of_isVariables hs, declarationSteps_of_none hd]
    exact List.mem_append_left _ (List.mem_append_right _ (List.mem_map_of_mem ht))
  | callee hk hplain hf hargs hname =>
    refine go ?_
    rw [Context.steps, codeSteps_of_callExpression hk, callSteps_of_plain hk hplain hf hargs,
      Context.plainCallSteps, hname]
    exact List.mem_append_left _ (List.mem_singleton_self _)
  | templateArguments hk hplain hf hargs hname ht =>
    refine go ?_
    rw [Context.steps, codeSteps_of_callExpression hk, callSteps_of_plain hk hplain hf hargs,
      Context.plainCallSteps, hname]
    exact List.mem_append_left _ (List.mem_append_left _ (mem_goTo ht))
  | arguments hk hf hargs =>
    cases hlaunch : ctx.isLaunch s with
    | true =>
      obtain ⟨f, args, config, h⟩ := exists_launchAt hlaunch
      obtain rfl := Option.some.inj (hargs.symm.trans h.inArguments)
      refine ⟨.launch (ctx.launchOf s f t config) (ctx.ofConfig config) t, ?_, rfl⟩
      rw [h.steps_eq]
      exact List.mem_singleton_self _
    | false =>
      refine go ?_
      rw [Context.steps, codeSteps_of_callExpression hk, callSteps_of_plain hk hlaunch hf hargs]
      exact List.mem_append_right _ (List.mem_singleton_self _)
  | bare hk hnone ht =>
    refine go ?_
    rw [Context.steps, codeSteps_of_callExpression hk, Context.callSteps]
    split
    · rename_i f args hf hargs
      rw [hf, hargs] at hnone
      rcases hnone with h | h <;> cases h
    · exact List.mem_map_of_mem ht
  | typePart hpart ht =>
    refine go ?_
    rw [Context.steps, typeSteps_of_not_isTypePart hpart]
    exact List.mem_map_of_mem ht
  | member hk ht =>
    refine go ?_
    rcases hk with hk | hk
    all_goals
      rw [Context.steps, Context.typeSteps, hk]
      exact List.mem_map_of_mem ht
  | inner hk ht =>
    refine go ?_
    rcases hk with hk | hk
    all_goals
      rw [Context.steps, Context.declaratorSteps, hk]
      exact List.mem_append_left _ (mem_goTo ht)
  | value hk ht | size hk ht =>
    refine go ?_
    rw [Context.steps, Context.declaratorSteps, hk]
    exact List.mem_append_right _ (mem_goTo ht)
  | wrapped hs ht =>
    refine go ?_
    rw [Context.steps, declaratorSteps_of_isWrapper hs]
    exact List.mem_map_of_mem ht
  | innerParameter hk hparams ht =>
    refine go ?_
    rw [Context.steps, Context.declaratorSteps, hk]
    exact mem_parameterSteps hparams ht

/-! ## What a walk goes on in, the site shows -/

/-- Where the steps go on, the site shows what they lead to. -/
def AllShown (ctx : Context) (enters : ExecSpace → Bool) (s : Site) (mode : Mode)
    (steps : List Step) : Prop :=
  ∀ step ∈ steps, ∀ mode' t, step.next? enters = some (mode', t) →
    Shows ctx enters s mode mode' t

namespace AllShown

variable {xs ys : List Step} {sites : List Site} {f : Field}

theorem nil : AllShown ctx enters s mode [] := fun _ h => nomatch h

theorem append (hx : AllShown ctx enters s mode xs) (hy : AllShown ctx enters s mode ys) :
    AllShown ctx enters s mode (xs ++ ys) := by
  intro step h
  rcases List.mem_append.mp h with h | h
  · exact hx step h
  · exact hy step h

theorem found {m : Match} : AllShown ctx enters s mode [.found m] := by
  intro step h mode' t hnext
  obtain rfl := List.mem_singleton.mp h
  cases hnext

theorem single (h : Shows ctx enters s mode mode' t) :
    AllShown ctx enters s mode [.go mode' t] := by
  intro step hstep mode'' u hnext
  obtain rfl := List.mem_singleton.mp hstep
  cases hnext
  exact h

theorem goAll (h : ∀ t ∈ sites, Shows ctx enters s mode mode' t) :
    AllShown ctx enters s mode (Context.goAll mode' sites) := by
  intro step hstep mode'' u hnext
  obtain ⟨_, ht, rfl⟩ := List.mem_map.mp hstep
  cases hnext
  exact h _ ht

theorem goTo (h : ∀ t, s.child? f = some t → Shows ctx enters s mode mode' t) :
    AllShown ctx enters s mode (Context.goTo mode' s f) :=
  goAll fun t ht => h t (Option.mem_toList.mp ht)

theorem enter {space : ExecSpace}
    (h : ∀ t ∈ sites, enters space = true → Shows ctx enters s mode .code t) :
    AllShown ctx enters s mode (sites.map (.enter space)) := by
  intro step hstep mode' u hnext
  obtain ⟨_, ht, rfl⟩ := List.mem_map.mp hstep
  rw [Step.next?, Option.ite_none_right_eq_some] at hnext
  obtain ⟨henters, hnext⟩ := hnext
  cases hnext
  exact h _ ht henters

/-- Parameters, as far as the declarator has a list of them. -/
theorem parameterSteps {d : Site} (h : ∀ params, d.child? .parameters = some params →
    ∀ t ∈ params.namedChildren, Shows ctx enters s mode .code t) :
    AllShown ctx enters s mode (Context.parameterSteps d) := by
  unfold Context.parameterSteps
  split
  · rename_i params hparams
    exact goAll (h params hparams)
  · exact nil

theorem functionSteps (hk : s.kind = .functionDefinition) :
    AllShown ctx enters s .code (ctx.functionSteps s) := by
  refine ((append (goTo fun t ht => ?_) ?_).append ?_).append ?_
  · exact .type (by rw [Site.typeKind?, hk]) ht
  · split
    · rename_i d hd
      refine parameterSteps fun params hparams t ht => ?_
      exact .parameter (by rw [KernelDecl.isDeclaration, hk]) hd hparams ht
    · exact nil
  · refine enter fun t ht henters => ?_
    obtain ⟨hc, hinit⟩ := List.mem_filter.mp ht
    exact .initializers hk henters hc (of_decide_eq_true hinit)
  · exact enter fun t ht henters => .body hk henters (Option.mem_toList.mp ht)

theorem declarationSteps (hs : s.kind.isVariables = true) :
    AllShown ctx enters s .code (Context.declarationSteps s) := by
  have htype := Site.typeKind?_of_isVariables hs
  have hroles := Site.codeRoles_of_isVariables hs
  cases hd : s.functionDeclarator? with
  | some d =>
    rw [hd] at htype
    rw [declarationSteps_of_some hd]
    refine append (goTo fun t ht => .type htype ht) (parameterSteps fun params hparams t ht => ?_)
    exact .parameter (isDeclaration_of_isVariables hs) hd hparams ht
  | none =>
    rw [hd, Option.isSome_none, if_neg Bool.false_ne_true] at htype hroles
    rw [declarationSteps_of_none hd]
    refine (append (goTo fun t ht => ?_) ?_).append ?_
    · exact .type (by rw [htype, ← apply_ite some]) ht
    · exact goAll fun t ht => .declarator hs hd ht
    · exact goTo fun t ht => .role (by rw [hroles]; exact List.mem_singleton_self _) ht

theorem callSteps (hk : s.kind = .callExpression) :
    AllShown ctx enters s .code (ctx.callSteps s) := by
  cases hf : s.child? .function with
  | none =>
    rw [Context.callSteps, hf]
    exact goAll fun t ht => .bare hk (Or.inl hf) ht
  | some f =>
    cases hargs : s.child? .arguments with
    | none =>
      rw [Context.callSteps, hf, hargs]
      exact goAll fun t ht => .bare hk (Or.inr hargs) ht
    | some args =>
      have harguments : Shows ctx enters s .code .code args := .arguments hk hf hargs
      cases hlaunch : ctx.isLaunch s with
      | true =>
        obtain ⟨f', args', config, h⟩ := exists_launchAt hlaunch
        obtain rfl := Option.some.inj (hargs.symm.trans h.inArguments)
        have hsteps : ctx.callSteps s = _ := (codeSteps_of_callExpression hk).symm.trans h.steps_eq
        rw [hsteps]
        intro step hstep mode' t hnext
        obtain rfl := List.mem_singleton.mp hstep
        cases hnext
        exact harguments
      | false =>
        rw [callSteps_of_plain hk hlaunch hf hargs, Context.plainCallSteps]
        refine append ?_ (single harguments)
        cases hname : Context.calleeName? f with
        | none => exact single (.callee hk hlaunch hf hargs hname)
        | some name =>
          refine append (goAll fun t ht => ?_) ?_
          · exact .templateArguments hk hlaunch hf hargs hname (Option.mem_toList.mp ht)
          · dsimp only
            split
            · exact found
            · exact nil

theorem typeRef (kind : TypeRefKind) : AllShown ctx enters s mode
    ((ctx.typeRef (s.node.text ctx.source) s.span.start kind).map .found) := by
  unfold Context.typeRef
  split
  · exact found
  · exact nil

theorem codeSteps : AllShown ctx enters s .code (ctx.codeSteps s) := by
  have guarded (hs : s.kind.isConditional = true) : AllShown ctx enters s .code (Context.goAll .code
      (s.children.filter fun c => !(c.isFirstIn .name || c.isFirstIn .condition))) := by
    refine goAll fun t ht => ?_
    obtain ⟨hc, hskip⟩ := List.mem_filter.mp ht
    rw [Bool.not_eq_true', Bool.or_eq_false_iff] at hskip
    exact .guarded hs hc hskip.1 hskip.2
  have part (hs : ctx.passes s = true) :
      AllShown ctx enters s .code (Context.goAll .code s.children) :=
    goAll fun t ht => .part hs ht
  have role {f : Field} (hf : f ∈ s.codeRoles) :
      AllShown ctx enters s .code (Context.goTo .code s f) := goTo fun t ht => .role hf ht
  have parameterType (h : s.typeKind? = some .parameter) :
      AllShown ctx enters s .code (Context.goTo (.types .parameter) s .type) :=
    goTo fun t ht => .type h ht
  unfold Context.codeSteps
  split
  case h_1 | h_2 | h_3 | h_4 | h_5 => exact nil
  case h_6 hk | h_7 hk | h_8 hk | h_9 hk => exact guarded (by rw [hk]; rfl)
  case h_10 hk => exact functionSteps hk
  case h_11 hk | h_12 hk => exact declarationSteps (by rw [hk]; rfl)
  case h_13 hk | h_14 hk =>
    exact (parameterType (by rw [Site.typeKind?, hk])).append (role (by simp [Site.codeRoles, hk]))
  case h_15 hk => exact role (by simp [Site.codeRoles, hk])
  case h_16 hk =>
    exact (role (by simp [Site.codeRoles, hk])).append (role (by simp [Site.codeRoles, hk]))
  case h_17 hk => exact callSteps hk
  case h_18 hk =>
    split
    · exact found
    · rename_i hnone
      exact part (by simp [Context.passes, Context.readsCoordinate, hk, hnone])
  case h_19 => exact typeRef _
  case h_20 hk => exact goAll fun t ht => .named hk ht
  case h_21 | h_22 => exact found
  case h_23 =>
    have hpassed : s.kind.isPassed = true := by
      unfold Kind.isPassed
      split <;> first | contradiction | rfl
    exact part (by rw [Context.passes, hpassed, Bool.true_or])

theorem typeSteps : AllShown ctx enters s (.types kind) (ctx.typeSteps kind s) := by
  unfold Context.typeSteps
  split
  case h_1 => exact typeRef _
  case h_2 hk => exact goAll fun t ht => .member (Or.inl hk) ht
  case h_3 hk => exact goAll fun t ht => .member (Or.inr hk) ht
  case h_4 =>
    have hpart : s.kind.isTypePart = false := by
      unfold Kind.isTypePart
      split <;> first | contradiction | rfl
    exact goAll fun t ht => .typePart hpart ht

theorem declaratorSteps : AllShown ctx enters s .declarator (Context.declaratorSteps s) := by
  have wrapped (hs : s.kind.isWrapper = true) :
      AllShown ctx enters s .declarator (Context.goAll .declarator s.namedChildren) :=
    goAll fun t ht => .wrapped hs ht
  unfold Context.declaratorSteps
  split
  case h_1 hk =>
    exact (goTo fun t ht => .inner (Or.inl hk) ht).append (goTo fun t ht => .value hk ht)
  case h_2 hk =>
    exact (goTo fun t ht => .inner (Or.inr hk) ht).append (goTo fun t ht => .size hk ht)
  case h_3 hk | h_4 hk | h_5 hk | h_6 hk => exact wrapped (by rw [hk]; rfl)
  case h_7 hk => exact parameterSteps fun params hparams t ht => .innerParameter hk hparams ht
  case h_8 => exact nil

end AllShown

/-- **What a site shows is what a walk goes on in.** -/
theorem shows_iff : Shows ctx enters s mode mode' t ↔
    ∃ step ∈ ctx.steps mode s, step.next? enters = some (mode', t) := by
  constructor
  · exact Shows.exists_step
  · rintro ⟨step, hstep, hnext⟩
    cases mode with
    | code => exact AllShown.codeSteps step hstep mode' t hnext
    | types kind => exact AllShown.typeSteps step hstep mode' t hnext
    | declarator => exact AllShown.declaratorSteps step hstep mode' t hnext

end Constructs

end CudaToHip
