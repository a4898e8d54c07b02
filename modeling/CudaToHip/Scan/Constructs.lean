import CudaToHip.Scan.Kernels

/-!
# Constructs in a tree

The walk that finds calls, launches, builtins, names and literals. What happens at a single node is
said by `steps`: for each kind of node, in which order matches are reported and which sites are
visited next, and in which mode. `walk` follows the steps. Every step leads to a smaller tree
(`steps_below`), so the walk ends on every tree.

A body of a function is entered only if its execution space is visible in the view. What is found in
the arguments of a launch goes into the launch, not next to it.
-/

namespace CudaToHip

open CudaToHip.Tree

namespace Constructs

/-- What a walk knows about the file. -/
structure Context where
  source : String
  neutral : Neutralized
  kernels : List KernelDecl
  /-- What names of the source API begin with. -/
  stem : String
  /-- What members of coordinate objects begin with. -/
  memberStem : String

/-- What a walk is looking at. -/
inductive Mode where
  /-- Statements and expressions. -/
  | code
  /-- A type; names in it are reported as the given kind of reference. -/
  | types (kind : TypeRefKind)
  /-- A declarator: what it declares is no reference. -/
  | declarator
  deriving Repr, DecidableEq

/-- One step of a walk at a node. -/
inductive Step where
  | found (m : Match)
  | go (mode : Mode) (site : Site)
  /-- Go on in a function body that runs in the given space. -/
  | enter (space : ExecSpace) (site : Site)
  /-- A launch with the matches in its configuration; go on in its arguments. -/
  | launch (launch : Launch) (config : List Match) (arguments : Site)

/-- The site a step leads to. -/
def Step.site? : Step → Option Site
  | .found _ => none
  | .go _ s | .enter _ s | .launch _ _ s => some s

/-- Declared types of the parameters of a launch configuration, in order. -/
def configTypes : List String := ["dim3", "dim3", "size_t", "cudaStream_t"]

/-- The objects with a thread's coordinates and the dimensions they live in. -/
def coordinateObjects : List String := ["threadIdx", "blockIdx", "blockDim", "gridDim"]

def coordinateMembers : List Char := ['x', 'y', 'z']

namespace Context

variable (ctx : Context)

/-- The name belongs to the source API. -/
def isApiName (name : String) : Bool :=
  ctx.stem ≠ "" && ctx.stem.toList.isPrefixOf name.toList

/-! ## Matches at a single place -/

/-- A name at an offset, if it belongs to the source API. -/
def typeRef (name : String) (offset : Nat) (kind : TypeRefKind) : List Match :=
  if ctx.isApiName name then [.typeRef name (.direct offset) kind] else []

/-- A coordinate written as `object.member` without blanks. -/
def coordinate? (s : Site) : Option Match :=
  let text := (s.node.text ctx.source).toList
  let object := String.ofList (text.takeWhile (· ≠ '.'))
  match text.dropWhile (· ≠ '.') with
  | ['.', member] =>
    if coordinateObjects.contains object ∧ coordinateMembers.contains member then
      some (.builtin (some object) (ctx.memberStem ++ String.singleton member)
        (.direct s.span.start))
    else none
  | _ => none

/-- Matches among the tokens of a configuration argument, where `last` stands before them. The
configuration is blanked out of the tree, so its tokens are matched directly. -/
def ofConfigTokens (last : Option Token) : List Token → List Match
  | [] => []
  | t :: ts =>
    let here : List Match :=
      match t.kind with
      | .string => [.stringLiteral t.text t.span]
      | .identifier =>
        if last.any (·.isPunctIn [".", "->"]) || !ctx.isApiName t.text then []
        else if ts.head?.any (·.isPunct "(") then [.call t.text (.direct t.start)]
        else [.typeRef t.text (.direct t.start) .enumConstant]
      | _ => []
    here ++ ofConfigTokens (some t) ts

/-- Matches in a launch configuration. -/
def ofConfig (config : LaunchConfig) : List Match :=
  config.args.flatMap fun arg => ctx.ofConfigTokens none (tokenizeIn ctx.source arg.span)

/-- The arguments of a configuration with the types they bind to. What is left out of the declared
parameters takes its default. -/
def configArgs (config : LaunchConfig) : List ConfigArg :=
  (List.range (max config.args.length configTypes.length)).map fun i =>
    match config.args[i]? with
    | some arg => .written arg (configTypes[i]?.getD "")
    | none => .defaulted

/-- The launch of `function` on `arguments` that is spelled by the site `s`. -/
def launchOf (s function arguments : Site) (config : LaunchConfig) : Launch where
  callee := function.node.text ctx.source
  paramLists :=
    let name := function.node.baseName ctx.source
    (ctx.kernels.filter (·.name = name)).map (·.params)
  configArgs := configArgs config
  launchArgs :=
    (arguments.namedChildren.filter (·.kind ≠ .comment)).map fun a =>
      ⟨a.span, a.node.text ctx.source⟩
  span := s.span

/-! ## Steps -/

/-- Go on in all of the given sites. -/
def goAll (mode : Mode) (sites : List Site) : List Step := sites.map (.go mode)

/-- Go on in the first child in a role, if there is one. -/
def goTo (mode : Mode) (s : Site) (f : Field) : List Step := goAll mode (s.child? f).toList

/-- Go on in the parameters of a function declarator. -/
def parameterSteps (declarator : Site) : List Step :=
  match declarator.child? .parameters with
  | some params => goAll .code params.namedChildren
  | none => []

/-- A function definition: its type and parameters, then, as far as its space is visible, its
initializers and its body. -/
def functionSteps (s : Site) : List Step :=
  let space := ExecSpace.ofSite ctx.neutral s
  goTo (.types .returnType) s .type ++
    (match s.functionDeclarator? with
      | some d => parameterSteps d
      | none => []) ++
    (s.children.filter (·.kind = .initializerList)).map (.enter space) ++
    (s.child? .body).toList.map (.enter space)

/-- A declaration of a function or of variables. -/
def declarationSteps (s : Site) : List Step :=
  match s.functionDeclarator? with
  | some d => goTo (.types .returnType) s .type ++ parameterSteps d
  | none =>
    (match s.child? .type with
      | some t =>
        [.go (.types (if t.kind = .enumSpecifier then .enumVariable else .structVariable)) t]
      | none => []) ++
    goAll .declarator (s.childrenIn .declarator) ++
    goTo .code s .defaultValue

/-- The name that a directly called function is called by. -/
def calleeName? (function : Site) : Option Site :=
  match function.kind with
  | .identifier => some function
  | .templateFunction | .qualifiedIdentifier =>
    (function.child? .name).filter (·.kind = .identifier)
  | _ => none

/-- A call without a launch configuration: template arguments, the name, the arguments. -/
def plainCallSteps (function arguments : Site) : List Step :=
  (match calleeName? function with
    | some name =>
      goTo .code function .arguments ++
        (let text := name.node.text ctx.source
         if ctx.isApiName text then [.found (.call text (.direct name.span.start))] else [])
    | none => [.go .code function]) ++
  [.go .code arguments]

/-- A call, which is a launch if a configuration stands before its arguments. -/
def callSteps (s : Site) : List Step :=
  match s.child? .function, s.child? .arguments with
  | some function, some arguments =>
    match ctx.neutral.launchIn? ⟨function.span.stop, arguments.span.start⟩ with
    | some config =>
      [.launch (ctx.launchOf s function arguments config) (ctx.ofConfig config) arguments]
    | none => ctx.plainCallSteps function arguments
  | _, _ => goAll .code s.children

/-- Steps in statements and expressions. -/
def codeSteps (s : Site) : List Step :=
  match s.kind with
  | .includeDirective | .defineDirective | .functionDefineDirective | .definedOperator
  | .comment => []
  | .ifDirective | .ifdefDirective | .elifDirective | .elifdefDirective =>
    goAll .code (s.children.filter fun c => !(c.isFirstIn .name || c.isFirstIn .condition))
  | .functionDefinition => ctx.functionSteps s
  | .declaration | .fieldDeclaration => declarationSteps s
  | .parameterDeclaration | .optionalParameterDeclaration =>
    goTo (.types .parameter) s .type ++ goTo .code s .defaultValue
  | .enumerator => goTo .code s .value
  | .rangeFor => goTo .code s .right ++ goTo .code s .body
  | .callExpression => ctx.callSteps s
  | .fieldExpression =>
    match ctx.coordinate? s with
    | some m => [.found m]
    | none => goAll .code s.children
  | .identifier =>
    (ctx.typeRef (s.node.text ctx.source) s.span.start .enumConstant).map .found
  | .typeDescriptor => goAll (.types .typeExpression) s.children
  | .stringLiteral | .rawStringLiteral =>
    [.found (.stringLiteral (s.node.text ctx.source) s.span)]
  | _ => goAll .code s.children

/-- Steps in a type. The members of a type defined in place are code. -/
def typeSteps (kind : TypeRefKind) (s : Site) : List Step :=
  match s.kind with
  | .typeIdentifier => (ctx.typeRef (s.node.text ctx.source) s.span.start kind).map .found
  | .fieldList | .enumeratorList => goAll .code s.children
  | _ => goAll (.types kind) s.children

/-- Steps in a declarator. -/
def declaratorSteps (s : Site) : List Step :=
  match s.kind with
  | .initDeclarator => goTo .declarator s .declarator ++ goTo .code s .value
  | .arrayDeclarator => goTo .declarator s .declarator ++ goTo .code s .size
  | .pointerDeclarator | .referenceDeclarator | .parenthesizedDeclarator
  | .attributedDeclarator => goAll .declarator s.namedChildren
  | .functionDeclarator => parameterSteps s
  | _ => []

def steps : Mode → Site → List Step
  | .code, s => ctx.codeSteps s
  | .types kind, s => ctx.typeSteps kind s
  | .declarator, s => declaratorSteps s

end Context

/-! ## Every step goes down -/

/-- All steps lead below the site. -/
def GoBelow (s : Site) (steps : List Step) : Prop :=
  ∀ step ∈ steps, ∀ t, step.site? = some t → t.Below s

namespace GoBelow

variable {s u : Site} {xs ys : List Step}

theorem nil : GoBelow s [] := by simp [GoBelow]

theorem append (hx : GoBelow s xs) (hy : GoBelow s ys) : GoBelow s (xs ++ ys) := by
  intro step h
  rcases List.mem_append.mp h with h | h
  · exact hx step h
  · exact hy step h

theorem mono (h : GoBelow u xs) (hu : u.Below s) : GoBelow s xs :=
  fun step hm t ht => (h step hm t ht).trans hu

theorem goAll {mode : Mode} {sites : List Site} (h : ∀ t ∈ sites, t.Below s) :
    GoBelow s (Context.goAll mode sites) := by
  intro step hm t ht
  obtain ⟨u, hu, rfl⟩ := List.mem_map.mp hm
  exact Option.some.inj ht ▸ h u hu

theorem goTo {mode : Mode} {f : Field} : GoBelow s (Context.goTo mode s f) :=
  goAll fun _ h => Site.below_of_child? (Option.mem_toList.mp h)

theorem found {ms : List Match} : GoBelow s (ms.map .found) := by
  intro step hm t ht
  obtain ⟨m, _, rfl⟩ := List.mem_map.mp hm
  cases ht

theorem single {step : Step} (h : ∀ t, step.site? = some t → t.Below s) :
    GoBelow s [step] := by
  intro st hm
  obtain rfl := List.mem_singleton.mp hm
  exact h

theorem foundOne {m : Match} : GoBelow s [.found m] := single fun _ h => nomatch h

theorem enter {space : ExecSpace} {sites : List Site} (h : ∀ t ∈ sites, t.Below s) :
    GoBelow s (sites.map (.enter space)) := by
  intro step hm t ht
  obtain ⟨u, hu, rfl⟩ := List.mem_map.mp hm
  exact Option.some.inj ht ▸ h u hu

theorem children {mode : Mode} : GoBelow s (Context.goAll mode s.children) :=
  goAll fun _ h => Site.below_of_mem_children h

theorem parameterSteps : GoBelow s (Context.parameterSteps s) := by
  unfold Context.parameterSteps
  split
  · rename_i p hp
    exact (goAll fun _ h => Site.below_of_mem_namedChildren h).mono (Site.below_of_child? hp)
  · exact nil

theorem functionSteps (ctx : Context) : GoBelow s (ctx.functionSteps s) := by
  refine ((goTo.append ?_).append ?_).append ?_
  · split
    · rename_i d hd
      exact parameterSteps.mono (Site.below_of_functionDeclarator? hd)
    · exact nil
  · exact enter fun _ h => Site.below_of_mem_children (List.mem_filter.mp h).1
  · exact enter fun _ h => Site.below_of_child? (Option.mem_toList.mp h)

theorem declarationSteps : GoBelow s (Context.declarationSteps s) := by
  unfold Context.declarationSteps
  split
  · rename_i d hd
    exact goTo.append (parameterSteps.mono (Site.below_of_functionDeclarator? hd))
  · refine (append ?_ (goAll fun _ h => Site.below_of_mem_childrenIn h)).append goTo
    split
    · rename_i t ht
      exact single fun _ h => Option.some.inj h ▸ Site.below_of_child? ht
    · exact nil

theorem plainCallSteps (ctx : Context) {f a : Site} (hf : f.Below s) (ha : a.Below s) :
    GoBelow s (ctx.plainCallSteps f a) := by
  refine append ?_ (single fun _ h => Option.some.inj h ▸ ha)
  split
  · refine (goTo.mono hf).append ?_
    dsimp only
    split
    · exact foundOne
    · exact nil
  · exact single fun _ h => Option.some.inj h ▸ hf

theorem callSteps (ctx : Context) : GoBelow s (ctx.callSteps s) := by
  unfold Context.callSteps
  split
  · rename_i f a hf ha
    split
    · exact single fun _ h => Option.some.inj h ▸ Site.below_of_child? ha
    · exact plainCallSteps ctx (Site.below_of_child? hf) (Site.below_of_child? ha)
  · exact children

theorem coordinateSteps (ctx : Context) :
    GoBelow s (match ctx.coordinate? s with
      | some m => [.found m]
      | none => Context.goAll .code s.children) := by
  split
  · exact foundOne
  · exact children

theorem codeSteps (ctx : Context) : GoBelow s (ctx.codeSteps s) := by
  unfold Context.codeSteps
  split
  case h_1 | h_2 | h_3 | h_4 | h_5 => exact nil
  case h_6 | h_7 | h_8 | h_9 =>
    exact goAll fun _ h => Site.below_of_mem_children (List.mem_filter.mp h).1
  case h_10 => exact functionSteps ctx
  case h_11 | h_12 => exact declarationSteps
  case h_13 | h_14 | h_16 => exact goTo.append goTo
  case h_15 => exact goTo
  case h_17 => exact callSteps ctx
  case h_18 => exact coordinateSteps ctx
  case h_19 => exact found
  case h_21 | h_22 => exact foundOne
  case h_20 | h_23 => exact children

theorem typeSteps (ctx : Context) (kind : TypeRefKind) : GoBelow s (ctx.typeSteps kind s) := by
  unfold Context.typeSteps
  split
  · exact found
  · exact children
  · exact children
  · exact children

theorem declaratorSteps : GoBelow s (Context.declaratorSteps s) := by
  unfold Context.declaratorSteps
  split
  case h_1 => exact goTo.append goTo
  case h_2 => exact goTo.append goTo
  case h_7 => exact parameterSteps
  case h_8 => exact nil
  all_goals exact goAll fun _ h => Site.below_of_mem_namedChildren h

end GoBelow

/-- **Every step of a walk leads to a smaller tree.** -/
theorem steps_below (ctx : Context) (mode : Mode) (s : Site) : GoBelow s (ctx.steps mode s) := by
  cases mode with
  | code => exact GoBelow.codeSteps ctx
  | types kind => exact GoBelow.typeSteps ctx kind
  | declarator => exact GoBelow.declaratorSteps

/-! ## The walk -/

/-- The matches at and below a site, in the order of the steps. A function body is entered if
`enters` says so of its execution space. -/
def walk (ctx : Context) (enters : ExecSpace → Bool) (mode : Mode) (s : Site) : List Match :=
  (ctx.steps mode s).attach.flatMap fun ⟨step, h⟩ =>
    match step, h with
    | .found m, _ => [m]
    | .go mode' t, _ => walk ctx enters mode' t
    | .enter space t, _ => if enters space then walk ctx enters .code t else []
    | .launch l config t, _ => [.launch l (config ++ walk ctx enters .code t)]
termination_by sizeOf s.node
decreasing_by all_goals exact steps_below ctx mode s _ ‹_› _ rfl

/-- The matches of a tree under a view. -/
def scan (ctx : Context) (view : View) (tree : Node) : List Match :=
  walk ctx (·.visibleIn view) .code (.root tree)

end Constructs

end CudaToHip
