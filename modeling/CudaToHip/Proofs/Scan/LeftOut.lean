import CudaToHip.Proofs.Scan.InType

/-!
# What a scan leaves out

A scan looks at every part of most nodes. Of some it looks at certain parts only, and `LeftOut` has
one rule for each of these: what the node is, and which of its parts are left out. Within a type
nothing is left out (`InType`), because there every part is looked at, whatever it is. Directives
are not looked at (`InDirective`), and bodies only if the walk enters them (`Entered`).

* `Shows.not_leftOut`, `leads_of_not_leftOut`: at one node, what is not left out is shown, and
  nothing else.
* `not_leftOut_of_visits`, `exists_visits_of_not_leftOut`: so a walk comes to what is left out
  nowhere on the way, and to nothing else.
-/

namespace CudaToHip

open CudaToHip.Tree

namespace Tree

namespace Kind

/-- Declarations of parameter packs. -/
def variadicParameter : Kind := .other "variadic_parameter_declaration"

/-- What parts may be left out of. -/
def isSelective : Kind → Bool
  | .functionDefinition | .declaration | .fieldDeclaration | .parameterDeclaration
  | .optionalParameterDeclaration | .enumerator | .rangeFor | .callExpression | .fieldExpression
  | .stringLiteral | .rawStringLiteral => true
  | _ => false

end Kind

namespace Site

/-- The second site stands in the part that the first has in the role. -/
def InRole (s : Site) (f : Field) (u : Site) : Prop := ∃ c, s.child? f = some c ∧ c.Reaches u

/-- The site stands in a parameter of the function that `d` declares. -/
def InParameters (d u : Site) : Prop :=
  ∃ params p, d.child? .parameters = some params ∧ p ∈ params.namedChildren ∧ p.Reaches u

/-- The site stands in an initial value, the size of an array or a parameter in the declarator of a
variable. -/
inductive InDeclarator : Site → Site → Prop
  | value {c u : Site} : c.kind = .initDeclarator → c.InRole .value u → InDeclarator c u
  | size {c u : Site} : c.kind = .arrayDeclarator → c.InRole .size u → InDeclarator c u
  | parameter {c u : Site} : c.kind = .functionDeclarator → c.InParameters u → InDeclarator c u
  | inner {c d u : Site} : c.kind = .initDeclarator ∨ c.kind = .arrayDeclarator →
      c.child? .declarator = some d → InDeclarator d u → InDeclarator c u
  | wrapped {c d u : Site} : c.kind.isWrapper = true → d ∈ c.namedChildren → InDeclarator d u →
      InDeclarator c u

variable {s c d u : Site}

theorem InRole.reaches {f : Field} (h : s.InRole f u) : s.Reaches u := by
  obtain ⟨c, hc, hcu⟩ := h
  exact hcu.trans (.of_mem_children (mem_children_of_child? hc))

/-- A site stands in one role only. -/
theorem InRole.eq_of_inRole {f g : Field} {r : Site} (h : s.InRole f u)
    (hr : ∀ x, r.Reaches x → x.Placed) (hu : u.span.start < u.span.stop) (hs : r.Reaches s)
    (hg : s.InRole g u) : f = g := by
  obtain ⟨c, hc, hcu⟩ := h
  obtain ⟨d, hd, hdu⟩ := hg
  have hcs := mem_children_of_child? hc
  have hds := mem_children_of_child? hd
  have hcd : c = d := by
    by_contra hne
    exact not_apart hr hu (hs.child hcs) (hs.child hds) hcu hdu ((hr s hs).apart hcs hds hne)
  subst hcd
  exact Option.some.inj ((field_of_child? hc).symm.trans (field_of_child? hd))

theorem InParameters.reaches (h : d.InParameters u) : d.Reaches u := by
  obtain ⟨params, p, hparams, hp, hpu⟩ := h
  exact (hpu.trans (.of_mem_children (mem_children_of_mem_namedChildren hp))).trans
    (.of_mem_children (mem_children_of_child? hparams))

theorem InDeclarator.reaches (h : c.InDeclarator u) : c.Reaches u := by
  induction h with
  | value _ h => exact h.reaches
  | size _ h => exact h.reaches
  | parameter _ h => exact h.reaches
  | inner _ hd _ ih => exact ih.trans (.of_mem_children (mem_children_of_child? hd))
  | wrapped _ hd _ ih => exact ih.trans (.of_mem_children (mem_children_of_mem_namedChildren hd))

end Site

end Tree

namespace Constructs

variable {ctx : Context} {enters : ExecSpace → Bool} {r s t u c d : Site} {mode mode' : Mode}

/-- The site is a part of a directive. The code that a conditional directive guards is none. -/
def InDirective (r u : Site) : Prop :=
  ∃ s c, r.Reaches s ∧ c ∈ s.children ∧ c.Reaches u ∧
    (s.kind.isDirective = true ∨ s.kind = .definedOperator ∨
      s.kind.isConditional = true ∧ (c.isFirstIn .name = true ∨ c.isFirstIn .condition = true))

/-- The bodies and initializer lists that the site lies in are entered. -/
def Entered (ctx : Context) (enters : ExecSpace → Bool) (r u : Site) : Prop :=
  ∀ f c, r.Reaches f → c ∈ f.children → f.isGate c = true → c.Reaches u →
    enters (ExecSpace.ofSite ctx.neutral f) = true

/-- **What a scan leaves out** of a node `s` that is no part of a type: `u` stands in `s`, but in no
part that is looked at. -/
inductive LeftOut (ctx : Context) (s u : Site) : Prop
  /-- Of a loop over a range: its type, its declarator and the declaration in front of them, all but
  the range and the body. -/
  | loop : s.kind = .rangeFor → ¬ s.InRole .right u → ¬ s.InRole .body u → LeftOut ctx s u
  /-- Of a parameter: its declarator, with the parameters of a function that it points to. -/
  | parameter : s.kind.isParameter = true → ¬ s.InRole .type u → ¬ s.InRole .defaultValue u →
      LeftOut ctx s u
  /-- Of the definition of a function: all of its declarator but one list of parameters, and so the
  inner list of a function that returns a pointer to a function; and a body in no role, as where a
  constructor has a `try` in front of it. -/
  | definition : s.kind = .functionDefinition → ¬ s.InRole .type u → ¬ s.InRole .body u →
      (∀ c ∈ s.children, c.kind = .initializerList → ¬ c.Reaches u) →
      (∀ d, s.functionDeclarator? = some d → ¬ d.InParameters u) → LeftOut ctx s u
  /-- Of the declaration of a function: all but its type and one list of parameters, and so an inner
  list, the parameters of a second function and everything else that is declared with it. -/
  | prototype {d : Site} : s.kind.isVariables = true → s.functionDeclarator? = some d →
      ¬ s.InRole .type u → ¬ d.InParameters u → LeftOut ctx s u
  /-- Of a declaration of variables or members: all but its type, its default value and what its
  declarators are searched for, and so the inner list of a function behind other declarators, and
  the value of a variable that is declared in a condition. -/
  | declaration : s.kind.isVariables = true → s.functionDeclarator? = none → ¬ s.InRole .type u →
      ¬ s.InRole .defaultValue u → (∀ c ∈ s.childrenIn .declarator, ¬ c.InDeclarator u) →
      LeftOut ctx s u
  /-- Of an enumerator: all but its value. -/
  | enumerator : s.kind = .enumerator → ¬ s.InRole .value u → LeftOut ctx s u
  /-- Of a call: all of a function that is called by its name but the template arguments. -/
  | call {f args : Site} : s.kind = .callExpression → ctx.isLaunch s = false →
      s.child? .function = some f → s.child? .arguments = some args →
      (Context.calleeName? f = none → ¬ f.Reaches u) →
      (Context.calleeName? f ≠ none → ¬ f.InRole .arguments u) → ¬ args.Reaches u → LeftOut ctx s u
  /-- Of a launch: the kernel, with its template arguments. -/
  | launch : ctx.isLaunch s = true → ¬ s.InRole .arguments u → LeftOut ctx s u
  /-- All of a literal and of a coordinate, which are read as one piece. -/
  | piece : s.kind.isLiteral = true ∨ ctx.readsCoordinate s = true → LeftOut ctx s u

theorem LeftOut.isSelective (h : LeftOut ctx s u) : s.kind.isSelective = true := by
  have of_variables (hk : s.kind.isVariables = true) : s.kind.isSelective = true := by
    rcases Kind.isVariables_iff.mp hk with hk | hk <;> rw [hk] <;> rfl
  cases h with
  | loop hk => rw [hk]; rfl
  | parameter hk => rcases Kind.isParameter_iff.mp hk with hk | hk <;> rw [hk] <;> rfl
  | definition hk => rw [hk]; rfl
  | prototype hk => exact of_variables hk
  | declaration hk => exact of_variables hk
  | enumerator hk => rw [hk]; rfl
  | call hk => rw [hk]; rfl
  | launch hlaunch =>
    obtain ⟨f, args, config, h⟩ := exists_launchAt hlaunch
    rw [h.isCall]
    rfl
  | piece hk =>
    rcases hk with hk | hk
    · unfold Kind.isLiteral at hk
      split at hk
      case h_1 hk' | h_2 hk' => rw [hk']; rfl
      case h_3 => cases hk
    · have hk : s.kind = .fieldExpression := by simp_all [Context.readsCoordinate]
      rw [hk]
      rfl

/-! ## What is shown is not left out -/

theorem next_of_mem_goAll {sites : List Site} {step : Step}
    (h : step ∈ Context.goAll mode sites) (hnext : step.next? enters = some (mode', t)) :
    mode' = mode ∧ t ∈ sites := by
  obtain ⟨t', ht, rfl⟩ := List.mem_map.mp h
  obtain ⟨rfl, rfl⟩ := Prod.mk.inj (Option.some.inj hnext)
  exact ⟨rfl, ht⟩

theorem next_of_mem_goTo {f : Field} {step : Step} (h : step ∈ Context.goTo mode s f)
    (hnext : step.next? enters = some (mode', t)) : mode' = mode ∧ s.child? f = some t := by
  obtain ⟨hmode, ht⟩ := next_of_mem_goAll h hnext
  exact ⟨hmode, Option.mem_toList.mp ht⟩

/-- A step to the part in a role, around a site that does not stand in the part. -/
theorem not_mem_goTo {f : Field} {step : Step} (hnot : ¬ s.InRole f u)
    (hnext : step.next? enters = some (mode', t)) (htu : t.Reaches u) :
    step ∉ Context.goTo mode s f := fun h => hnot ⟨t, (next_of_mem_goTo h hnext).2, htu⟩

theorem not_mem_parameterSteps {step : Step} (hnot : ¬ d.InParameters u)
    (hnext : step.next? enters = some (mode', t)) (htu : t.Reaches u) :
    step ∉ Context.parameterSteps d := by
  intro h
  unfold Context.parameterSteps at h
  split at h
  · rename_i params hparams
    exact hnot ⟨params, t, hparams, (next_of_mem_goAll h hnext).2, htu⟩
  · cases h

theorem eq_of_next?_enter {space : ExecSpace}
    (hnext : (Step.enter space c).next? enters = some (mode', t)) : c = t := by
  rw [Step.next?, Option.ite_none_right_eq_some] at hnext
  cases hnext.2
  rfl

theorem not_mem_functionSteps {step : Step} (htype : ¬ s.InRole .type u)
    (hbody : ¬ s.InRole .body u)
    (hinit : ∀ c ∈ s.children, c.kind = .initializerList → ¬ c.Reaches u)
    (hparams : ∀ d, s.functionDeclarator? = some d → ¬ d.InParameters u)
    (hnext : step.next? enters = some (mode', t)) (htu : t.Reaches u) :
    step ∉ ctx.functionSteps s := by
  intro hstep
  rw [Context.functionSteps] at hstep
  simp only [List.mem_append] at hstep
  rcases hstep with ((hstep | hstep) | hstep) | hstep
  · exact not_mem_goTo htype hnext htu hstep
  · split at hstep
    · rename_i d hd
      exact not_mem_parameterSteps (hparams d hd) hnext htu hstep
    · cases hstep
  · obtain ⟨c, hc, rfl⟩ := List.mem_map.mp hstep
    obtain rfl := eq_of_next?_enter hnext
    obtain ⟨hmem, hk⟩ := List.mem_filter.mp hc
    exact hinit c hmem (of_decide_eq_true hk) htu
  · obtain ⟨c, hc, rfl⟩ := List.mem_map.mp hstep
    obtain rfl := eq_of_next?_enter hnext
    exact hbody ⟨c, Option.mem_toList.mp hc, htu⟩

theorem not_mem_plainCallSteps {step : Step} {f args : Site}
    (hcallee : Context.calleeName? f = none → ¬ f.Reaches u)
    (htemplate : Context.calleeName? f ≠ none → ¬ f.InRole .arguments u) (hout : ¬ args.Reaches u)
    (hnext : step.next? enters = some (mode', t)) (htu : t.Reaches u) :
    step ∉ ctx.plainCallSteps f args := by
  intro hstep
  rw [Context.plainCallSteps] at hstep
  rcases List.mem_append.mp hstep with hstep | hstep
  · cases hname : Context.calleeName? f with
    | none =>
      rw [hname] at hstep
      obtain rfl := List.mem_singleton.mp hstep
      cases hnext
      exact hcallee hname htu
    | some name =>
      rw [hname] at hstep htemplate
      rcases List.mem_append.mp hstep with hstep | hstep
      · exact not_mem_goTo (htemplate (Option.some_ne_none _)) hnext htu hstep
      · dsimp only at hstep
        split at hstep
        · obtain rfl := List.mem_singleton.mp hstep
          cases hnext
        · cases hstep
  · obtain rfl := List.mem_singleton.mp hstep
    cases hnext
    exact hout htu

/-- A literal and a coordinate are reported, and that is all. -/
theorem exists_found_of_piece (h : s.kind.isLiteral = true ∨ ctx.readsCoordinate s = true) :
    ∃ m, ctx.codeSteps s = [.found m] := by
  rcases h with hk | hk
  · unfold Kind.isLiteral at hk
    unfold Context.codeSteps
    split at hk
    case h_1 hk' | h_2 hk' =>
      rw [hk']
      exact ⟨_, rfl⟩
    case h_3 => cases hk
  · rw [Context.readsCoordinate, Bool.and_eq_true, decide_eq_true_eq] at hk
    obtain ⟨m, hm⟩ := Option.isSome_iff_exists.mp hk.2
    refine ⟨m, ?_⟩
    rw [Context.codeSteps, hk.1]
    dsimp only
    rw [hm]

/-- **What a site shows is not left out**, as far as declarators are searched. -/
theorem Shows.not_leftOut (h : Shows ctx enters s .code mode' t) (htu : t.Reaches u)
    (hdeclarator : mode' = .declarator → t.InDeclarator u) : ¬ LeftOut ctx s u := by
  obtain ⟨step, hstep, hnext⟩ := h.exists_step
  rw [Context.steps] at hstep
  have role {f : Field} {m : Mode} (hnot : ¬ s.InRole f u) : step ∉ Context.goTo m s f :=
    not_mem_goTo hnot hnext htu
  intro hleft
  cases hleft with
  | loop hk hright hbody =>
    have hsteps : ctx.codeSteps s = Context.goTo .code s .right ++ Context.goTo .code s .body := by
      rw [Context.codeSteps, hk]
    rw [hsteps] at hstep
    exact (List.mem_append.mp hstep).elim (role hright) (role hbody)
  | parameter hk htype hdefault =>
    rw [codeSteps_of_isParameter hk] at hstep
    exact (List.mem_append.mp hstep).elim (role htype) (role hdefault)
  | definition hk htype hbody hinit hparams =>
    rw [codeSteps_of_functionDefinition hk] at hstep
    exact not_mem_functionSteps htype hbody hinit hparams hnext htu hstep
  | prototype hk hd htype hparams =>
    rw [codeSteps_of_isVariables hk, declarationSteps_of_some hd] at hstep
    exact (List.mem_append.mp hstep).elim (role htype) (not_mem_parameterSteps hparams hnext htu)
  | declaration hk hd htype hdefault hdecl =>
    rw [codeSteps_of_isVariables hk, declarationSteps_of_none hd] at hstep
    rcases List.mem_append.mp hstep with hstep | hstep
    · rcases List.mem_append.mp hstep with hstep | hstep
      · exact role htype hstep
      · obtain ⟨hmode, ht⟩ := next_of_mem_goAll hstep hnext
        exact hdecl t ht (hdeclarator hmode)
    · exact role hdefault hstep
  | enumerator hk hvalue =>
    have hsteps : ctx.codeSteps s = Context.goTo .code s .value := by rw [Context.codeSteps, hk]
    exact role hvalue (hsteps ▸ hstep)
  | call hk hplain hf hargs hcallee htemplate hout =>
    rw [codeSteps_of_callExpression hk, callSteps_of_plain hk hplain hf hargs] at hstep
    exact not_mem_plainCallSteps hcallee htemplate hout hnext htu hstep
  | launch hlaunch hargs =>
    obtain ⟨f, args, config, h⟩ := exists_launchAt hlaunch
    have hsteps : ctx.codeSteps s = _ := h.steps_eq
    rw [hsteps] at hstep
    obtain rfl := List.mem_singleton.mp hstep
    cases hnext
    exact hargs ⟨_, h.inArguments, htu⟩
  | piece hk =>
    obtain ⟨m, hsteps⟩ := exists_found_of_piece hk
    rw [hsteps] at hstep
    obtain rfl := List.mem_singleton.mp hstep
    cases hnext

/-- **A declarator in which a site is shown** holds it where declarators are searched. -/
theorem Shows.inDeclarator (h : Shows ctx enters s .declarator mode' t) (htu : t.Reaches u)
    (hdeclarator : mode' = .declarator → t.InDeclarator u) : s.InDeclarator u := by
  cases h with
  | inner hk ht => exact .inner hk ht (hdeclarator rfl)
  | value hk ht => exact .value hk ⟨t, ht, htu⟩
  | size hk ht => exact .size hk ⟨t, ht, htu⟩
  | wrapped hk ht => exact .wrapped hk ht (hdeclarator rfl)
  | innerParameter hk hparams ht => exact .parameter hk ⟨_, t, hparams, ht, htu⟩

/-- Nothing is left out of declarators and links; what their declaration does not look at is left
out of the declaration. -/
theorem Shows.not_isSelective (h : Shows ctx enters s .declarator mode' t) :
    s.kind.isSelective = false := by
  cases h with
  | inner hk => rcases hk with hk | hk <;> rw [hk] <;> rfl
  | value hk | size hk | innerParameter hk =>
    rw [hk]
    rfl
  | wrapped hk =>
    unfold Kind.isWrapper at hk
    unfold Kind.isSelective
    split at hk
    case h_5 => cases hk
    all_goals
      rename_i hk'
      rw [hk']

theorem not_isSelective_of_isLink (h : s.kind.isLink = true) : s.kind.isSelective = false := by
  have hk := of_decide_eq_true h
  simp only [List.mem_cons, List.not_mem_nil, or_false] at hk
  rcases hk with hk | hk | hk | hk | hk | hk <;> rw [hk] <;> rfl

/-- What is visited is where the walk began, or it is visited from where the first step leads. -/
theorem Visits.eq_or_step (h : Visits ctx enters mode s mode' t) : mode = mode' ∧ s = t ∨
    ∃ step ∈ ctx.steps mode s, ∃ m c, step.next? enters = some (m, c) ∧
      Visits ctx enters m c mode' t := by
  induction h with
  | self => exact Or.inl ⟨rfl, rfl⟩
  | step _ hstep hnext ih =>
    refine Or.inr ?_
    rcases ih with ⟨rfl, rfl⟩ | ⟨first, hfirst, m, c, hc, hrest⟩
    · exact ⟨_, hstep, _, _, hnext, .self⟩
    · exact ⟨first, hfirst, m, c, hc, hrest.step hstep hnext⟩

/-! ## What is not left out is shown -/

/-- The site shows a part that `u` stands in; a declarator, as far as declarators are searched. -/
def Leads (ctx : Context) (enters : ExecSpace → Bool) (mode : Mode) (s u : Site) : Prop :=
  ∃ mode' t, Shows ctx enters s mode mode' t ∧ t.Reaches u ∧
    (mode' = .declarator → t.InDeclarator u)

namespace Leads

theorem code (h : Shows ctx enters s mode .code t) (htu : t.Reaches u) :
    Leads ctx enters mode s u := ⟨_, t, h, htu, by rintro ⟨⟩⟩

theorem types {kind : TypeRefKind} (h : Shows ctx enters s mode (.types kind) t)
    (htu : t.Reaches u) : Leads ctx enters mode s u := ⟨_, t, h, htu, by rintro ⟨⟩⟩

theorem declarator (h : Shows ctx enters s mode .declarator t) (htu : t.InDeclarator u) :
    Leads ctx enters mode s u := ⟨_, t, h, htu.reaches, fun _ => htu⟩

/-- Types lead to all their parts. -/
theorem of_types {kind : TypeRefKind} (hs : WellFormed ctx s) (hc : c ∈ s.children)
    (hcu : c.Reaches u) : Leads ctx enters (.types kind) s u := by
  cases hpart : s.kind.isTypePart with
  | false => exact .types (.typePart hpart hc) hcu
  | true =>
    unfold Kind.isTypePart at hpart
    split at hpart
    case h_1 hk =>
      rw [Site.children, hs.tokens (by rw [hk]; rfl)] at hc
      cases hc
    case h_2 hk => exact .code (.member (Or.inl hk) hc) hcu
    case h_3 hk => exact .code (.member (Or.inr hk) hc) hcu
    case h_4 => cases hpart

theorem of_inDeclarator (h : s.InDeclarator u) : Leads ctx enters .declarator s u := by
  cases h with
  | value hk h =>
    obtain ⟨t, ht, htu⟩ := h
    exact .code (.value hk ht) htu
  | size hk h =>
    obtain ⟨t, ht, htu⟩ := h
    exact .code (.size hk ht) htu
  | parameter hk h =>
    obtain ⟨params, t, hparams, ht, htu⟩ := h
    exact .code (.innerParameter hk hparams ht) htu
  | inner hk hd h => exact .declarator (.inner hk hd) h
  | wrapped hk hd h => exact .declarator (.wrapped hk hd) h

theorem of_type {kind : TypeRefKind} (hkind : s.typeKind? = some kind) (h : s.InRole .type u) :
    Leads ctx enters .code s u := by
  obtain ⟨t, ht, htu⟩ := h
  exact .types (.type hkind ht) htu

theorem of_codeRoles {f : Field} (hf : f ∈ s.codeRoles) (h : s.InRole f u) :
    Leads ctx enters .code s u := by
  obtain ⟨t, ht, htu⟩ := h
  exact .code (.role hf ht) htu

theorem of_inParameters (hs : KernelDecl.isDeclaration s = true)
    (hd : s.functionDeclarator? = some d) (h : d.InParameters u) : Leads ctx enters .code s u := by
  obtain ⟨params, t, hparams, ht, htu⟩ := h
  exact .code (.parameter hs hd hparams ht) htu

theorem of_functionDefinition (hk : s.kind = .functionDefinition)
    (hentered : ∀ c ∈ s.children, s.isGate c = true → c.Reaches u →
      enters (ExecSpace.ofSite ctx.neutral s) = true) (h : ¬ LeftOut ctx s u) :
    Leads ctx enters .code s u := by
  by_contra hnone
  refine h (.definition hk (fun htype => ?_) (fun hbody => ?_) (fun c hc hinit hcu => ?_)
    fun d hd hparams => ?_)
  · exact hnone (.of_type (by rw [Site.typeKind?, hk]) htype)
  · obtain ⟨c, hc, hcu⟩ := hbody
    have hmem := Site.mem_children_of_child? hc
    have hgate := Site.isGate_of_functionDefinition hk (Or.inr (Site.isFirstIn_of_child? hc))
    exact hnone (.code (.body hk (hentered c hmem hgate hcu) hc) hcu)
  · have hgate := Site.isGate_of_functionDefinition hk (Or.inl hinit)
    exact hnone (.code (.initializers hk (hentered c hc hgate hcu) hc hinit) hcu)
  · exact hnone (.of_inParameters (by rw [KernelDecl.isDeclaration, hk]) hd hparams)

theorem of_isVariables (hs : s.kind.isVariables = true) (h : ¬ LeftOut ctx s u) :
    Leads ctx enters .code s u := by
  have htypeKind := Site.typeKind?_of_isVariables hs
  have hroles := Site.codeRoles_of_isVariables hs
  by_contra hnone
  cases hd : s.functionDeclarator? with
  | some d =>
    rw [hd] at htypeKind
    exact h (.prototype hs hd (fun htype => hnone (.of_type htypeKind htype))
      fun hparams => hnone (.of_inParameters (isDeclaration_of_isVariables hs) hd hparams))
  | none =>
    rw [hd, Option.isSome_none, if_neg Bool.false_ne_true] at htypeKind hroles
    refine h (.declaration hs hd (fun htype => ?_) (fun hdefault => ?_) fun c hc hin => ?_)
    · rw [← apply_ite some] at htypeKind
      exact hnone (.of_type htypeKind htype)
    · exact hnone (.of_codeRoles (by rw [hroles]; exact List.mem_singleton_self _) hdefault)
    · exact hnone (.declarator (.declarator hs hd hc) hin)

theorem of_isParameter (hs : s.kind.isParameter = true) (h : ¬ LeftOut ctx s u) :
    Leads ctx enters .code s u := by
  by_contra hnone
  refine h (.parameter hs (fun htype => ?_) fun hdefault => ?_)
  · exact hnone (.of_type (Site.typeKind?_of_isParameter hs) htype)
  · have hroles := Site.codeRoles_of_isParameter hs
    exact hnone (.of_codeRoles (by rw [hroles]; exact List.mem_singleton_self _) hdefault)

theorem of_callExpression (hk : s.kind = .callExpression) (hc : c ∈ s.children)
    (hcu : c.Reaches u) (h : ¬ LeftOut ctx s u) : Leads ctx enters .code s u := by
  cases hf : s.child? .function with
  | none => exact .code (.bare hk (Or.inl hf) hc) hcu
  | some f =>
    cases hargs : s.child? .arguments with
    | none => exact .code (.bare hk (Or.inr hargs) hc) hcu
    | some args =>
      by_contra hnone
      have hout : ¬ args.Reaches u := fun hin =>
        hnone (.code (.arguments hk hf hargs) hin)
      cases hlaunch : ctx.isLaunch s with
      | true =>
        refine h (.launch hlaunch ?_)
        rintro ⟨a, ha, hau⟩
        obtain rfl := Option.some.inj (hargs.symm.trans ha)
        exact hout hau
      | false =>
        refine h (.call hk hlaunch hf hargs (fun hname hfu => ?_) (fun hname htemplate => ?_) hout)
        · exact hnone (.code (.callee hk hlaunch hf hargs hname) hfu)
        · obtain ⟨name, hname⟩ := Option.ne_none_iff_exists'.mp hname
          obtain ⟨t, ht, htu⟩ := htemplate
          exact hnone (.code (.templateArguments hk hlaunch hf hargs hname ht) htu)

end Leads

/-- What a walk does not go on in as it stands, by the rule for it. -/
theorem cases_of_not_passes (h : ctx.passes s = false) :
    s.kind.isDirective = true ∨ s.kind = .definedOperator ∨ s.kind.isToken = true ∨
    s.kind.isConditional = true ∨ s.kind = .functionDefinition ∨ s.kind.isVariables = true ∨
    s.kind.isParameter = true ∨ s.kind = .enumerator ∨ s.kind = .rangeFor ∨
    s.kind = .callExpression ∨ (s.kind.isLiteral = true ∨ ctx.readsCoordinate s = true) ∨
    s.kind = .typeDescriptor := by
  rw [Context.passes, Bool.or_eq_false_iff] at h
  cases hk : s.kind <;> simp_all [Kind.isPassed, Kind.isDirective, Kind.isToken,
    Kind.isConditional, Kind.isVariables, Kind.isParameter, Kind.isLiteral]

/-- **What is not left out is shown**, outside directives and where bodies are entered. -/
theorem leads_of_not_leftOut (hr : Sound ctx r) (hs : r.Reaches s) (hc : c ∈ s.children)
    (hcu : c.Reaches u) (hdirective : ¬ InDirective r u) (hentered : Entered ctx enters r u)
    (h : ¬ LeftOut ctx s u) : Leads ctx enters .code s u := by
  cases hpasses : ctx.passes s with
  | true => exact .code (.part hpasses hc) hcu
  | false =>
    rcases cases_of_not_passes hpasses with
      hk | hk | hk | hk | hk | hk | hk | hk | hk | hk | hk | hk
    · exact absurd ⟨s, c, hs, hc, hcu, Or.inl hk⟩ hdirective
    · exact absurd ⟨s, c, hs, hc, hcu, Or.inr (Or.inl hk)⟩ hdirective
    · rw [Site.children, (hr s hs).tokens hk] at hc
      cases hc
    · have hguarded : ¬ (c.isFirstIn .name = true ∨ c.isFirstIn .condition = true) := fun hfirst =>
        hdirective ⟨s, c, hs, hc, hcu, Or.inr (Or.inr ⟨hk, hfirst⟩)⟩
      rw [not_or, Bool.not_eq_true, Bool.not_eq_true] at hguarded
      exact .code (.guarded hk hc hguarded.1 hguarded.2) hcu
    · exact .of_functionDefinition hk (fun d hd hgate hdu => hentered s d hs hd hgate hdu) h
    · exact .of_isVariables hk h
    · exact .of_isParameter hk h
    · by_contra hnone
      refine h (.enumerator hk fun hvalue => hnone (.of_codeRoles ?_ hvalue))
      rw [Site.codeRoles, hk]
      exact List.mem_singleton_self _
    · by_contra hnone
      have hroles : s.codeRoles = [.right, .body] := by rw [Site.codeRoles, hk]
      refine h (.loop hk (fun hright => hnone (.of_codeRoles ?_ hright))
        fun hbody => hnone (.of_codeRoles ?_ hbody))
      · rw [hroles]
        exact List.mem_cons_self
      · rw [hroles]
        exact List.mem_cons_of_mem _ (List.mem_singleton_self _)
    · exact .of_callExpression hk hc hcu h
    · exact absurd (.piece hk) h
    · exact .types (.named hk hc) hcu

section Line

variable (hr : Sound ctx r) (hu : u.span.start < u.span.stop)

include hr hu

/-- **The name of a type that a walk comes to is left out nowhere** on the way. -/
theorem not_leftOut_of_visits {kind : TypeRefKind} (hk : u.kind = .typeIdentifier)
    (hs : Visits ctx enters .code r mode s) (h : Visits ctx enters mode s (.types kind) u) :
    (mode = .declarator → s.InDeclarator u) ∧
      ∀ t, s.Reaches t → t.Reaches u → InType r t ∨ ¬ LeftOut ctx t u := by
  induction hsize : sizeOf s.node using Nat.strongRecOn generalizing s mode with
  | ind size ih =>
    subst hsize
    rcases h.eq_or_step with ⟨rfl, rfl⟩ | ⟨step, hstep, m, d, hnext, hrest⟩
    · refine ⟨by rintro ⟨⟩, fun t hst htu => Or.inr fun hleft => ?_⟩
      have hselective := hleft.isSelective
      rw [hst.antisymm htu, hk] at hselective
      cases hselective
    · have hshows : Shows ctx enters s mode m d := shows_iff.mpr ⟨step, hstep, hnext⟩
      have hdu := hrest.reaches
      have hsite : d.Below s := steps_below ctx mode s step hstep d (Step.site?_of_next? hnext)
      obtain ⟨hinner, hbelow⟩ := ih _ hsite (hs.step hstep hnext) hrest rfl
      obtain ⟨c, hc, hcd, -⟩ := hshows.exists_child (hr.of_reaches hs.reaches)
      have hcu := hdu.trans hcd.reaches
      have hcr := hs.reaches.child hc
      refine ⟨fun hmode => (hmode ▸ hshows).inDeclarator hdu hinner, fun t hst htu => ?_⟩
      rcases Site.reaches_of_mem_children hr.placed hu hs.reaches hc hcu hst htu with rfl | hct
      · cases mode with
        | types kind => exact Or.inl ((inType_iff_of_visits hr hu hs htu).mpr rfl)
        | code => exact Or.inr (hshows.not_leftOut hdu hinner)
        | declarator =>
          refine Or.inr fun hleft => ?_
          cases hshows.not_isSelective.symm.trans hleft.isSelective
      · rcases hcd.isLink_or_reaches hr hu hcr hdu hct htu with hlink | hdt
        · refine Or.inr fun hleft => ?_
          cases (not_isSelective_of_isLink hlink).symm.trans hleft.isSelective
        · exact hbelow t hdt htu

/-- **A walk comes to what is left out nowhere** on the way. -/
theorem exists_visits_of_not_leftOut (hdirective : ¬ InDirective r u)
    (hentered : Entered ctx enters r u) (hs : Visits ctx enters .code r mode s)
    (hsu : s.Reaches u) (hdeclarator : mode = .declarator → s.InDeclarator u)
    (hleft : ∀ t, s.Reaches t → t.Reaches u → InType r t ∨ ¬ LeftOut ctx t u) :
    ∃ mode', mode' ≠ .declarator ∧ Visits ctx enters mode s mode' u := by
  induction hsize : sizeOf s.node using Nat.strongRecOn generalizing s mode with
  | ind size ih =>
    subst hsize
    have onward (h : Leads ctx enters mode s u) :
        ∃ mode', mode' ≠ .declarator ∧ Visits ctx enters mode s mode' u := by
      obtain ⟨mode', t, hshows, htu, hinner⟩ := h
      obtain ⟨step, hstep, hnext⟩ := hshows.exists_step
      have ht : Visits ctx enters mode s mode' t := Visits.self.step hstep hnext
      have hsite : t.Below s := steps_below ctx mode s step hstep t (Step.site?_of_next? hnext)
      obtain ⟨mode'', hne, hvisits⟩ := ih _ hsite (ht.trans hs) htu hinner
        (fun x htx hxu => hleft x (htx.trans ht.reaches) hxu) rfl
      exact ⟨mode'', hne, hvisits.trans ht⟩
    cases mode with
    | declarator => exact onward (.of_inDeclarator (hdeclarator rfl))
    | types kind =>
      rcases hsu.eq_or_child with rfl | ⟨c, hc, hcu⟩
      · exact ⟨.types kind, by rintro ⟨⟩, .self⟩
      · exact onward (.of_types (hr s hs.reaches) hc hcu)
    | code =>
      rcases hsu.eq_or_child with rfl | ⟨c, hc, hcu⟩
      · exact ⟨.code, by rintro ⟨⟩, .self⟩
      · refine onward (leads_of_not_leftOut hr hs.reaches hc hcu hdirective hentered ?_)
        -- in code no site is a part of a type
        refine (hleft s .self hsu).resolve_left fun htype => ?_
        cases (inType_iff_of_visits hr hu hs hsu).mp htype

end Line

end Constructs

end CudaToHip
