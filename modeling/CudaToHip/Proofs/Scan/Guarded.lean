import CudaToHip.Proofs.Scan.Possible
import CudaToHip.Proofs.Tree.Enclosing

/-!
# What the steps of a walk pass

A walk may go on in the body or an initializer list of a function only through a step that asks for
the execution space of the function. `guarded_of_mem_steps` says so of all steps, for trees in which
no function is defined in a type (`FunctionsInCode`): in a type the walk looks for names of types,
whatever they stand in.
-/

namespace CudaToHip

open CudaToHip.Tree

namespace Tree.Site

/-- What a type is made of. The members that it defines are code and do not count. -/
def typeParts (t : Site) : List Site :=
  t :: if t.kind.isTypePart then [] else t.children.attach.flatMap fun ⟨c, _⟩ => typeParts c
termination_by sizeOf t.node
decreasing_by exact below_of_mem_children ‹_›

/-- No function is defined in what the type is made of. -/
def HoldsNoFunction (t : Site) : Prop := ∀ u ∈ t.typeParts, u.kind ≠ .functionDefinition

instance (t : Site) : Decidable t.HoldsNoFunction :=
  inferInstanceAs (Decidable (∀ u ∈ t.typeParts, u.kind ≠ .functionDefinition))

/-- No function is defined in a type. That the type of a function is no initializer list, and the
parameters of a declarator are no function, the grammar promises. -/
structure FunctionsInCode (s : Site) : Prop where
  types : ∀ t ∈ s.types, t.HoldsNoFunction
  returns : ∀ t ∈ s.child? .type, t.kind ≠ .initializerList
  parameters : ∀ p ∈ s.child? .parameters, p.kind ≠ .functionDefinition

variable {s t c : Site}

theorem functionsInCode_iff : s.FunctionsInCode ↔
    (∀ t ∈ s.types, t.HoldsNoFunction) ∧ (∀ t ∈ s.child? .type, t.kind ≠ .initializerList) ∧
      ∀ p ∈ s.child? .parameters, p.kind ≠ .functionDefinition :=
  ⟨fun h => ⟨h.types, h.returns, h.parameters⟩, fun ⟨h₁, h₂, h₃⟩ => ⟨h₁, h₂, h₃⟩⟩

instance (s : Site) : Decidable s.FunctionsInCode := decidable_of_iff' _ functionsInCode_iff

theorem HoldsNoFunction.self (h : t.HoldsNoFunction) : t.kind ≠ .functionDefinition := by
  refine h t ?_
  rw [typeParts]
  exact List.mem_cons_self

theorem HoldsNoFunction.child (h : t.HoldsNoFunction) (ht : t.kind.isTypePart = false)
    (hc : c ∈ t.children) : c.HoldsNoFunction := by
  intro u hu
  refine h u ?_
  rw [typeParts, ht]
  exact List.mem_cons_of_mem _ (List.mem_flatMap.mpr ⟨⟨c, hc⟩, List.mem_attach _ _, hu⟩)

/-- Only declarators stand above a function declarator, up to where it is looked for. -/
theorem encloses_of_throughPointers? (h : s.throughPointers? = some t) :
    s.Encloses [] t ∧ t.kind = .functionDeclarator ∧ s.kind ≠ .initializerList := by
  fun_induction Site.throughPointers? s with
  | case1 s hk =>
    obtain rfl := Option.some.inj h
    exact ⟨.self, hk, by simp [hk]⟩
  | case2 s hk u hu ih | case4 s hk u hu ih =>
    obtain ⟨hut, hkind, -⟩ := ih h
    have hsu : s.Encloses [] u := encloses_child (by simp [hk]) (mem_children_of_pointee hu)
    exact ⟨hsu.trans hut, hkind, by simp [hk]⟩
  | case3 | case5 | case6 => cases h

theorem encloses_of_functionDeclarator? (h : s.functionDeclarator? = some t) :
    s.Encloses [] t ∧ t.kind = .functionDeclarator := by
  obtain ⟨c, hc, ht⟩ := Option.bind_eq_some_iff.mp h
  obtain ⟨hct, hkind, hinit⟩ := encloses_of_throughPointers? ht
  have hgate : s.isGate c = false :=
    Site.isGate_eq_false (Site.field_of_child? hc) (by decide) hinit
  have hsc : s.Encloses [] c := .of_mem_children (Site.mem_children_of_child? hc) hgate
  exact ⟨hsc.trans hct, hkind⟩

end Tree.Site

namespace Constructs

variable {ctx : Context} {s t : Site} {mode : Mode}

/-! ## Where the steps of a walk lead -/

/-- The walk is sent to code, or to a type in which no function is defined. -/
def Mode.Suits (t : Site) : Mode → Prop
  | .types _ => t.HoldsNoFunction
  | _ => True

/-- A step at a site passes no body and no initializer list of a function, but for the one that it
enters in the space of the function. -/
inductive Step.Guarded (ctx : Context) (s : Site) : Step → Prop where
  | found {a : Site} {m : Match} (ha : s.Encloses [] a) (h : Spells ctx a m) :
    Guarded ctx s (.found m)
  | go {t : Site} {mode : Mode} (ht : s.Encloses [] t) (h : mode.Suits t) :
    Guarded ctx s (.go mode t)
  | enter {t : Site} (ht : s.Encloses [s] t) :
    Guarded ctx s (.enter (ExecSpace.ofSite ctx.neutral s) t)
  | launch {f args : Site} {config : LaunchConfig} (h : LaunchAt ctx s f args config) :
    Guarded ctx s (.launch (ctx.launchOf s f args config) (ctx.ofConfig config) args)

/-- No type stands in a body or an initializer list of the function whose type it is. -/
theorem encloses_type (hs : s.FunctionsInCode) (ht : t ∈ s.types) : s.Encloses [] t := by
  by_cases hdef : s.kind = .functionDefinition
  · rw [Site.types, hdef] at ht
    have ht : s.child? .type = some t := Option.mem_toList.mp ht
    exact .of_mem_children (Site.mem_children_of_child? ht)
      (Site.isGate_eq_false (Site.field_of_child? ht) (by decide) (hs.returns t ht))
  · exact Site.encloses_child hdef (Site.mem_children_of_mem_types ht)

/-- **Every step of a walk is guarded** where functions are defined in code. -/
theorem guarded_of_mem_steps {step : Step} (hcode : ∀ u, s.Reaches u → u.FunctionsInCode)
    (hmode : mode.Suits s) (h : step ∈ ctx.steps mode s) : step.Guarded ctx s := by
  have hcall (hs : s.kind = .callExpression) : s.kind ≠ .functionDefinition := by
    rw [hs]
    nofun
  cases possible_of_mem_steps h with
  | @child mode' t hs ht hmode' =>
    have hsuits : mode'.Suits t := by
      cases mode' with
      | types kind => exact absurd rfl (hmode' kind)
      | code | declarator => trivial
    exact .go (Site.encloses_child hs ht) hsuits
  | type ht => exact .go (encloses_type (hcode s .self) ht) ((hcode s .self).types _ ht)
  | typePart htypes hpart ht =>
    subst htypes
    exact .go (Site.encloses_child hmode.self ht) (hmode.child hpart ht)
  | @parameter d params t hd hparams ht =>
    obtain ⟨hsd, hk⟩ : s.Encloses [] d ∧ d.kind = .functionDeclarator := by
      rcases hd with hd | ⟨rfl, hk⟩
      · exact Site.encloses_of_functionDeclarator? hd
      · exact ⟨.self, hk⟩
    have hdparams : d.Encloses [] params :=
      Site.encloses_child (by rw [hk]; nofun) (Site.mem_children_of_child? hparams)
    have hparamst : params.Encloses [] t :=
      Site.encloses_child ((hcode d hsd.reaches).parameters params hparams)
        (Site.mem_children_of_mem_namedChildren ht)
    exact .go ((hsd.trans hdparams).trans hparamst) trivial
  | templateArguments hs hf hname ht =>
    have hft := Site.encloses_child (exists_of_calleeName? hname).2.1 (Site.mem_children_of_child? ht)
    exact .go ((Site.encloses_child (hcall hs) hf).trans hft) trivial
  | callee hs hf hname hspells =>
    have hsf := Site.encloses_child (hcall hs) hf
    obtain ⟨-, hfdef, rfl | hin⟩ := exists_of_calleeName? hname
    · exact .found hsf hspells
    · exact .found (hsf.trans (Site.encloses_child hfdef hin)) hspells
  | found hspells => exact .found .self hspells
  | launch hlaunch => exact .launch hlaunch
  | initializers hs ht hk =>
    exact .enter (.of_gate ht (Site.isGate_of_functionDefinition hs (Or.inl hk)))
  | body hs ht =>
    exact .enter (.of_gate (Site.mem_children_of_child? ht)
      (Site.isGate_of_functionDefinition hs (Or.inr (Site.isFirstIn_of_child? ht))))

end Constructs

end CudaToHip
