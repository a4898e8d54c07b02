import CudaToHip.Proofs.Scan.Launches

/-!
# Edits of a walk

The edits of the matches that a walk reports are parameters of kernels (`IsParameter`), or each
exchanges the text of one site that holds no directive and no kernel (`Exchanges`). This is
`accounted_walk`, by induction along the steps of the walk: what is found in a launch stays in the
launch, and every other step hands on what is found further down.
-/

namespace CudaToHip

open CudaToHip.Tree

namespace Constructs

variable {ctx : Context} {rules : Rules} {s t a : Site} {m : Match} {e e₁ e₂ : Edit}
  {mode : Mode} {enters f g : ExecSpace → Bool}

/-! ## The walk, step by step -/

/-- The matches that a step leads to. -/
def follow (ctx : Context) (enters : ExecSpace → Bool) : Step → List Match
  | .found m => [m]
  | .go mode t => walk ctx enters mode t
  | .enter space t => if enters space then walk ctx enters .code t else []
  | .launch l config t => [.launch l (config ++ walk ctx enters .code t)]

theorem walk_eq (ctx : Context) (enters : ExecSpace → Bool) (mode : Mode) (s : Site) :
    walk ctx enters mode s = (ctx.steps mode s).flatMap (follow ctx enters) := by
  rw [walk, ← flatMap_attach _ (follow ctx enters)]
  congr 1
  funext ⟨step, h⟩
  cases step <;> rfl

/-- Within a type a walk goes on in all parts, unless the site is a name or a body. -/
theorem typeSteps_of_not_isTypePart {kind : TypeRefKind} (h : s.kind.isTypePart = false) :
    ctx.typeSteps kind s = Context.goAll (.types kind) s.children := by
  unfold Context.typeSteps
  split
  case h_1 hk | h_2 hk | h_3 hk => rw [hk] at h; cases h
  case h_4 => rfl

/-- No type is found where none is named. -/
theorem walk_types_eq_nil {kind : TypeRefKind}
    (h : ∀ t, s.Reaches t → t.kind.isTypePart = false) : walk ctx enters (.types kind) s = [] := by
  induction hn : sizeOf s.node using Nat.strongRecOn generalizing s with
  | ind n ih =>
    subst hn
    rw [walk_eq, Context.steps, typeSteps_of_not_isTypePart (h s .self), List.flatMap_eq_nil_iff]
    intro step hstep
    obtain ⟨c, hc, rfl⟩ := List.mem_map.mp hstep
    exact ih _ (Site.below_of_mem_children hc)
      (fun t ht => h t (ht.trans (.of_mem_children hc))) rfl

/-- A walk finds nothing in a directive. -/
theorem walk_directive (hs : WellFormed ctx s) (hdir : s.kind.isDirective = true) :
    walk ctx enters mode s = [] := by
  cases mode with
  | types kind => exact walk_types_eq_nil fun t ht => (hs.directives hdir t ht).1
  | code =>
    have hsteps : ctx.steps .code s = [] := by
      show ctx.codeSteps s = []
      unfold Context.codeSteps
      cases hk : s.kind <;> rw [hk] at hdir <;> first | rfl | cases hdir
    rw [walk_eq, hsteps, List.flatMap_nil]
  | declarator =>
    have hsteps : ctx.steps .declarator s = [] := by
      show Context.declaratorSteps s = []
      unfold Context.declaratorSteps
      cases hk : s.kind <;> rw [hk] at hdir <;> first | rfl | cases hdir
    rw [walk_eq, hsteps, List.flatMap_nil]

/-! ## What an edit exchanges -/

/-- The edit puts a parameter into the declaration of a kernel. -/
def IsParameter (rules : Rules) (ctx : Context) (e : Edit) : Prop :=
  ∃ k ∈ ctx.kernels, e = LaunchRule.parameterEdit rules.config.launch k.params

/-- The edit exchanges the text of the site `a` below `s`, which takes text and holds neither a
directive nor a kernel. No directive stands between `s` and `a`. -/
structure Exchanges (ctx : Context) (s a : Site) (e : Edit) : Prop where
  clear : s.ClearTo a
  kind : a.kind.isExchanged = true
  pure : ∀ t, a.Reaches t → t.kind.isDirective = false ∧ ctx.declaresKernel t = false
  span : e.span = a.span
  lt : a.span.start < a.span.stop

theorem Exchanges.of_clearTo (hst : s.ClearTo t) (h : Exchanges ctx t a e) :
    Exchanges ctx s a e := { h with clear := hst.trans h.clear }

theorem declaresKernel_eq_false (h : KernelDecl.isDeclaration s = false) :
    ctx.declaresKernel s = false := by
  rw [Context.declaresKernel, h, Bool.false_and]

theorem exchanges_of_spells (hstem : rules.config.builtinMemberStem = ctx.memberStem)
    (ha : WellFormed ctx a) (h : Spells ctx a m) (he : e ∈ rules.editsFor m) :
    Exchanges ctx a a e := by
  obtain ⟨hspan, hlt⟩ := span_of_spells hstem ha h he
  -- a name is a token, so that nothing stands in it
  have htoken (hk : a.kind = .identifier ∨ a.kind = .typeIdentifier) :
      a.kind.isExchanged = true ∧
        ∀ t, a.Reaches t → t.kind.isDirective = false ∧ ctx.declaresKernel t = false := by
    rcases hk with hk | hk
    all_goals
      refine ⟨by rw [hk]; rfl, fun t ht => ?_⟩
      rw [ht.eq_of_leaf (ha.tokens (by rw [hk]; rfl))]
      refine ⟨by rw [hk]; rfl, declaresKernel_eq_false ?_⟩
      unfold KernelDecl.isDeclaration
      rw [hk]
  have hpiece (hk : a.kind.isLiteral = true ∨ ctx.readsCoordinate a = true) :
      ∀ t, a.Reaches t → t.kind.isDirective = false ∧ ctx.declaresKernel t = false :=
    fun t ht => ⟨(ha.pieces hk t ht).1, declaresKernel_eq_false (ha.pieces hk t ht).2⟩
  cases h with
  | call hk hapi =>
    obtain ⟨hkind, hpure⟩ := htoken (Or.inl hk)
    exact ⟨.self a, hkind, hpure, hspan, hlt⟩
  | typeRef kind hk hapi =>
    obtain ⟨hkind, hpure⟩ := htoken hk
    exact ⟨.self a, hkind, hpure, hspan, hlt⟩
  | coordinate hk hm =>
    have hreads : ctx.readsCoordinate a = true := by
      simp [Context.readsCoordinate, hk, hm]
    exact ⟨.self a, by rw [hk]; rfl, hpiece (Or.inr hreads), hspan, hlt⟩
  | literal hk =>
    have hkind : a.kind.isExchanged = true := by
      cases hk' : a.kind <;> rw [hk'] at hk <;> first | rfl | cases hk
    exact ⟨.self a, hkind, hpiece (Or.inl hk), hspan, hlt⟩

/-! ## Trees to walk over -/

/-- Everything below the site is well-formed, and its launches hold nothing but expressions. -/
structure Walkable (ctx : Context) (s : Site) : Prop where
  sound : Sound ctx s
  launches : ∀ t, s.Reaches t → ctx.isLaunch t = true → ∀ u, t.Reaches u →
    u.kind.isDirective = false ∧ u.kind ≠ .functionDefinition ∧ ctx.declaresKernel u = false
  neutral : ctx.neutral = neutralize ctx.source

theorem Walkable.of_reaches (h : Walkable ctx s) (ht : s.Reaches t) : Walkable ctx t where
  sound := h.sound.of_reaches ht
  launches := fun u hu => h.launches u (hu.trans ht)
  neutral := h.neutral

/-- The step at `s` is taken at `t` below it. -/
structure Step.TakenAt (ctx : Context) (s : Site) (step : Step) (t : Site) : Prop where
  at_site : step.At ctx t
  clear : s.ClearTo t
  below : t.Below s

theorem exists_of_forall₂ {α β : Type} {R : α → β → Prop} {xs : List α} {ys : List β} {x : α}
    (h : List.Forall₂ R xs ys) (hx : x ∈ xs) : ∃ y ∈ ys, R x y := by
  induction h with
  | nil => cases hx
  | @cons a b as bs hab _ ih =>
    rcases List.mem_cons.mp hx with rfl | hx
    · exact ⟨b, List.mem_cons_self, hab⟩
    · obtain ⟨y, hy, hxy⟩ := ih hx
      exact ⟨y, List.mem_cons_of_mem _ hy, hxy⟩

namespace Laid

variable {roles : List (Option Field)} {steps : List Step} {step : Step}

/-- Where steps are laid out, every step is taken at a smaller site. -/
theorem exists_takenAt (h : Laid ctx s roles steps) (hstep : step ∈ steps) :
    ∃ t, step.TakenAt ctx s t := by
  obtain ⟨sites, hat, hin, -⟩ := h
  obtain ⟨t, ht, hstep⟩ := exists_of_forall₂ hat hstep
  obtain ⟨hclear, c, hc, -, hct⟩ := hin t ht
  have hbelow : t.Below s := Nat.lt_of_le_of_lt (Site.sizeOf_le_of_reaches hct)
    (Site.below_of_mem_children hc)
  exact ⟨t, hstep, hclear, hbelow⟩

/-- Different steps are taken at sites that are apart. -/
theorem pairwise (h : Laid ctx s roles steps) : steps.Pairwise fun x y =>
    ∃ t u, x.TakenAt ctx s t ∧ y.TakenAt ctx s u ∧ t.span.Apart u.span := by
  obtain ⟨sites, hat, hin, hapart⟩ := h
  have taken {x : Step} {t : Site} (ht : t ∈ sites) (hx : x.At ctx t) : x.TakenAt ctx s t := by
    obtain ⟨hclear, c, hc, -, hct⟩ := hin t ht
    exact ⟨hx, hclear, Nat.lt_of_le_of_lt (Site.sizeOf_le_of_reaches hct)
      (Site.below_of_mem_children hc)⟩
  clear hin
  induction hat with
  | nil => exact .nil
  | @cons x t xs ts hx hxs ih =>
    obtain ⟨ht, hapart⟩ := List.pairwise_cons.mp hapart
    refine List.pairwise_cons.mpr
      ⟨fun y hy => ?_, ih hapart fun hu => taken (List.mem_cons_of_mem _ hu)⟩
    obtain ⟨u, hu, hyu⟩ := exists_of_forall₂ hxs hy
    exact ⟨t, u, taken List.mem_cons_self hx, taken (List.mem_cons_of_mem _ hu) hyu, ht u hu⟩

end Laid

/-- **What the edits of a walk are**: parameters of kernels, or each the exchange of the text of one
site, where one of the matches begins. -/
def Accounted (rules : Rules) (ctx : Context) (s : Site) (ms : List Match) : Prop :=
  ∀ e ∈ rules.editsForAll ms,
    IsParameter rules ctx e ∨ ∃ a, Exchanges ctx s a e ∧ ∃ m ∈ ms, m.offset = a.span.start

theorem accounted_nil : Accounted rules ctx s [] := by
  intro e he
  cases he

theorem accounted_of_spells (hstem : rules.config.builtinMemberStem = ctx.memberStem)
    (ha : WellFormed ctx a) (h : Spells ctx a m) : Accounted rules ctx a [m] := by
  intro e he
  rw [Rules.mem_editsForAll_singleton] at he
  exact Or.inr ⟨a, exchanges_of_spells hstem ha h he, m, List.mem_cons_self, offset_of_spells h⟩

/-- Steps are accounted for if each of them is, where it is taken. -/
theorem accounted_of_steps {steps : List Step} (h : ∀ step ∈ steps, ∃ t, s.ClearTo t ∧
    Accounted rules ctx t (follow ctx enters step)) :
    Accounted rules ctx s (steps.flatMap (follow ctx enters)) := by
  intro e he
  obtain ⟨step, hstep, he⟩ := Rules.mem_editsForAll_flatMap.mp he
  obtain ⟨t, hclear, ht⟩ := h step hstep
  rcases ht e he with hp | ⟨a, ha, m, hm, hoff⟩
  · exact Or.inl hp
  · exact Or.inr ⟨a, ha.of_clearTo hclear, m, List.mem_flatMap.mpr ⟨step, hstep, hm⟩, hoff⟩

theorem follow_enter (space : ExecSpace) (t : Site) : follow ctx enters (.enter space t) =
    if enters space then walk ctx enters .code t else [] := rfl

/-- A step is accounted for if the walks that it may go on with are. -/
theorem accounted_of_at (hstem : rules.config.builtinMemberStem = ctx.memberStem)
    (ht : WellFormed ctx t) {step : Step} (hstep : step.At ctx t)
    (ih : ∀ mode, Accounted rules ctx t (walk ctx enters mode t)) :
    Accounted rules ctx t (follow ctx enters step) := by
  cases hstep with
  | found hspells => exact accounted_of_spells hstem ht hspells
  | go mode => exact ih mode
  | enter space =>
    rw [follow_enter]
    by_cases henters : enters space = true
    · rw [if_pos henters]
      exact ih .code
    · rw [if_neg henters]
      exact accounted_nil

/-- The matches of a launch. -/
def launchMatch (ctx : Context) (enters : ExecSpace → Bool) (s f args : Site)
    (config : LaunchConfig) : Match :=
  .launch (ctx.launchOf s f args config) (ctx.ofConfig config ++ walk ctx enters .code args)

/-- The edits of a launch are parameters of kernels and the edit of the launch itself: no nested
edit is left over, as long as those of its arguments are accounted for. -/
theorem mem_edits_of_launch {fn args : Site} {config : LaunchConfig} (hw : Walkable ctx s)
    (h : LaunchAt ctx s fn args config)
    (hargs : Accounted rules ctx args (walk ctx enters .code args))
    (he : e ∈ rules.editsFor (launchMatch ctx enters s fn args config)) :
    IsParameter rules ctx e ∨
      e = LaunchRule.launchEdit rules.config.launch (ctx.launchOf s fn args config)
        (rules.editsForAll (ctx.ofConfig config ++ walk ctx enters .code args)) := by
  rw [launchMatch, Rules.editsFor] at he
  rcases LaunchRule.mem_edits he with ⟨params, hparams, rfl⟩ | rfl | ⟨he, hout⟩
  · obtain ⟨k, hk, rfl⟩ := exists_of_mem_paramLists hparams
    exact Or.inl ⟨k, hk, rfl⟩
  · exact Or.inr rfl
  · rcases Rules.mem_editsForAll_append.mp he with he | he
    · rw [h.isInner_of_config hw.neutral he] at hout
      cases hout
    · rcases hargs e he with hp | ⟨a, ha, -⟩
      · exact Or.inl hp
      · rw [h.isInner_of_arguments hw.sound ha.clear.1 (Kind.isKnown_of_isExchanged ha.kind)
          (Kind.ne_comment_of_isExchanged ha.kind) ha.span] at hout
        cases hout

theorem accounted_of_launch {fn args : Site} {config : LaunchConfig} (hw : Walkable ctx s)
    (h : LaunchAt ctx s fn args config)
    (hargs : Accounted rules ctx args (walk ctx enters .code args)) :
    Accounted rules ctx s [launchMatch ctx enters s fn args config] := by
  intro e he
  rw [Rules.mem_editsForAll_singleton] at he
  rcases mem_edits_of_launch hw h hargs he with hp | rfl
  · exact Or.inl hp
  · have hpure := hw.launches s .self h.isLaunch
    have hkind : s.kind.isExchanged = true := by rw [h.isCall]; rfl
    exact Or.inr ⟨s, ⟨.self s, hkind, fun t ht => ⟨(hpure t ht).1, (hpure t ht).2.2⟩, rfl,
      h.start_lt_stop hw.sound hw.neutral⟩, _, List.mem_cons_self, rfl⟩

/-- **All edits of a walk are accounted for.** -/
theorem accounted_walk (hstem : rules.config.builtinMemberStem = ctx.memberStem)
    (hw : Walkable ctx s) : Accounted rules ctx s (walk ctx enters mode s) := by
  induction hn : sizeOf s.node using Nat.strongRecOn generalizing s mode with
  | ind n ih =>
    subst hn
    by_cases hdir : s.kind.isDirective = true
    · rw [walk_directive hw.sound.self hdir]
      exact accounted_nil
    have hdir : s.kind.isDirective = false := by simpa using hdir
    have hdoing : Doing ctx s (ctx.steps mode s) := doing_steps hw.sound hdir
    rw [walk_eq]
    generalize ctx.steps mode s = steps at hdoing
    cases hdoing with
    | found h => exact accounted_of_spells hstem hw.sound.self h
    | @launch fn args config h =>
      have hwa := hw.of_reaches (.of_mem_children h.mem_arguments)
      exact accounted_of_launch hw h (ih _ (Site.below_of_mem_children h.mem_arguments) hwa rfl)
    | laid h =>
      refine accounted_of_steps fun step hstep => ?_
      obtain ⟨t, hat, hclear, hbelow⟩ := h.exists_takenAt hstep
      have hwt := hw.of_reaches hclear.1
      exact ⟨t, hclear, accounted_of_at hstem hwt.sound.self hat fun mode => ih _ hbelow hwt rfl⟩

end Constructs

end CudaToHip
