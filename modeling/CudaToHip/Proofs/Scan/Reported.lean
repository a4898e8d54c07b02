import CudaToHip.Proofs.Match
import CudaToHip.Proofs.Scan.Possible
import CudaToHip.Proofs.Scan.Walk

/-!
# Where matches come from

A walk has three sources for its matches (`Reported`): sites of the tree that spell one, tokens of
the arguments of a launch configuration, and launches. `reported_walk` says so of every match that
a walk finds, at any depth inside of launches, whatever the tree is like: what a step of the walk
reports or goes on with is within the site of the step (`from_of_mem_steps`), and the rest is an
induction along the steps.
-/

namespace CudaToHip

open CudaToHip.Tree

namespace Constructs

variable {ctx : Context} {s t u : Site} {m : Match} {mode : Mode} {enters : ExecSpace → Bool}

/-! ## Steps stay within their site -/

/-- What a step at the site `s` may be. -/
inductive Step.From (ctx : Context) (s : Site) : Step → Prop where
  | found {a : Site} {m : Match} (ha : s.Reaches a) (h : Spells ctx a m) : From ctx s (.found m)
  | go {t : Site} (mode : Mode) (ht : s.Reaches t) : From ctx s (.go mode t)
  | enter {t : Site} (space : ExecSpace) (ht : s.Reaches t) : From ctx s (.enter space t)
  | launch {f args : Site} {config : LaunchConfig} (h : LaunchAt ctx s f args config) :
    From ctx s (.launch (ctx.launchOf s f args config) (ctx.ofConfig config) args)

/-- **Every step of a walk stays within its site**: it reports what is spelled there, takes a launch
there, or goes on there. -/
theorem from_of_mem_steps {step : Step} (h : step ∈ ctx.steps mode s) : step.From ctx s := by
  have child {c t : Site} (hc : c ∈ s.children) (ht : c.Reaches t) : s.Reaches t :=
    ht.trans (.of_mem_children hc)
  cases possible_of_mem_steps h with
  | child _ ht => exact .go _ (child ht .self)
  | type ht => exact .go _ (child (Site.mem_children_of_mem_types ht) .self)
  | typePart _ _ ht => exact .go _ (child ht .self)
  | @parameter d params t hd hparams ht =>
    have hdt : d.Reaches t :=
      .trans (.of_mem_children (Site.mem_children_of_mem_namedChildren ht))
        (.of_mem_children (Site.mem_children_of_child? hparams))
    rcases hd with hd | ⟨rfl, -⟩
    · obtain ⟨c, hc, -, hcd, -⟩ := Site.exists_of_functionDeclarator? hd
      exact .go _ (child hc (hdt.trans hcd))
    · exact .go _ hdt
  | templateArguments _ hf _ ht =>
    exact .go _ (child hf (.of_mem_children (Site.mem_children_of_child? ht)))
  | callee _ hf hname hspells =>
    rcases (exists_of_calleeName? hname).2.2 with rfl | hin
    · exact .found (child hf .self) hspells
    · exact .found (child hf (.of_mem_children hin)) hspells
  | found hspells => exact .found .self hspells
  | launch hlaunch => exact .launch hlaunch
  | initializers _ ht => exact .enter _ (child ht .self)
  | body _ ht => exact .enter _ (child (Site.mem_children_of_child? ht) .self)

/-! ## What a walk reports -/

/-- Where a match found at or below the site `s` comes from. -/
inductive Reported (ctx : Context) (s : Site) : Match → Prop where
  /-- A site of the tree spells it. -/
  | spelled {a : Site} {m : Match} (ha : s.Reaches a) (h : Spells ctx a m) : Reported ctx s m
  /-- It was read off a token of an argument of a launch configuration. -/
  | token {config : LaunchConfig} {arg : Captured} {t : Token} {m : Match}
    (hconfig : config ∈ ctx.neutral.launches) (harg : arg ∈ config.args)
    (ht : t ∈ tokenizeIn ctx.source arg.span) (h : Names t m) : Reported ctx s m
  /-- It is a launch, with what was found in its configuration and in its arguments. -/
  | launch {c f args : Site} {config : LaunchConfig} {enters : ExecSpace → Bool}
    (hc : s.Reaches c) (h : LaunchAt ctx c f args config) :
    Reported ctx s (launchMatch ctx enters c f args config)

theorem Reported.of_reaches (ht : s.Reaches t) (h : Reported ctx t m) : Reported ctx s m := by
  cases h with
  | spelled ha h => exact .spelled (ha.trans ht) h
  | token hconfig harg ht h => exact .token hconfig harg ht h
  | launch hc h => exact .launch (hc.trans ht) h

/-- What a site spells or a token names holds nothing. -/
theorem within_of_spells {a : Site} (h : Spells ctx a m) : m.within = [m] := by
  cases h with
  | call | typeRef | literal => rfl
  | coordinate hk hm =>
    obtain ⟨object, member, -, rfl⟩ := exists_of_coordinate? hm
    rfl

theorem within_of_names {t : Token} (h : Names t m) : m.within = [m] := by
  cases h <;> rfl

theorem reported_ofConfig {config : LaunchConfig} (hconfig : config ∈ ctx.neutral.launches)
    (h : m ∈ Match.withinAll (ctx.ofConfig config)) : Reported ctx s m := by
  obtain ⟨n, hn, hm⟩ := Match.mem_withinAll.mp h
  obtain ⟨arg, harg, hn⟩ := List.mem_flatMap.mp hn
  obtain ⟨t, ht, hnames⟩ := names_of_mem_ofConfigTokens hn
  rw [within_of_names hnames] at hm
  obtain rfl := List.mem_singleton.mp hm
  exact .token hconfig harg ht hnames

/-- **Every match of a walk is reported by a site, by a token of a configuration or as a launch**,
whatever depth it is found at. -/
theorem reported_walk (h : m ∈ Match.withinAll (walk ctx enters mode s)) : Reported ctx s m := by
  induction hn : sizeOf s.node using Nat.strongRecOn generalizing s mode with
  | ind n ih =>
    subst hn
    rw [walk_eq, Match.withinAll_flatMap] at h
    obtain ⟨step, hstep, hm⟩ := List.mem_flatMap.mp h
    have below {t : Site} {mode' : Mode} (hsite : step.site? = some t) (ht : s.Reaches t)
        (hm : m ∈ Match.withinAll (walk ctx enters mode' t)) : Reported ctx s m :=
      (ih _ (steps_below ctx mode s step hstep t hsite) hm rfl).of_reaches ht
    cases from_of_mem_steps hstep with
    | found ha hspells =>
      rw [follow, Match.withinAll_singleton, within_of_spells hspells] at hm
      obtain rfl := List.mem_singleton.mp hm
      exact .spelled ha hspells
    | go mode' ht => exact below rfl ht hm
    | enter space ht =>
      rw [follow_enter] at hm
      split at hm
      · exact below rfl ht hm
      · cases hm
    | @launch f args config hlaunch =>
      rw [follow, Match.withinAll_singleton, Match.within, Match.withinAll_append] at hm
      rcases List.mem_cons.mp hm with rfl | hm
      · exact .launch .self hlaunch
      rcases List.mem_append.mp hm with hm | hm
      · exact reported_ofConfig hlaunch.mem_launches hm
      · exact below rfl (.of_mem_children hlaunch.mem_arguments) hm

end Constructs

end CudaToHip
