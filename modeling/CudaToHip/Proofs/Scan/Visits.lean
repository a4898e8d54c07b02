import CudaToHip.Proofs.Scan.TextOrder

/-!
# Sites that a walk visits

A walk visits a site in a mode if it comes to it from step to step (`Visits`). Since the steps at a
site do not meet, every byte belongs to one of them at most. So the names that a walk finds at a
byte are those that it finds on the visit of any site around this byte (`namesAt_of_visits`),
however deep in launches: nothing else adds a name there, and nothing takes one away.

* `between_of_namesAt_walk`: the names that are found at and below a site stand inside of it.
* `namesAt_of_step`: at a byte around which a step goes on, only that step finds names.
* `visits_of_mem_visited`: the sites that are visited can be listed.
* `exists_visit_of_mem_walk`: every match, in launches too, is found at one of them.
-/

namespace CudaToHip

open CudaToHip.Tree

/-! ## Names at a byte -/

namespace Match

variable {byte : Nat} {m : Match} {ms ns : List Match}

/-- The match is the name of a called function, of a type or of a constant at the byte. -/
def isNameAt (byte : Nat) : Match → Bool
  | .call _ loc | .typeRef _ loc _ => loc.effective = byte
  | _ => false

/-- The names at a byte, those in launches included. -/
def namesAt (byte : Nat) (ms : List Match) : List Match := (withinAll ms).filter (isNameAt byte)

theorem namesAt_append : namesAt byte (ms ++ ns) = namesAt byte ms ++ namesAt byte ns := by
  rw [namesAt, withinAll_append, List.filter_append]
  rfl

theorem namesAt_flatMap {α : Type} (xs : List α) (f : α → List Match) :
    namesAt byte (xs.flatMap f) = xs.flatMap fun x => namesAt byte (f x) := by
  rw [namesAt, withinAll_flatMap, List.filter_flatMap]
  rfl

/-- A launch is no name, but may hold some. -/
theorem namesAt_launch (l : Launch) (nested : List Match) :
    namesAt byte [.launch l nested] = namesAt byte nested := by
  rw [namesAt, withinAll_singleton, within]
  exact List.filter_cons_of_neg (by simp [isNameAt])

theorem mem_namesAt : m ∈ namesAt byte ms ↔ m ∈ withinAll ms ∧ isNameAt byte m = true :=
  List.mem_filter

theorem offset_of_isNameAt (h : isNameAt byte m = true) : m.offset = byte := by
  cases m with
  | call | typeRef => exact of_decide_eq_true h
  | _ => cases h

theorem namesAt_eq_nil (h : ∀ m ∈ withinAll ms, m.offset ≠ byte) : namesAt byte ms = [] :=
  List.filter_eq_nil_iff.mpr fun m hm hname => h m hm (offset_of_isNameAt hname)

end Match

namespace Constructs

open Match (namesAt)

variable {ctx : Context} {enters : ExecSpace → Bool} {r s t u f args : Site} {config : LaunchConfig}
  {mode mode' mode₀ : Mode} {byte : Nat} {m : Match}

/-! ## Where names stand -/

/-- What is found in a configuration begins inside of it. -/
theorem offset_of_mem_ofConfig (hn : ctx.neutral = neutralize ctx.source)
    (hconfig : config ∈ ctx.neutral.launches) (h : m ∈ Match.withinAll (ctx.ofConfig config)) :
    config.span.start ≤ m.offset ∧ m.offset < config.span.stop := by
  rw [hn] at hconfig
  obtain ⟨n, hmem, hm⟩ := Match.mem_withinAll.mp h
  obtain ⟨arg, harg, hmem⟩ := List.mem_flatMap.mp hmem
  obtain ⟨t, ht, hnames⟩ := names_of_mem_ofConfigTokens hmem
  rw [within_of_names hnames] at hm
  obtain rfl := List.mem_singleton.mp hm
  have harg' := Span.contains_iff.mp ((row_of_mem_launches hconfig).1 arg harg)
  have hin := Span.contains_iff.mp
    (contains_of_mem_tokenizeIn (text?_of_mem_args hconfig arg harg) ht)
  have hlt : t.start < t.span.stop := Lexer.start_lt_stop_of_mem_tokens ht
  have hstart : m.offset = t.start := offset_of_names hnames
  have hle : arg.span.start ≤ t.start := hin.1
  omega

theorem namesAt_ofConfig (hn : ctx.neutral = neutralize ctx.source)
    (hconfig : config ∈ ctx.neutral.launches)
    (hbyte : byte < config.span.start ∨ config.span.stop ≤ byte) :
    namesAt byte (ctx.ofConfig config) = [] := by
  refine Match.namesAt_eq_nil fun m hm => ?_
  have hoffset := offset_of_mem_ofConfig hn hconfig hm
  omega

/-- A name that a site spells stands at its first byte, and takes text. -/
theorem between_of_namesAt_spells {a : Site} (ha : WellFormed ctx a) {n : Match}
    (hspells : Spells ctx a n) (h : m ∈ namesAt byte [n]) :
    a.span.start ≤ byte ∧ byte < a.span.stop := by
  obtain ⟨hm, hname⟩ := Match.mem_namesAt.mp h
  rw [Match.withinAll_singleton, within_of_spells hspells] at hm
  obtain rfl := List.mem_singleton.mp hm
  have hstart := (Match.offset_of_isNameAt hname).symm.trans (offset_of_spells hspells)
  have hlt : a.span.start < a.span.stop := by
    cases hspells with
    | call _ hapi | typeRef _ _ hapi => exact ha.start_lt_stop (ne_empty_of_isApiName hapi)
    | literal => cases hname
    | coordinate _ hm =>
      obtain ⟨_, _, -, rfl⟩ := exists_of_coordinate? hm
      cases hname
  omega

/-- **The names that are found at and below a site stand inside of it.** -/
theorem between_of_namesAt_walk (hs : Sound ctx s) (hn : ctx.neutral = neutralize ctx.source)
    (h : m ∈ namesAt byte (walk ctx enters mode s)) :
    s.span.start ≤ byte ∧ byte < s.span.stop := by
  induction hsize : sizeOf s.node using Nat.strongRecOn generalizing s mode with
  | ind size ih =>
    subst hsize
    rw [walk_eq, Match.namesAt_flatMap] at h
    obtain ⟨step, hstep, hm⟩ := List.mem_flatMap.mp h
    have inside {t : Site} (ht : s.Reaches t) (h : t.span.start ≤ byte ∧ byte < t.span.stop) :
        s.span.start ≤ byte ∧ byte < s.span.stop := by
      have hin := Span.contains_iff.mp (Site.contains_of_reaches hs.placed ht)
      omega
    have below {t : Site} {mode' : Mode} (hsite : step.site? = some t) (ht : s.Reaches t)
        (hm : m ∈ namesAt byte (walk ctx enters mode' t)) :
        s.span.start ≤ byte ∧ byte < s.span.stop :=
      inside ht (ih _ (steps_below ctx mode s step hstep t hsite) (hs.of_reaches ht) hm rfl)
    cases from_of_mem_steps hstep with
    | found ha hspells => exact inside ha (between_of_namesAt_spells (hs _ ha) hspells hm)
    | go mode' ht => exact below rfl ht hm
    | enter space ht =>
      rw [follow_enter] at hm
      split at hm
      · exact below rfl ht hm
      · cases hm
    | @launch f args config hlaunch =>
      rw [follow, Match.namesAt_launch, Match.namesAt_append] at hm
      rcases List.mem_append.mp hm with hm | hm
      · obtain ⟨hm, hname⟩ := Match.mem_namesAt.mp hm
        have hoffset := offset_of_mem_ofConfig hn hlaunch.mem_launches hm
        rw [Match.offset_of_isNameAt hname] at hoffset
        have hbetween := hlaunch.config_between
        have hf := Span.contains_iff.mp (hs.self.inside f hlaunch.mem_function)
        have hargs := Span.contains_iff.mp (hs.self.inside args hlaunch.mem_arguments)
        have hfle := (hs f (.of_mem_children hlaunch.mem_function)).placed.le
        have hale := (hs args (.of_mem_children hlaunch.mem_arguments)).placed.le
        omega
      · exact below rfl (.of_mem_children hlaunch.mem_arguments) hm

/-! ## Steps around a byte -/

/-- The site at which the walk goes on after a step, and its mode there. -/
def Step.next? (enters : ExecSpace → Bool) : Step → Option (Mode × Site)
  | .found _ => none
  | .go mode t => some (mode, t)
  | .enter space t => if enters space then some (.code, t) else none
  | .launch _ _ t => some (.code, t)

theorem Step.site?_of_next? {step : Step} (h : step.next? enters = some (mode', t)) :
    step.site? = some t := by
  cases step with
  | found => cases h
  | go | launch =>
    cases h
    rfl
  | enter space u =>
    rw [Step.next?] at h
    split at h
    · cases h
      rfl
    · cases h

/-- Steps that are laid out find no names outside of their sites. -/
theorem between_of_namesAt_follow {step : Step} {a : Site} (hs : Sound ctx a)
    (hn : ctx.neutral = neutralize ctx.source) (hat : step.At ctx a)
    (h : m ∈ namesAt byte (follow ctx enters step)) :
    a.span.start ≤ byte ∧ byte < a.span.stop := by
  cases hat with
  | found hspells => exact between_of_namesAt_spells hs.self hspells h
  | go mode t => exact between_of_namesAt_walk hs hn h
  | enter space t =>
    rw [follow_enter] at h
    split at h
    · exact between_of_namesAt_walk hs hn h
    · cases h

/-- A step that goes on finds what is found where it leads. -/
theorem follow_of_next? {step : Step} {a : Site} (hat : step.At ctx a)
    (hnext : step.next? enters = some (mode', t)) :
    a = t ∧ follow ctx enters step = walk ctx enters mode' t := by
  cases hat with
  | found => cases hnext
  | go =>
    cases hnext
    exact ⟨rfl, rfl⟩
  | enter space u =>
    rw [Step.next?, Option.ite_none_right_eq_some] at hnext
    obtain ⟨hspace, hnext⟩ := hnext
    cases hnext
    exact ⟨rfl, by rw [follow_enter, if_pos hspace]⟩

/-- **Of steps that do not meet** only one finds names at a byte around which it goes on. -/
theorem namesAt_of_forall₂ {steps : List Step} {sites : List Site} {step : Step}
    (hn : ctx.neutral = neutralize ctx.source) (hat : List.Forall₂ (Step.At ctx) steps sites)
    (hs : ∀ a ∈ sites, Sound ctx a) (hapart : sites.Pairwise fun a b => a.span.Apart b.span)
    (hstep : step ∈ steps) (hnext : step.next? enters = some (mode', t))
    (hbyte : t.span.start ≤ byte ∧ byte < t.span.stop) :
    namesAt byte (steps.flatMap (follow ctx enters)) = namesAt byte (walk ctx enters mode' t) := by
  -- a step at a site apart from the one around the byte finds no names there
  have none_at {x : Step} {a : Site} (hx : x.At ctx a) (ha : Sound ctx a)
      (hat : a.span.Apart t.span) : namesAt byte (follow ctx enters x) = [] := by
    refine List.eq_nil_iff_forall_not_mem.mpr fun m hm => ?_
    have hbetween := between_of_namesAt_follow ha hn hx hm
    rcases hat with h | h <;> omega
  induction hat with
  | nil => cases hstep
  | @cons x a xs as hx hxs ih =>
    obtain ⟨ha, hs⟩ := List.forall_mem_cons.mp hs
    obtain ⟨hfirst, hapart⟩ := List.pairwise_cons.mp hapart
    rw [List.flatMap_cons, Match.namesAt_append]
    rcases List.mem_cons.mp hstep with rfl | hstep
    · obtain ⟨rfl, hfollow⟩ := follow_of_next? hx hnext
      rw [hfollow, Match.namesAt_flatMap, List.append_right_eq_self, List.flatMap_eq_nil_iff]
      intro y hy
      obtain ⟨b, hb, hyb⟩ := exists_of_forall₂ hxs hy
      exact none_at hyb (hs b hb) (hfirst b hb).symm
    · obtain ⟨b, hb, hxb⟩ := exists_of_forall₂ hxs hstep
      obtain ⟨rfl, -⟩ := follow_of_next? hxb hnext
      rw [none_at hx ha (hfirst b hb), List.nil_append]
      exact ih hs hapart hstep

/-- **At a byte around which a step goes on, only that step finds names.** -/
theorem namesAt_of_step {step : Step} (hs : Sound ctx s) (hn : ctx.neutral = neutralize ctx.source)
    (hstep : step ∈ ctx.steps mode s) (hnext : step.next? enters = some (mode', t))
    (hbyte : t.span.start ≤ byte ∧ byte < t.span.stop) :
    namesAt byte (walk ctx enters mode s) = namesAt byte (walk ctx enters mode' t) := by
  by_cases hdir : s.kind.isDirective = true
  · -- nothing is found in a directive, and so nothing by any of its steps
    have hwalk : walk ctx enters mode s = [] := walk_directive hs.self hdir
    have hfollow : follow ctx enters step = [] := by
      rw [walk_eq] at hwalk
      exact List.flatMap_eq_nil_iff.mp hwalk step hstep
    rw [hwalk]
    cases step with
    | found | launch => cases hfollow
    | go => rw [← (follow_of_next? (.go _ _) hnext).2, hfollow]
    | enter => rw [← (follow_of_next? (.enter _ _) hnext).2, hfollow]
  · have hsteps : Doing ctx s (ctx.steps mode s) := doing_steps hs (by simpa using hdir)
    rw [walk_eq]
    generalize ctx.steps mode s = steps at hsteps hstep
    cases hsteps with
    | found =>
      obtain rfl := List.mem_singleton.mp hstep
      cases hnext
    | @launch f args config hlaunch =>
      obtain rfl := List.mem_singleton.mp hstep
      obtain ⟨rfl, rfl⟩ := Prod.mk.inj (Option.some.inj hnext)
      have hbetween := hlaunch.config_between
      rw [List.flatMap_singleton, follow, Match.namesAt_launch, Match.namesAt_append,
        namesAt_ofConfig hn hlaunch.mem_launches (by omega), List.nil_append]
    | laid hlaid =>
      obtain ⟨sites, hat, hin, hapart⟩ := hlaid
      exact namesAt_of_forall₂ hn hat (fun a ha => hs.of_reaches (hin a ha).1.1) hapart hstep
        hnext hbyte

/-! ## Visits -/

/-- A walk that begins at `r` in the mode `mode₀` comes to a site, in a mode. -/
inductive Visits (ctx : Context) (enters : ExecSpace → Bool) (mode₀ : Mode) (r : Site) :
    Mode → Site → Prop
  | self : Visits ctx enters mode₀ r mode₀ r
  | step {mode mode' : Mode} {s t : Site} {step : Step} : Visits ctx enters mode₀ r mode s →
      step ∈ ctx.steps mode s → step.next? enters = some (mode', t) →
      Visits ctx enters mode₀ r mode' t

theorem reaches_of_step {step : Step} (hstep : step ∈ ctx.steps mode s)
    (hnext : step.next? enters = some (mode', t)) : s.Reaches t := by
  have hsite := Step.site?_of_next? hnext
  cases from_of_mem_steps hstep with
  | found => cases hnext
  | go _ ht | enter _ ht =>
    cases hsite
    exact ht
  | launch hlaunch =>
    cases hsite
    exact .of_mem_children hlaunch.mem_arguments

theorem Visits.reaches (h : Visits ctx enters mode₀ r mode s) : r.Reaches s := by
  induction h with
  | self => exact .self
  | step _ hstep hnext ih => exact (reaches_of_step hstep hnext).trans ih

/-- **The names at a byte are those of the visits around it.** -/
theorem namesAt_of_visits (hr : Sound ctx r) (hn : ctx.neutral = neutralize ctx.source)
    (h : Visits ctx enters mode₀ r mode s) (hbyte : s.span.start ≤ byte ∧ byte < s.span.stop) :
    namesAt byte (walk ctx enters mode₀ r) = namesAt byte (walk ctx enters mode s) := by
  induction h with
  | self => rfl
  | @step mode mode' s t step hvisits hstep hnext ih =>
    have hs := hr.of_reaches hvisits.reaches
    have hin := Span.contains_iff.mp
      (Site.contains_of_reaches hs.placed (reaches_of_step hstep hnext))
    rw [ih (by omega), namesAt_of_step hs hn hstep hnext hbyte]

/-- The sites that a walk visits, each with its mode, in order. -/
def visited (ctx : Context) (enters : ExecSpace → Bool) (mode : Mode) (s : Site) :
    List (Mode × Site) :=
  (mode, s) :: (ctx.steps mode s).attach.flatMap fun ⟨step, _⟩ =>
    match _hnext : step.next? enters with
    | some (mode', t) => visited ctx enters mode' t
    | none => []
termination_by sizeOf s.node
decreasing_by exact steps_below ctx mode s _ ‹_› _ (Step.site?_of_next? _hnext)

theorem Visits.trans (h : Visits ctx enters mode s mode' t)
    (hs : Visits ctx enters mode₀ r mode s) : Visits ctx enters mode₀ r mode' t := by
  induction h with
  | self => exact hs
  | step _ hstep hnext ih => exact ih.step hstep hnext

/-- The sites of the list are visited. -/
theorem visits_of_mem_visited (h : (mode', t) ∈ visited ctx enters mode s) :
    Visits ctx enters mode s mode' t := by
  induction hsize : sizeOf s.node using Nat.strongRecOn generalizing s mode with
  | ind size ih =>
    subst hsize
    rw [visited] at h
    rcases List.mem_cons.mp h with h | h
    · cases h
      exact .self
    · obtain ⟨⟨step, hstep⟩, -, h⟩ := List.mem_flatMap.mp h
      dsimp only at h
      split at h
      · rename_i mode'' u hnext
        have hbelow := steps_below ctx mode s step hstep u (Step.site?_of_next? hnext)
        exact (ih _ hbelow h rfl).trans (Visits.self.step hstep hnext)
      · cases h

/-! ## Where a match comes from -/

/-- **What a walk finds at a site itself**, and not where it goes on from there. -/
inductive Finds (ctx : Context) (enters : ExecSpace → Bool) (mode : Mode) (a : Site) :
    Match → Prop
  /-- What a step finds. -/
  | step {m : Match} : .found m ∈ ctx.steps mode a → Finds ctx enters mode a m
  /-- A launch, with all that it holds. -/
  | launch {f args : Site} {config : LaunchConfig} : LaunchAt ctx a f args config →
      Finds ctx enters mode a (.launch (ctx.launchOf a f args config)
        (ctx.ofConfig config ++ walk ctx enters .code args))
  /-- A match in the configuration of a launch. -/
  | config {f args : Site} {config : LaunchConfig} {m : Match} : LaunchAt ctx a f args config →
      m ∈ Match.withinAll (ctx.ofConfig config) → Finds ctx enters mode a m

/-- **Every match of a walk is found at a site that it visits**, whatever depth it is found at. -/
theorem exists_visit_of_mem_walk (h : m ∈ Match.withinAll (walk ctx enters mode s)) :
    ∃ mode' a, Visits ctx enters mode s mode' a ∧ Finds ctx enters mode' a m := by
  induction hsize : sizeOf s.node using Nat.strongRecOn generalizing s mode with
  | ind size ih =>
    subst hsize
    rw [walk_eq, Match.withinAll_flatMap] at h
    obtain ⟨step, hstep, hm⟩ := List.mem_flatMap.mp h
    have below {t : Site} {mode' : Mode} (hnext : step.next? enters = some (mode', t))
        (hm : m ∈ Match.withinAll (walk ctx enters mode' t)) :
        ∃ mode' a, Visits ctx enters mode s mode' a ∧ Finds ctx enters mode' a m := by
      have hbelow := steps_below ctx mode s step hstep t (Step.site?_of_next? hnext)
      obtain ⟨mode'', a, ha, hfound⟩ := ih _ hbelow hm rfl
      exact ⟨mode'', a, ha.trans (Visits.self.step hstep hnext), hfound⟩
    cases from_of_mem_steps hstep with
    | found _ hspells =>
      rw [follow, Match.withinAll_singleton, within_of_spells hspells] at hm
      obtain rfl := List.mem_singleton.mp hm
      exact ⟨mode, s, .self, .step hstep⟩
    | go => exact below rfl hm
    | enter space _ =>
      rw [follow_enter] at hm
      split at hm
      · rename_i henters
        exact below (by rw [Step.next?, if_pos henters]) hm
      · cases hm
    | @launch f args config hlaunch =>
      rw [follow, Match.withinAll_singleton, Match.within, Match.withinAll_append] at hm
      rcases List.mem_cons.mp hm with rfl | hm
      · exact ⟨mode, s, .self, .launch hlaunch⟩
      rcases List.mem_append.mp hm with hm | hm
      · exact ⟨mode, s, .self, .config hlaunch hm⟩
      · exact below rfl hm

end Constructs

end CudaToHip
