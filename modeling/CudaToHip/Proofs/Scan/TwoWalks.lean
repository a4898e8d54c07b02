import CudaToHip.Proofs.Scan.Possible
import CudaToHip.Proofs.Scan.Walk

/-!
# Two walks over one tree

The host scan and the device scan are walks over one tree that enter different functions. Where no
function is defined they find the same (`walk_congr`), which is so inside of a launch.

`concur_walk`: parameters of kernels left aside, the edits of two walks agree. Different steps
find text that is apart, and one step goes on with two walks over a smaller tree.
-/

namespace CudaToHip

open CudaToHip.Tree ReplacementSet

namespace Constructs

variable {ctx : Context} {rules : Rules} {s t u a b : Site} {m : Match} {e e₁ e₂ : Edit}
  {mode : Mode} {f g : ExecSpace → Bool} {ms ns : List Match}

/-! ## Where no function is defined -/

/-- **Where no function is defined, all walks find the same.** -/
theorem walk_congr (hs : Sound ctx s) (hno : ∀ t, s.Reaches t → t.kind ≠ .functionDefinition) :
    walk ctx f mode s = walk ctx g mode s := by
  induction hn : sizeOf s.node using Nat.strongRecOn generalizing s mode with
  | ind n ih =>
    subst hn
    by_cases hdir : s.kind.isDirective = true
    · rw [walk_directive hs.self hdir, walk_directive hs.self hdir]
    have hdir : s.kind.isDirective = false := by simpa using hdir
    have hdoing : Doing ctx s (ctx.steps mode s) := doing_steps hs hdir
    have henter : ∀ space t, Step.enter space t ∉ ctx.steps mode s :=
      fun space t h => hno s .self (kind_of_enter_mem h)
    have below {t : Site} (ht : s.Reaches t) (hlt : t.Below s) (mode : Mode) :
        walk ctx f mode t = walk ctx g mode t :=
      ih _ hlt (hs.of_reaches ht) (fun u hu => hno u (hu.trans ht)) rfl
    rw [walk_eq, walk_eq]
    generalize ctx.steps mode s = steps at hdoing henter
    cases hdoing with
    | found h => rfl
    | @launch fn args config h =>
      have hargs : args ∈ s.children := h.mem_arguments
      have hcode := below (.of_mem_children hargs) (Site.below_of_mem_children hargs) .code
      rw [List.flatMap_cons, List.flatMap_cons, follow, follow, hcode]
      rfl
    | laid h =>
      refine List.flatMap_congr fun step hstep => ?_
      obtain ⟨t, hat, hclear, hbelow⟩ := h.exists_takenAt hstep
      cases hat with
      | found => rfl
      | go mode => exact below hclear.1 hbelow mode
      | enter space => exact absurd hstep (henter space t)

/-! ## Where functions are defined -/

/-- The edits agree, unless one of them is a parameter of a kernel. -/
def Concur (rules : Rules) (ctx : Context) (ms ns : List Match) : Prop :=
  ∀ e₁ ∈ rules.editsForAll ms, ∀ e₂ ∈ rules.editsForAll ns,
    IsParameter rules ctx e₁ ∨ IsParameter rules ctx e₂ ∨ Agree e₁ e₂

theorem concur_nil : Concur rules ctx [] ns := by
  intro e₁ h₁
  cases h₁

theorem Concur.symm (h : Concur rules ctx ms ns) : Concur rules ctx ns ms := by
  intro e₁ h₁ e₂ h₂
  rcases h e₂ h₂ e₁ h₁ with h | h | h
  · exact Or.inr (Or.inl h)
  · exact Or.inl h
  · exact Or.inr (Or.inr h.symm)

theorem concur_of_spells (h : Spells ctx a m) : Concur rules ctx [m] [m] := by
  intro e₁ h₁ e₂ h₂
  rw [Rules.mem_editsForAll_singleton] at h₁ h₂
  rw [eq_of_spells h h₁ h₂]
  exact Or.inr (Or.inr (Agree.refl _))

/-- Edits accounted for at sites that are apart agree. -/
theorem concur_of_apart (ht : Sound ctx t) (hu : Sound ctx u) (hapart : t.span.Apart u.span)
    (hms : Accounted rules ctx t ms) (hns : Accounted rules ctx u ns) :
    Concur rules ctx ms ns := by
  intro e₁ h₁ e₂ h₂
  rcases hms e₁ h₁ with hp | ⟨a, ha, -⟩
  · exact Or.inl hp
  rcases hns e₂ h₂ with hp | ⟨b, hb, -⟩
  · exact Or.inr (Or.inl hp)
  have hta := Site.contains_of_reaches ht.placed ha.clear.1
  have hub := Site.contains_of_reaches hu.placed hb.clear.1
  refine Or.inr (Or.inr (agree_of_apart ?_ ?_ ?_))
  · rw [ha.span]
    exact ha.lt
  · rw [hb.span]
    exact Nat.le_of_lt hb.lt
  · rw [ha.span, hb.span]
    exact hapart.mono hta hub

/-- One launch gives one edit, and parameters, in both walks. -/
theorem concur_of_launch {fn args : Site} {config : LaunchConfig}
    (hstem : rules.config.builtinMemberStem = ctx.memberStem) (hw : Walkable ctx s)
    (h : LaunchAt ctx s fn args config) :
    Concur rules ctx [launchMatch ctx f s fn args config] [launchMatch ctx g s fn args config] := by
  have hreach : s.Reaches args := .of_mem_children h.mem_arguments
  have hwa := hw.of_reaches hreach
  -- nothing in the launch depends on the functions entered
  have hsame : walk ctx f .code args = walk ctx g .code args :=
    walk_congr hwa.sound fun t ht => (hw.launches s .self h.isLaunch t (ht.trans hreach)).2.1
  intro e₁ h₁ e₂ h₂
  rw [Rules.mem_editsForAll_singleton] at h₁ h₂
  rcases mem_edits_of_launch hw h (accounted_walk hstem hwa) h₁ with hp | rfl
  · exact Or.inl hp
  rcases mem_edits_of_launch hw h (accounted_walk hstem hwa) h₂ with hp | rfl
  · exact Or.inr (Or.inl hp)
  rw [hsame]
  exact Or.inr (Or.inr (Agree.refl _))

/-- One step concurs with itself if the walks that it may go on with concur. -/
theorem concur_of_at {step : Step} (hstep : step.At ctx t)
    (ih : ∀ mode, Concur rules ctx (walk ctx f mode t) (walk ctx g mode t)) :
    Concur rules ctx (follow ctx f step) (follow ctx g step) := by
  cases hstep with
  | found hspells => exact concur_of_spells hspells
  | go mode => exact ih mode
  | enter space =>
    rw [follow_enter, follow_enter]
    by_cases hf : f space = true
    · by_cases hg : g space = true
      · rw [if_pos hf, if_pos hg]
        exact ih .code
      · rw [if_neg hg]
        exact concur_nil.symm
    · rw [if_neg hf]
      exact concur_nil

/-- Different steps concur, because they find text that is apart. -/
theorem concur_of_taken {x y : Step} (hstem : rules.config.builtinMemberStem = ctx.memberStem)
    (hw : Walkable ctx s) (hx : x.TakenAt ctx s t) (hy : y.TakenAt ctx s u)
    (hapart : t.span.Apart u.span) : Concur rules ctx (follow ctx f x) (follow ctx g y) := by
  have hwt := hw.of_reaches hx.clear.1
  have hwu := hw.of_reaches hy.clear.1
  exact concur_of_apart hwt.sound hwu.sound hapart
    (accounted_of_at hstem hwt.sound.self hx.at_site fun _ => accounted_walk hstem hwt)
    (accounted_of_at hstem hwu.sound.self hy.at_site fun _ => accounted_walk hstem hwu)

/-- **Two walks over one tree concur.** -/
theorem concur_walk (hstem : rules.config.builtinMemberStem = ctx.memberStem)
    (hw : Walkable ctx s) : Concur rules ctx (walk ctx f mode s) (walk ctx g mode s) := by
  induction hn : sizeOf s.node using Nat.strongRecOn generalizing s mode with
  | ind n ih =>
    subst hn
    by_cases hdir : s.kind.isDirective = true
    · rw [walk_directive hw.sound.self hdir]
      exact concur_nil
    have hdir : s.kind.isDirective = false := by simpa using hdir
    have hdoing : Doing ctx s (ctx.steps mode s) := doing_steps hw.sound hdir
    rw [walk_eq, walk_eq]
    generalize ctx.steps mode s = steps at hdoing
    cases hdoing with
    | found h => exact concur_of_spells h
    | launch h => exact concur_of_launch hstem hw h
    | laid h =>
      intro e₁ h₁ e₂ h₂
      obtain ⟨x, hx, h₁⟩ := Rules.mem_editsForAll_flatMap.mp h₁
      obtain ⟨y, hy, h₂⟩ := Rules.mem_editsForAll_flatMap.mp h₂
      rcases eq_or_of_pairwise h.pairwise hx hy with
        rfl | ⟨t, u, hxt, hyu, hapart⟩ | ⟨t, u, hyt, hxu, hapart⟩
      · obtain ⟨t, hat, hclear, hbelow⟩ := h.exists_takenAt hx
        have hwt := hw.of_reaches hclear.1
        exact concur_of_at hat (fun mode => ih _ hbelow hwt rfl) e₁ h₁ e₂ h₂
      · exact concur_of_taken hstem hw hxt hyu hapart e₁ h₁ e₂ h₂
      · exact concur_of_taken hstem hw hxu hyt hapart.symm e₁ h₁ e₂ h₂

end Constructs

end CudaToHip
