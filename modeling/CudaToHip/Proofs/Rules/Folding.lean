import CudaToHip.Proofs.Rules.Parameters

/-!
# A launch is one edit

Whatever is found in the arguments of a launch is worked into the edit of the launch, at any depth:
a launch in an argument has worked in what is found in its own arguments before. Only the parameters
of declarations, which stand elsewhere, are handed on (`Rules.edits_of_folded_launch`).

* `Rules.contains_of_mem_within`: launches nested in arguments stand inside the outermost one.
* `Rules.Folded.isInner_eq`: an argument takes in all edits that are nested but the parameters.
-/

namespace CudaToHip

open LaunchRule

namespace Rules

open Match

variable {rules : Rules} {l : Launch} {nested ms : List Match} {e : Edit} {outer : Span}

/-- Arguments stand inside their launch, and nested launches inside an argument. -/
def NestsInside (ms : List Match) : Prop :=
  ∀ l nested, .launch l nested ∈ ms → (∀ arg ∈ l.argSpans, l.span.contains arg = true) ∧
    ∀ n ∈ nested, n.OnLaunch fun k _ => ∃ arg ∈ l.argSpans, arg.contains k.span = true

/-- A launch in which everything found is edited inside an argument of the launch that it is nested
in, at any depth, and that is clear of all declarations of the launched kernels. -/
structure Folded (rules : Rules) (l : Launch) (nested : List Match) : Prop where
  inside : NestsInside (within (.launch l nested))
  /-- What is nested in a launch is a launch or is edited inside an argument. -/
  edited : NestsLaunches rules (within (.launch l nested))
  clear : ∀ P ∈ l.paramLists ++ paramLists nested, P.span.Clear l.span

instance (rules : Rules) (l : Launch) (nested : List Match) :
    Decidable (rules.Folded l nested) :=
  decidable_of_iff
    ((∀ m ∈ within (.launch l nested), m.OnLaunch fun l nested =>
        ((∀ arg ∈ l.argSpans, l.span.contains arg = true) ∧
          ∀ n ∈ nested, n.OnLaunch fun k _ => ∃ arg ∈ l.argSpans, arg.contains k.span = true) ∧
        ∀ n ∈ nested, n.isLaunch = true ∨ ∀ e ∈ rules.editsFor n, isInner l e = true) ∧
      ∀ P ∈ l.paramLists ++ paramLists nested, P.span.Clear l.span) <| by
    rw [forall_onLaunch_iff]
    constructor
    · rintro ⟨heach, hclear⟩
      exact ⟨fun k ns hk => (heach k ns hk).1, fun k ns hk => (heach k ns hk).2, hclear⟩
    · rintro ⟨hinside, hedited, hclear⟩
      exact ⟨fun k ns hk => ⟨hinside k ns hk, hedited k ns hk⟩, hclear⟩

/-! ## Launches inside launches -/

mutual

/-- Launches nested in a launch stand inside of it. -/
theorem contains_of_mem_within (m : Match) (h : NestsInside m.within)
    (hm : m.OnLaunch fun l _ => outer.contains l.span = true) {k : Launch} {ns : List Match}
    (hk : .launch k ns ∈ m.within) : outer.contains k.span = true := by
  cases m with
  | launch l nested =>
    rcases List.mem_cons.mp hk with heq | hk
    · cases heq
      exact hm
    · obtain ⟨hargs, hnested⟩ := h l nested List.mem_cons_self
      refine contains_of_mem_withinAll nested
        (fun k ns hk => h k ns (List.mem_cons_of_mem _ hk)) (fun n hn => ?_) hk
      have hn := hnested n hn
      cases n with
      | launch k ns =>
        obtain ⟨arg, harg, hcontains⟩ := hn
        exact Span.contains_trans hm (Span.contains_trans (hargs arg harg) hcontains)
      | _ => trivial
  | _ => exact nomatch List.mem_singleton.mp hk

theorem contains_of_mem_withinAll (ms : List Match) (h : NestsInside (withinAll ms))
    (hms : ∀ m ∈ ms, m.OnLaunch fun l _ => outer.contains l.span = true) {k : Launch}
    {ns : List Match} (hk : .launch k ns ∈ withinAll ms) : outer.contains k.span = true := by
  cases ms with
  | nil => cases hk
  | cons m ms =>
    obtain ⟨hm, hms⟩ := List.forall_mem_cons.mp hms
    rcases List.mem_append.mp hk with hk | hk
    · exact contains_of_mem_within m (fun k ns hk => h k ns (List.mem_append_left _ hk)) hm hk
    · exact contains_of_mem_withinAll ms (fun k ns hk => h k ns (List.mem_append_right _ hk))
        hms hk

end

/-! ## What the arguments take in -/

namespace Folded

variable (h : Folded rules l nested)
include h

theorem handsOn : HandsOn rules (within (.launch l nested)) := by
  intro k ns hk P hP
  have hspan : l.span.contains k.span = true :=
    contains_of_mem_within _ h.inside (Span.contains_self l.span) hk
  refine isInner_parameterEdit (b := l.span)
    (fun arg harg => Span.contains_trans hspan ((h.inside k ns hk).1 arg harg)) ?_
  obtain ⟨m, hm, hPm⟩ := List.mem_flatMap.mp hP
  have hm' : m ∈ within (.launch l nested) := mem_within_trans _ hk (List.mem_cons_of_mem _ hm)
  refine h.clear P (List.mem_append.mpr ?_)
  rcases List.mem_cons.mp hm' with rfl | hm'
  · exact Or.inl hPm
  · exact Or.inr (mem_paramLists_of_mem hm' hPm)

/-- The parameters that are asked for in the arguments. -/
theorem filter_isParameter_nested : (rules.editsForAll nested).filter isParameter =
    (paramLists nested).map (parameterEdit rules.config.launch) :=
  filter_isParameter nested fun k ns hk => h.handsOn k ns (List.mem_cons_of_mem _ hk)

/-- **An argument takes in every nested edit that is no parameter**, and no other. -/
theorem isInner_eq (he : e ∈ rules.editsForAll nested) : isInner l e = !isParameter e := by
  cases hparameter : isParameter e with
  | true =>
    have hmem := List.mem_filter.mpr ⟨he, hparameter⟩
    rw [h.filter_isParameter_nested] at hmem
    obtain ⟨P, hP, rfl⟩ := List.mem_map.mp hmem
    exact h.handsOn l nested List.mem_cons_self P hP
  | false =>
    obtain ⟨n, hn, hen⟩ := mem_editsForAll.mp he
    rcases h.edited l nested List.mem_cons_self n hn with hlaunch | hinner
    · have hwithin {k : Launch} {ns : List Match} (hk : .launch k ns ∈ n.within) :
          .launch k ns ∈ within (.launch l nested) :=
        List.mem_cons_of_mem _ (mem_withinAll.mpr ⟨n, hn, hk⟩)
      rcases span_of_mem_editsFor n hlaunch (fun k ns hk => h.edited k ns (hwithin hk)) hen with
        hp | ⟨k, ns, hk, hspan⟩
      · exact absurd (hparameter.symm.trans hp) Bool.false_ne_true
      · -- the edit of a launch stands where the launch does, and with it in an argument
        cases n with
        | launch l' nested' =>
          obtain ⟨arg, harg, hcontains⟩ := (h.inside l nested List.mem_cons_self).2 _ hn
          have hk' : l'.span.contains k.span = true := contains_of_mem_within _
            (fun k ns hk => h.inside k ns (hwithin hk)) (Span.contains_self l'.span) hk
          exact isInner_of_mem harg (hspan ▸ Span.contains_trans hcontains hk')
        | _ => exact absurd hlaunch Bool.false_ne_true
    · exact hinner e hen

end Folded

/-- **A launch is one edit.** What is found in its arguments, at any depth, is worked into it, and
the parameters that launches nested in it ask for come behind it. -/
theorem edits_of_folded_launch (h : Folded rules l nested) :
    rules.editsFor (.launch l nested) =
      l.paramLists.map (parameterEdit rules.config.launch) ++
        ⟨l.span, render rules.config.launch l.callee l.configArgs l.launchArgs
            ((rules.editsForAll nested).filter (!isParameter ·)), .kernelLaunch⟩ ::
          (paramLists nested).map (parameterEdit rules.config.launch) := by
  have hinner : (rules.editsForAll nested).filter (isInner l) =
      (rules.editsForAll nested).filter (!isParameter ·) :=
    List.filter_congr fun e he => h.isInner_eq he
  have houter : (rules.editsForAll nested).filter (!isInner l ·) =
      (paramLists nested).map (parameterEdit rules.config.launch) := by
    rw [← h.filter_isParameter_nested]
    exact List.filter_congr fun e he => by rw [h.isInner_eq he, Bool.not_not]
  rw [editsFor, edits_eq, houter, launchEdit, hinner]

/-- Three launches, each the argument of the next one, in
`void i(int n); void j(); void k(void);  k<<<1, 1>>>(j<<<2, 2>>>(i<<<3, 3>>>(cudaSuccess)), 7);`. -/
def launchOfThree : Launch :=
  ⟨"k", [⟨⟨32, 36⟩, "void"⟩], [.written ⟨⟨44, 45⟩, "1"⟩ "dim3", .written ⟨⟨47, 48⟩, "1"⟩ "dim3"],
    [⟨⟨52, 89⟩, "j<<<2, 2>>>(i<<<3, 3>>>(cudaSuccess))"⟩, ⟨⟨91, 92⟩, "7"⟩], ⟨40, 93⟩⟩

/-- The second launch, with the third one in it, and in that one a name. -/
def nestedOfThree : List Match :=
  let third : Launch := ⟨"i", [⟨⟨7, 12⟩, "int n"⟩],
    [.written ⟨⟨68, 69⟩, "3"⟩ "dim3", .written ⟨⟨71, 72⟩, "3"⟩ "dim3"],
    [⟨⟨76, 87⟩, "cudaSuccess"⟩], ⟨64, 88⟩⟩
  let second : Launch := ⟨"j", [⟨⟨22, 22⟩, ""⟩],
    [.written ⟨⟨56, 57⟩, "2"⟩ "dim3", .written ⟨⟨59, 60⟩, "2"⟩ "dim3"],
    [⟨⟨64, 88⟩, "i<<<3, 3>>>(cudaSuccess)"⟩], ⟨52, 89⟩⟩
  [.launch second [.launch third [.typeRef "cudaSuccess" (.direct 76) .enumConstant]]]

theorem edits_of_folded_launch_three :
    let rules : Rules := ⟨.ofList [("cudaSuccess", "hipSuccess")], .default⟩
    rules.Folded launchOfThree nestedOfThree ∧
    rules.editsFor (.launch launchOfThree nestedOfThree) =
      [⟨⟨32, 36⟩, "hipLaunchParm lp", .kernelParameters⟩,
        ⟨⟨40, 93⟩, "hipLaunchKernel(HIP_KERNEL_NAME(k), dim3(1), dim3(1), " ++
          "hipLaunchKernel(HIP_KERNEL_NAME(j), dim3(2), dim3(2), " ++
          "hipLaunchKernel(HIP_KERNEL_NAME(i), dim3(3), dim3(3), hipSuccess)), 7)", .kernelLaunch⟩,
        ⟨⟨22, 22⟩, "hipLaunchParm lp", .kernelParameters⟩,
        ⟨⟨7, 7⟩, "hipLaunchParm lp, ", .kernelParameters⟩] := by
  intro rules
  have h : rules.Folded launchOfThree nestedOfThree := by decide +kernel
  refine ⟨h, ?_⟩
  rw [edits_of_folded_launch h]
  decide +kernel

end Rules

end CudaToHip
