import CudaToHip.Proofs.Plan.Fold
import CudaToHip.Proofs.Replacement.Divide
import CudaToHip.Proofs.Scan.Faithful
import Mathlib.Data.List.Dedup

/-!
# One parameter for each declaration

Every launch proposes the extra parameter for each declaration of its kernel, so a kernel that is
launched often has it proposed often, in both passes and from inside the arguments of other
launches. Where the parameter lists and the launches keep clear of each other
(`Rules.Separate`), nothing but repetitions of it stands in the way of such a proposal, and it is
accepted once (`Converter.one_parameter_each`).

* `Rules.filter_isParameter`: launches nested in arguments hand the parameters on.
* `Rules.Separate.alone`: a parameter is all that is proposed at its list.
-/

namespace CudaToHip

open LaunchRule Text

/-! ## Launches and parameter lists -/

namespace Match

/-- The match is a launch. -/
def isLaunch : Match → Bool
  | .launch .. => true
  | _ => false

/-- What is said of launches, said of all matches. -/
def OnLaunch (Q : Launch → List Match → Prop) : Match → Prop
  | .launch l nested => Q l nested
  | _ => True

instance {Q : Launch → List Match → Prop} [∀ l nested, Decidable (Q l nested)] (m : Match) :
    Decidable (m.OnLaunch Q) :=
  match m with
  | .launch l nested => inferInstanceAs (Decidable (Q l nested))
  | .call .. | .builtin .. | .typeRef .. | .stringLiteral .. | .inclusion ..
  | .macroIdentifier .. => .isTrue trivial

theorem forall_onLaunch_iff {ms : List Match} {Q : Launch → List Match → Prop} :
    (∀ m ∈ ms, m.OnLaunch Q) ↔ ∀ l nested, .launch l nested ∈ ms → Q l nested := by
  refine ⟨fun h l nested hl => h _ hl, fun h m hm => ?_⟩
  cases m with
  | launch l nested => exact h l nested hm
  | _ => trivial

/-- The parameter lists that a match comes with. -/
def ownParams : Match → List Captured
  | .launch l _ => l.paramLists
  | _ => []

/-- The parameter lists that the launches among the matches come with, at any depth. -/
def paramLists (ms : List Match) : List Captured := (withinAll ms).flatMap ownParams

theorem paramLists_cons (m : Match) (ms : List Match) :
    paramLists (m :: ms) = m.within.flatMap ownParams ++ paramLists ms := by
  rw [paramLists, withinAll, List.flatMap_append]
  rfl

theorem mem_paramLists_of_mem {m : Match} {ms : List Match} {P : Captured}
    (hm : m ∈ withinAll ms) (hP : P ∈ m.ownParams) : P ∈ paramLists ms :=
  List.mem_flatMap.mpr ⟨m, hm, hP⟩

end Match

namespace LaunchRule

variable {spelling : LaunchSpelling} {params : Captured} {l : Launch} {nested : List Edit}
  {b : Span}

/-- A parameter list with the extra parameter. -/
def withParameter (spelling : LaunchSpelling) (params : Captured) : String :=
  if isVacant params.text then spelling.extraParameter
  else spelling.extraParameter ++ ", " ++ params.text

/-- The edit is an extra parameter. -/
def isParameter (e : Edit) : Bool := e.origin = .kernelParameters

theorem isParameter_parameterEdit : isParameter (parameterEdit spelling params) = true := by
  unfold parameterEdit
  split <;> rfl

theorem start_parameterEdit : (parameterEdit spelling params).span.start = params.span.start := by
  unfold parameterEdit
  split <;> rfl

theorem stop_parameterEdit : (parameterEdit spelling params).span.stop = params.span.start ∨
    (parameterEdit spelling params).span.stop = params.span.stop := by
  unfold parameterEdit
  split
  · exact Or.inr rfl
  · exact Or.inl rfl

/-- What is clear of a list is clear of the edit for it. -/
theorem clear_parameterEdit (h : params.span.Clear b) :
    (parameterEdit spelling params).span.Clear b := by
  have hstart := @start_parameterEdit spelling params
  have hstop := @stop_parameterEdit spelling params
  unfold Span.Clear Span.InFront at *
  omega

/-- The edits of a launch, part by part. -/
theorem edits_eq : edits spelling l nested =
    l.paramLists.map (parameterEdit spelling) ++
      launchEdit spelling l nested :: nested.filter (!isInner l ·) := by
  unfold edits
  rw [List.partition_eq_filter_filter]
  rfl

/-- A parameter whose list is clear of a place lies in none of the arguments in that place. -/
theorem isInner_parameterEdit (hinside : ∀ arg ∈ l.argSpans, b.contains arg = true)
    (h : params.span.Clear b) : isInner l (parameterEdit spelling params) = false := by
  have hclear := @clear_parameterEdit spelling params _ h
  refine List.any_eq_false.mpr fun arg harg hcontains => ?_
  have hspan := Span.contains_trans (hinside arg harg) hcontains
  rw [Span.contains_iff] at hspan
  unfold Span.Clear Span.InFront at hclear
  omega

end LaunchRule

/-! ## What is proposed for launches -/

namespace Rules

open Match

variable {rules : Rules} {ms : List Match} {e : Edit} {P Q : Captured}

/-- What is nested in the launches are launches, or is edited inside an argument. -/
def NestsLaunches (rules : Rules) (ms : List Match) : Prop :=
  ∀ l nested, .launch l nested ∈ ms →
    ∀ n ∈ nested, n.isLaunch = true ∨ ∀ e ∈ rules.editsFor n, isInner l e = true

/-- Launches whose declarations keep clear of each other and of all launches, and whose arguments
keep within them. -/
structure Separate (rules : Rules) (ms : List Match) : Prop where
  launches : ∀ m ∈ ms, m.isLaunch = true
  nested : NestsLaunches rules (withinAll ms)
  inside : ∀ l nested, .launch l nested ∈ withinAll ms →
    ∀ arg ∈ l.argSpans, l.span.contains arg = true
  apart : ∀ P ∈ paramLists ms, ∀ Q ∈ paramLists ms, P = Q ∨ P.span.Clear Q.span
  clear : ∀ P ∈ paramLists ms, ∀ l nested, .launch l nested ∈ withinAll ms →
    P.span.Clear l.span

instance (rules : Rules) (ms : List Match) : Decidable (rules.Separate ms) :=
  decidable_of_iff
    ((∀ m ∈ ms, m.isLaunch = true) ∧
      (∀ m ∈ withinAll ms, m.OnLaunch fun l nested =>
        (∀ n ∈ nested, n.isLaunch = true ∨ ∀ e ∈ rules.editsFor n, isInner l e = true) ∧
        (∀ arg ∈ l.argSpans, l.span.contains arg = true) ∧
        ∀ P ∈ paramLists ms, P.span.Clear l.span) ∧
      ∀ P ∈ paramLists ms, ∀ Q ∈ paramLists ms, P = Q ∨ P.span.Clear Q.span) <| by
    rw [forall_onLaunch_iff]
    constructor
    · rintro ⟨hlaunches, heach, hapart⟩
      exact ⟨hlaunches, fun l nested hl => (heach l nested hl).1,
        fun l nested hl => (heach l nested hl).2.1, hapart,
        fun P hP l nested hl => (heach l nested hl).2.2 P hP⟩
    · rintro ⟨hlaunches, hnested, hinside, hapart, hclear⟩
      exact ⟨hlaunches, fun l nested hl =>
        ⟨hnested l nested hl, hinside l nested hl, fun P hP => hclear P hP l nested hl⟩, hapart⟩

/-- Only launches ask for parameters. -/
theorem isLaunch_of_isParameter {m : Match} (h : e ∈ rules.editsFor m)
    (he : isParameter e = true) : m.isLaunch = true := by
  have horigin : e.origin = .kernelParameters := by simpa [isParameter] using he
  have hrename {name : String} {loc : SourceLoc} {origin : EditOrigin}
      (h : rename? rules.symbols name loc origin = some e) : e.origin = origin := by
    obtain ⟨target, -, rfl⟩ := Option.map_eq_some_iff.mp h
    rfl
  cases m with
  | launch l nested => rfl
  | call callee loc => exact nomatch horigin.symm.trans (hrename (Option.mem_toList.mp h))
  | typeRef name loc kind => exact nomatch horigin.symm.trans (hrename (Option.mem_toList.mp h))
  | builtin base member loc =>
    obtain ⟨b, -, h⟩ := Option.bind_eq_some_iff.mp (Option.mem_toList.mp h)
    exact nomatch horigin.symm.trans (hrename h)
  | stringLiteral text span =>
    obtain ⟨into, -, rfl⟩ := Option.map_eq_some_iff.mp (Option.mem_toList.mp h)
    exact nomatch horigin
  | inclusion target angled span inMainFile =>
    have h := Option.mem_toList.mp h
    unfold editInclude? at h
    split at h
    · obtain ⟨into, -, rfl⟩ := Option.map_eq_some_iff.mp h
      exact nomatch horigin
    · cases h
  | macroIdentifier name macroName span inMainFile =>
    have h := Option.mem_toList.mp h
    unfold editMacroName? at h
    split at h
    · obtain ⟨into, -, rfl⟩ := Option.map_eq_some_iff.mp h
      exact nomatch horigin
    · cases h

/-- No launch keeps a parameter that is asked for in its arguments to itself. -/
def HandsOn (rules : Rules) (ms : List Match) : Prop :=
  ∀ l nested, .launch l nested ∈ ms →
    ∀ P ∈ paramLists nested, isInner l (parameterEdit rules.config.launch P) = false

mutual

/-- The parameters that a match proposes are those of the launches it holds. -/
theorem filter_isParameter_within (m : Match) (h : HandsOn rules m.within) :
    (rules.editsFor m).filter isParameter =
      (m.within.flatMap ownParams).map (parameterEdit rules.config.launch) := by
  cases m with
  | launch l nested =>
    have hnested := filter_isParameter nested fun l' nested' hl' =>
      h l' nested' (List.mem_cons_of_mem _ hl')
    have hown : (l.paramLists.map (parameterEdit rules.config.launch)).filter isParameter =
        l.paramLists.map (parameterEdit rules.config.launch) :=
      List.filter_eq_self.mpr fun e he => by
        obtain ⟨P, -, rfl⟩ := List.mem_map.mp he
        exact isParameter_parameterEdit
    -- what is left over of the nested edits has all the parameters among them
    have hkept : ∀ e ∈ (rules.editsForAll nested).filter isParameter, isInner l e = false := by
      intro e he
      rw [hnested] at he
      obtain ⟨P, hP, rfl⟩ := List.mem_map.mp he
      exact h l nested List.mem_cons_self P hP
    have houter : ((rules.editsForAll nested).filter (!isInner l ·)).filter isParameter =
        (rules.editsForAll nested).filter isParameter := by
      rw [List.filter_comm]
      exact List.filter_eq_self.mpr fun e he => by rw [hkept e he]; rfl
    have hself : ¬ isParameter (launchEdit rules.config.launch l (rules.editsForAll nested)) :=
      Bool.false_ne_true
    rw [editsFor, edits_eq, List.filter_append, hown, List.filter_cons_of_neg hself, houter,
      hnested, Match.within, List.flatMap_cons, List.map_append]
    rfl
  | _ =>
    refine List.filter_eq_nil_iff.mpr fun e he hparameter => ?_
    exact Bool.false_ne_true (isLaunch_of_isParameter he hparameter)

/-- **The parameters that are proposed** are those of the lists of all launches, at any depth. -/
theorem filter_isParameter (ms : List Match) (h : HandsOn rules (withinAll ms)) :
    (rules.editsForAll ms).filter isParameter =
      (paramLists ms).map (parameterEdit rules.config.launch) := by
  cases ms with
  | nil => rfl
  | cons m ms =>
    have hm := filter_isParameter_within m fun l nested hl =>
      h l nested (List.mem_append_left _ hl)
    have hms := filter_isParameter ms fun l nested hl => h l nested (List.mem_append_right _ hl)
    rw [editsForAll, List.filter_append, hm, hms, paramLists_cons, List.map_append]

end

mutual

/-- The edits of a launch that are not parameters stand where it stands or a launch within it. -/
theorem span_of_mem_editsFor (m : Match) (hm : m.isLaunch = true)
    (h : NestsLaunches rules m.within) (he : e ∈ rules.editsFor m) :
    isParameter e = true ∨ ∃ l nested, .launch l nested ∈ m.within ∧ e.span = l.span := by
  cases m with
  | launch l nested =>
    rcases mem_edits he with ⟨P, -, rfl⟩ | rfl | ⟨hmem, hinner⟩
    · exact Or.inl isParameter_parameterEdit
    · exact Or.inr ⟨l, nested, List.mem_cons_self, rfl⟩
    · have hn : ∀ n ∈ nested, e ∈ rules.editsFor n → n.isLaunch = true := fun n hn hen =>
        (h l nested List.mem_cons_self n hn).resolve_right fun hall =>
          Bool.false_ne_true (hinner.symm.trans (hall e hen))
      have hnested := span_of_mem_editsForAll nested hn
        (fun l' nested' hl' => h l' nested' (List.mem_cons_of_mem _ hl')) hmem
      exact hnested.imp id fun ⟨l', nested', hl', hspan⟩ =>
        ⟨l', nested', List.mem_cons_of_mem _ hl', hspan⟩
  | _ => exact absurd hm Bool.false_ne_true

/-- The edits of launches that are not parameters stand where some launch does. -/
theorem span_of_mem_editsForAll (ms : List Match)
    (hms : ∀ m ∈ ms, e ∈ rules.editsFor m → m.isLaunch = true)
    (h : NestsLaunches rules (withinAll ms)) (he : e ∈ rules.editsForAll ms) :
    isParameter e = true ∨ ∃ l nested, .launch l nested ∈ withinAll ms ∧ e.span = l.span := by
  cases ms with
  | nil => cases he
  | cons m ms =>
    rcases List.mem_append.mp he with he | he
    · have hm := span_of_mem_editsFor m (hms m List.mem_cons_self he)
        (fun l nested hl => h l nested (List.mem_append_left _ hl)) he
      exact hm.imp id fun ⟨l, nested, hl, hspan⟩ => ⟨l, nested, List.mem_append_left _ hl, hspan⟩
    · have hrest := span_of_mem_editsForAll ms (fun n hn => hms n (List.mem_cons_of_mem _ hn))
        (fun l nested hl => h l nested (List.mem_append_right _ hl)) he
      exact hrest.imp id fun ⟨l, nested, hl, hspan⟩ =>
        ⟨l, nested, List.mem_append_right _ hl, hspan⟩

end

namespace Separate

variable (h : Separate rules ms)
include h

theorem handsOn : HandsOn rules (withinAll ms) := by
  intro l nested hl P hP
  obtain ⟨m, hm, hPm⟩ := List.mem_flatMap.mp hP
  have hm' : m ∈ withinAll ms := mem_withinAll_trans ms hl (List.mem_cons_of_mem _ hm)
  exact isInner_parameterEdit (h.inside l nested hl)
    (h.clear P (mem_paramLists_of_mem hm' hPm) l nested hl)

/-- All that is proposed besides the parameter of a list is clear of that list. -/
theorem eq_or_clear (hP : P ∈ paramLists ms) (he : e ∈ rules.editsForAll ms) :
    e = parameterEdit rules.config.launch P ∨ e.span.Clear P.span := by
  rcases span_of_mem_editsForAll ms (fun m hm _ => h.launches m hm) h.nested he with
    hparameter | ⟨l, nested, hl, hspan⟩
  · have hmem := List.mem_filter.mpr ⟨he, hparameter⟩
    rw [filter_isParameter ms h.handsOn] at hmem
    obtain ⟨Q, hQ, rfl⟩ := List.mem_map.mp hmem
    rcases h.apart Q hQ P hP with rfl | hclear
    · exact Or.inl rfl
    · exact Or.inr (clear_parameterEdit hclear)
  · rw [hspan]
    exact Or.inr (h.clear P hP l nested hl).symm

theorem alone (hP : P ∈ paramLists ms) :
    ReplacementSet.Alone (parameterEdit rules.config.launch P) (rules.editsForAll ms) := by
  intro d hd
  refine (h.eq_or_clear hP hd).imp id fun hclear => ?_
  rw [Span.overlaps_comm]
  exact Span.overlaps_of_clear (clear_parameterEdit hclear.symm)

/-- Different lists get different edits. -/
theorem parameterEdit_inj (hP : P ∈ paramLists ms) (hQ : Q ∈ paramLists ms)
    (heq : parameterEdit rules.config.launch P = parameterEdit rules.config.launch Q) : P = Q := by
  refine (h.apart P hP Q hQ).resolve_right fun hclear => ?_
  have hstart := congrArg (·.span.start) heq
  simp only [start_parameterEdit] at hstart
  unfold Span.Clear Span.InFront at hclear
  omega

end Separate

end Rules

/-! ## The set of a file -/

namespace LaunchRule

/-- The set turns each of the parameter lists, of which some are repeated, into itself with the
extra parameter, and does so once. -/
structure OneEach (spelling : LaunchSpelling) (lists : List Captured) (s : ReplacementSet) :
    Prop where
  /-- One edit for each list, and no other parameter. -/
  edits : (s.edits.filter isParameter).Perm (lists.dedup.map (parameterEdit spelling))
  /-- What is turned away is a duplicate, -/
  duplicates : ∀ c ∈ s.conflicts, isParameter c.rejected = true → c.isDuplicate = true
  /-- and all proposals but the first are turned away. -/
  conflicts : ∀ P ∈ lists,
    (s.conflicts.filter (·.rejected = parameterEdit spelling P)).length + 1 = lists.count P
  /-- In a text that reads as the list at its place, the list gains the parameter, and the text on
  both sides of it gets the other edits. -/
  text : ∀ P ∈ lists, ∀ source, P.Reads source →
    ∃ u v before after, source = u ++ P.text ++ v ∧ u.utf8ByteSize = P.span.start ∧
      s.edits = before ++ parameterEdit spelling P :: after ∧
      (s.applyTo source).text =
        (Applied.sweep u 0 before).text ++ withParameter spelling P ++
          (Applied.sweep v 0 (after.map (Edit.rebase P.span.stop))).text

/-- At the front of a text, the edit of a parameter list puts the parameter there. -/
theorem text_sweep_parameterEdit {v : String} {after : List Edit}
    (hstop : params.span.stop = params.span.start + params.text.utf8ByteSize)
    (hafter : ∀ e ∈ after, e.IsFrom params.span.stop) :
    (Applied.sweep (params.text ++ v) 0
        ((parameterEdit spelling params :: after).map (Edit.rebase params.span.start))).text =
      withParameter spelling params ++
        (Applied.sweep v 0 (after.map (Edit.rebase params.span.stop))).text := by
  have hrebased : (after.map (Edit.rebase params.span.start)).map
      (Edit.rebase params.text.utf8ByteSize) = after.map (Edit.rebase params.span.stop) := by
    rw [List.map_map, hstop]
    exact List.map_congr_left fun e _ => Edit.rebase_rebase _ _ e
  have hfrom : ∀ e ∈ after.map (Edit.rebase params.span.start),
      e.IsFrom params.text.utf8ByteSize := by
    intro e he
    obtain ⟨d, hd, rfl⟩ := List.mem_map.mp he
    have hd := hafter d hd
    unfold Edit.IsFrom Edit.rebase at *
    dsimp only
    omega
  have hempty : between (params.text ++ v) 0 0 = "" :=
    between_of_slice? (slice?_self (isBoundary_zero _))
  rw [List.map_cons]
  unfold parameterEdit withParameter
  split
  · -- the list is exchanged
    have hspan : (Edit.rebase params.span.start
        ⟨params.span, spelling.extraParameter, .kernelParameters⟩).span =
        ⟨0, params.text.utf8ByteSize⟩ := by
      rw [Edit.rebase, hstop, Nat.sub_self, Nat.add_sub_cancel_left]
    have hr : Applied.refusal? (params.text ++ v) 0 (Edit.rebase params.span.start
        ⟨params.span, spelling.extraParameter, .kernelParameters⟩) = none := by
      rw [Applied.refusal?_eq_none_iff, hspan, String.utf8ByteSize_append]
      exact ⟨Nat.le_add_right _ _, Nat.le_refl _, slice?_isSome_iff.mpr
        ⟨Nat.zero_le _, isBoundary_zero _, ⟨params.text, v, rfl, rfl⟩⟩⟩
    have hrest := @Applied.text_sweep_rebase params.text v 0 _ hfrom
    rw [Nat.add_zero, hrebased] at hrest
    rw [Applied.text_sweep_of_not_refused hr, hspan, hempty, String.empty_append, hrest]
    rfl
  · -- the parameter is put in front
    have hspan : (Edit.rebase params.span.start
        ⟨.ofLength params.span.start 0, spelling.extraParameter ++ ", ", .kernelParameters⟩).span =
        ⟨0, 0⟩ := by
      rw [Edit.rebase, Span.ofLength, Nat.add_zero, Nat.sub_self]
    have hr : Applied.refusal? (params.text ++ v) 0 (Edit.rebase params.span.start
        ⟨.ofLength params.span.start 0, spelling.extraParameter ++ ", ", .kernelParameters⟩) =
        none := by
      rw [Applied.refusal?_eq_none_iff, hspan]
      exact ⟨Nat.zero_le _, Nat.le_refl _, slice?_isSome_iff.mpr
        ⟨Nat.le_refl _, isBoundary_zero _, isBoundary_zero _⟩⟩
    have hrest := Applied.text_sweep_from (v := v) (isBoundary_zero params.text) hfrom
    rw [hrebased, since_zero] at hrest
    rw [Applied.text_sweep_of_not_refused hr, hspan, hempty, String.empty_append, hrest]
    simp only [Edit.rebase, String.append_assoc]

end LaunchRule

namespace Rules.Separate

variable {rules : Rules} {ms : List Match} {P : Captured} {s : ReplacementSet}

/-- The parameter of a list is proposed as often as the list comes up. -/
theorem count_parameterEdit (h : Separate rules ms) (hP : P ∈ Match.paramLists ms) :
    (rules.editsForAll ms).count (parameterEdit rules.config.launch P) =
      (Match.paramLists ms).count P := by
  rw [← List.count_filter isParameter_parameterEdit, filter_isParameter ms h.handsOn, List.count,
    List.count, List.countP_map]
  refine List.countP_congr fun Q hQ => ?_
  simp only [Function.comp_apply, beq_iff_eq]
  exact ⟨h.parameterEdit_inj hQ hP, fun hQP => hQP ▸ rfl⟩

/-- The accepted edits on both sides of a parameter list. -/
theorem exists_split (h : Separate rules ms) (policy : ConflictPolicy)
    (hP : P ∈ Match.paramLists ms) :
    ∃ before after,
      ((ReplacementSet.empty policy).proposeAll (rules.editsForAll ms)).edits =
        before ++ parameterEdit rules.config.launch P :: after ∧
      (∀ e ∈ before, e.span.InFront P.span) ∧ ∀ e ∈ after, P.span.InFront e.span := by
  have hproposed : parameterEdit rules.config.launch P ∈ rules.editsForAll ms := by
    rw [← List.count_pos_iff, h.count_parameterEdit hP]
    exact List.count_pos_iff.mpr hP
  have hmem := (ReplacementSet.run_of_alone policy (h.alone hP)).1.mpr hproposed
  obtain ⟨before, after, hsplit⟩ := List.append_of_mem hmem
  have hsorted := hsplit ▸ ReplacementSet.sorted_of_run policy (rules.editsForAll ms)
  obtain ⟨-, hafter, hbefore⟩ := List.pairwise_append.mp hsorted
  have hstart := @start_parameterEdit rules.config.launch P
  have hstop := @stop_parameterEdit rules.config.launch P
  -- an edit that is not at the list is clear of it, and on the side where it is listed
  have hclear : ∀ e ∈ before ++ parameterEdit rules.config.launch P :: after,
      e.span ≠ (parameterEdit rules.config.launch P).span → e.span.Clear P.span := by
    intro e he hne
    rw [← hsplit] at he
    have hes := (ReplacementSet.mem_of_mem_edits_proposeAll he).resolve_left List.not_mem_nil
    exact (h.eq_or_clear hP hes).resolve_left fun heq => hne (congrArg Edit.span heq)
  refine ⟨before, after, hsplit, fun e he => ?_, fun e he => ?_⟩
  · have hlt := hbefore e he _ List.mem_cons_self
    have hc := hclear e (List.mem_append_left _ he) (Span.ne_of_before hlt)
    rw [Span.before_iff] at hlt
    unfold Span.Clear Span.InFront at hc
    unfold Span.InFront
    omega
  · have hlt := (List.pairwise_cons.mp hafter).1 e he
    have hc := hclear e (List.mem_append_right _ (List.mem_cons_of_mem _ he))
      (Span.ne_of_before hlt).symm
    rw [Span.before_iff] at hlt
    unfold Span.Clear Span.InFront at hc
    unfold Span.InFront
    omega

/-- The accepted parameters are one for each list. -/
theorem mem_edits_run_iff (h : Separate rules ms) (policy : ConflictPolicy) {e : Edit}
    (he : isParameter e = true) :
    e ∈ ((ReplacementSet.empty policy).proposeAll (rules.editsForAll ms)).edits ↔
      ∃ P ∈ Match.paramLists ms, parameterEdit rules.config.launch P = e := by
  constructor
  · intro hmem
    have hes := (ReplacementSet.mem_of_mem_edits_proposeAll hmem).resolve_left List.not_mem_nil
    have hparams := List.mem_filter.mpr ⟨hes, he⟩
    rw [filter_isParameter ms h.handsOn] at hparams
    exact List.mem_map.mp hparams
  · rintro ⟨P, hP, rfl⟩
    obtain ⟨before, after, hsplit, -, -⟩ := h.exists_split policy hP
    rw [hsplit]
    exact List.mem_append_right _ List.mem_cons_self

/-- **Parameters are accepted once.** -/
theorem oneEach (h : Separate rules ms) (policy : ConflictPolicy) :
    OneEach rules.config.launch (Match.paramLists ms)
      ((ReplacementSet.empty policy).proposeAll (rules.editsForAll ms)) where
  edits := by
    have hsorted := ReplacementSet.sorted_of_run policy (rules.editsForAll ms)
    have hnodup := (List.nodup_dedup (Match.paramLists ms)).map_on fun P hP Q hQ =>
      h.parameterEdit_inj (List.mem_dedup.mp hP) (List.mem_dedup.mp hQ)
    refine (List.perm_ext_iff_of_nodup (hsorted.nodup.filter _) hnodup).mpr fun e => ?_
    rw [List.mem_filter, List.mem_map]
    simp only [List.mem_dedup]
    constructor
    · rintro ⟨hmem, he⟩
      exact (h.mem_edits_run_iff policy he).mp hmem
    · rintro ⟨P, hP, rfl⟩
      exact ⟨(h.mem_edits_run_iff policy isParameter_parameterEdit).mpr ⟨P, hP, rfl⟩,
        isParameter_parameterEdit⟩
  duplicates := by
    intro c hc hrejected
    have hes := ((ReplacementSet.mem_of_mem_conflicts_proposeAll hc).resolve_left
      List.not_mem_nil).1
    have hparams := List.mem_filter.mpr ⟨hes, hrejected⟩
    rw [filter_isParameter ms h.handsOn] at hparams
    obtain ⟨P, hP, heq⟩ := List.mem_map.mp hparams
    have hexisting := (ReplacementSet.run_of_alone policy (h.alone hP)).2.1 c hc heq.symm
    rw [Conflict.isDuplicate, hexisting, heq]
    simp
  conflicts := by
    intro P hP
    have hpos : 0 < (Match.paramLists ms).count P := List.count_pos_iff.mpr hP
    rw [(ReplacementSet.run_of_alone policy (h.alone hP)).2.2, h.count_parameterEdit hP]
    omega
  text := by
    intro P hP source hreads
    obtain ⟨before, after, hsplit, hbefore, hafter⟩ := h.exists_split policy hP
    obtain ⟨u, v, rfl, hstart, hstop⟩ := slice?_eq_some_iff.mp hreads
    refine ⟨u, v, before, after, rfl, hstart.symm, hsplit, ?_⟩
    have hfront : ∀ e ∈ before, e.span.stop ≤ u.utf8ByteSize := by
      intro e he
      have hin := hbefore e he
      unfold Span.InFront at hin
      omega
    have hbehind : ∀ e ∈ parameterEdit rules.config.launch P :: after,
        e.IsFrom u.utf8ByteSize := by
      intro e he
      have hP := @start_parameterEdit rules.config.launch P
      have hP' := @stop_parameterEdit rules.config.launch P
      unfold Edit.IsFrom
      rcases List.mem_cons.mp he with rfl | he
      · omega
      · have hin := hafter e he
        unfold Span.InFront at hin
        omega
    have hdivide := Applied.text_sweep_divide (v := P.text ++ v) (isBoundary_zero u) hfront hbehind
    rw [← hstart, text_sweep_parameterEdit hstop fun e he => by
      have := hafter e he
      unfold Span.InFront at this
      unfold Edit.IsFrom
      omega] at hdivide
    rw [ReplacementSet.applyTo, hsplit, String.append_assoc, hdivide, String.append_assoc]

end Rules.Separate

namespace Converter

/-- The matches that both passes find in the files of a path. -/
def matchesFor (c : Converter) (files : List SourceFile) (p : Path) : List Match :=
  View.passOrder.flatMap fun view =>
    (files.filter (·.path.same p)).flatMap fun f => found (c.frontEnd.scan f view)

theorem discovered_eq (c : Converter) (files : List SourceFile) (p : Path) :
    c.discovered files p = c.rules.editsForAll (c.matchesFor files p) := by
  simp only [discovered, matchesFor, Rules.editsForAll_eq_flatMap, List.flatMap_assoc]

/-- **One parameter for each declaration.** Where all that both passes find in a file are launches
that keep clear of the declarations of their kernels, the set of the file has one edit for each of
these declarations, however often their kernels are launched. -/
theorem one_parameter_each (c : Converter) (files : List SourceFile) (p : Path)
    (h : c.rules.Separate (c.matchesFor files p)) :
    OneEach c.config.launch (Match.paramLists (c.matchesFor files p))
      (((c.plan files).files.get? p).getD (.empty c.config.conflictPolicy)) := by
  have hrun := h.oneEach c.config.conflictPolicy
  rw [get?_plan, discovered_eq]
  split_ifs with hnone
  · rw [hnone] at hrun
    exact hrun
  · exact hrun

/-- Two kernels, one with a prototype and one without parameters. -/
def threeLaunches : SourceFile where
  path := ⟨"a.cu"⟩
  text := "void k(void); void k(int n) {} void j() {} k<<<1, 1>>>(j<<<2, 2>>>(3)); k<<<4, 4>>>(5);"

/-- Both views report the first launch, with the one in its argument, and the device view reports
the second one as well. -/
def launchesOfThree : FrontEnd where
  name := "launches"
  scan _ view :=
    let declared : List Captured := [⟨⟨7, 11⟩, "void"⟩, ⟨⟨21, 26⟩, "int n"⟩]
    let number (start : Nat) (text : String) : Captured := ⟨⟨start, start + 1⟩, text⟩
    let inner : Match := .launch ⟨"j", [⟨⟨38, 38⟩, ""⟩],
      [.written (number 59 "2") "dim3", .written (number 62 "2") "dim3"], [number 67 "3"],
      ⟨55, 69⟩⟩ []
    let outer : Match := .launch ⟨"k", declared,
      [.written (number 47 "1") "dim3", .written (number 50 "1") "dim3"],
      [⟨⟨55, 69⟩, "j<<<2, 2>>>(3)"⟩], ⟨43, 70⟩⟩ [inner]
    let second : Match := .launch ⟨"k", declared,
      [.written (number 76 "4") "dim3", .written (number 79 "4") "dim3"], [number 84 "5"],
      ⟨72, 86⟩⟩ []
    .ok ⟨if view = .hostOnly then [outer] else [outer, second], []⟩

theorem one_parameter_each_three_launches :
    let c : Converter := ⟨launchesOfThree, ⟨.builtin, .default⟩⟩
    let s := ((c.plan [threeLaunches]).files.get? threeLaunches.path).getD
      (.empty c.config.conflictPolicy)
    c.rules.Separate (c.matchesFor [threeLaunches] threeLaunches.path) ∧
    OneEach c.config.launch (Match.paramLists (c.matchesFor [threeLaunches] threeLaunches.path)) s ∧
    s.edits.filter isParameter =
      [⟨⟨7, 11⟩, "hipLaunchParm lp", .kernelParameters⟩,
        ⟨⟨21, 21⟩, "hipLaunchParm lp, ", .kernelParameters⟩,
        ⟨⟨38, 38⟩, "hipLaunchParm lp", .kernelParameters⟩] := by
  intro c s
  have h : c.rules.Separate (c.matchesFor [threeLaunches] threeLaunches.path) := by decide +kernel
  refine ⟨h, one_parameter_each c _ _ h, ?_⟩
  decide +kernel

end Converter

end CudaToHip
