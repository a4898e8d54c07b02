import CudaToHip.Proofs.Replacement.Divide
import CudaToHip.Proofs.Replacement.FirstClaim
import CudaToHip.Rules.Launch
import Mathlib.Data.List.Destutter
import Mathlib.Data.List.Sort

/-!
# Edits inside a launch argument

The launch rule works the edits inside an argument into its text by a loop of its own, over a sorted
list in which a span may be claimed several times. A replacement set never gets that far: it keeps
the first claim on each span. The loop is the sweep over the sorted list (`splice_eq_sweep`), and
there it drops a second claim on a range because the first one moved the cursor behind it. An
insertion moves no cursor, so a second insertion at one offset goes in as well
(`repeated_insertions_both_go_in`). Apart from that the two agree (`splice_eq_applyTo`).

* `insideOf`: the edits inside an argument, counted from where it begins.
* `Edit.edits_run_eq_firstClaims`: the set that keeps first claims is the sorted list without the
  claims that repeat the one before.
-/

namespace CudaToHip

open Applied

/-- No two insertions at one offset. -/
def Edit.InsertOnce (es : List Edit) : Prop :=
  es.Pairwise fun d e => d.span = e.span → e.isInsertion = false

/-- In the order of the spans. -/
def Edit.bySpan (d e : Edit) : Bool := (compare d.span e.span).isLE

variable {source : String} {cursor n : Nat} {d e : Edit} {es : List Edit} {arg : Captured}

namespace Edit

theorem bySpan_iff : bySpan d e = true ↔
    d.span.start < e.span.start ∨ d.span.start = e.span.start ∧ d.span.stop ≤ e.span.stop := by
  unfold bySpan
  rw [show compare d.span e.span =
    (compare d.span.start e.span.start).then (compare d.span.stop e.span.stop) from rfl]
  simp only [Nat.compare_eq_ite_lt]
  split_ifs <;> simp_all <;> omega

theorem bySpan_trans (a b c : Edit) (hab : bySpan a b = true) (hbc : bySpan b c = true) :
    bySpan a c = true := by
  rw [bySpan_iff] at *; omega

theorem bySpan_total (a b : Edit) : (bySpan a b || bySpan b a) = true := by
  rw [Bool.or_eq_true, bySpan_iff, bySpan_iff]; omega

theorem pairwise_mergeSort (es : List Edit) :
    (es.mergeSort bySpan).Pairwise fun a b => bySpan a b = true :=
  List.pairwise_mergeSort bySpan_trans bySpan_total es

/-- Offsets counted from a place in front of both edits leave their order as it is. -/
theorem bySpan_rebase (hd : n ≤ d.span.start) (hd' : n ≤ d.span.stop) (he : n ≤ e.span.start)
    (he' : n ≤ e.span.stop) : bySpan (d.rebase n) (e.rebase n) = bySpan d e := by
  rw [Bool.eq_iff_iff, bySpan_iff, bySpan_iff]
  dsimp only [rebase]
  omega

theorem InsertOnce.perm {ds : List Edit} (h : InsertOnce es) (hperm : es.Perm ds) :
    InsertOnce ds := by
  refine (hperm.pairwise_iff fun {a b} hab hspan => ?_).mp h
  have := hab hspan.symm
  unfold isInsertion at *
  rw [← hspan]; exact this

end Edit

/-! ## The loop is a sweep -/

namespace LaunchRule

/-- The loop refuses what the sweep refuses, once offsets are counted from where the argument
begins. -/
theorem spliceFrom_eq_sweep (hcursor : Text.IsBoundary arg.text cursor) (es : List Edit) :
    spliceFrom arg cursor es =
      (sweep arg.text cursor (es.map (Edit.rebase arg.span.start))).text := by
  induction es generalizing cursor with
  | nil => rfl
  | cons e es ih =>
    rw [List.map_cons, sweep, spliceFrom]
    cases hr : refusal? arg.text cursor (e.rebase arg.span.start) with
    | none =>
      obtain ⟨hkept, hstop, -⟩ := slices_of_not_refused hcursor hr
      obtain ⟨mid, hmid⟩ := Option.isSome_iff_exists.mp (refusal?_eq_none_iff.mp hr).2.2
      dsimp only [Edit.rebase, Span.text?] at hkept hmid hstop ⊢
      simp only [hkept, hmid, ih hstop]
    | some reason =>
      have hrefused := refusal?_ne_none_iff.mp (hr ▸ Option.some_ne_none reason)
      dsimp only [Edit.rebase, Span.text?] at hrefused ⊢
      rw [← ih hcursor]
      split
      · -- both slices exist, so nothing is in the way
        rename_i kept mid hkept hmid
        have hkept' := Text.slice?_isSome_iff.mp (Option.isSome_of_eq_some hkept)
        have hmid' := Text.slice?_isSome_iff.mp (Option.isSome_of_eq_some hmid)
        rcases hrefused with h | h | h
        · exact absurd hmid'.2.2.le (Nat.not_le.mpr h)
        · exact absurd hkept'.1 (Nat.not_le.mpr h)
        · cases hmid.symm.trans h
      · rfl

/-- The edits that lie inside an argument, counted from where it begins. -/
def insideOf (arg : Captured) (es : List Edit) : List Edit :=
  (es.filter (arg.span.contains ·.span)).map (Edit.rebase arg.span.start)

/-- An edit inside an argument starts and ends behind where the argument begins. -/
theorem within_of_mem_filter (hspans : ∀ e ∈ es, e.span.start ≤ e.span.stop)
    (h : e ∈ es.filter (arg.span.contains ·.span)) :
    arg.span.start ≤ e.span.start ∧ arg.span.start ≤ e.span.stop := by
  obtain ⟨hmem, hcontains⟩ := List.mem_filter.mp h
  have := hspans e hmem
  rw [Span.contains_iff] at hcontains
  omega

/-- **The text of an argument** is that of the sweep over the edits inside it in order, repeated
claims included. -/
theorem splice_eq_sweep (hspans : ∀ e ∈ es, e.span.start ≤ e.span.stop) :
    splice arg es = (sweep arg.text 0 ((insideOf arg es).mergeSort Edit.bySpan)).text := by
  unfold splice insideOf
  dsimp only
  split
  · rename_i hnone
    rw [List.isEmpty_iff.mp hnone, List.map_nil, List.mergeSort_nil, sweep, Text.since_zero]
  · rw [spliceFrom_eq_sweep (Text.isBoundary_zero _), List.map_mergeSort]
    intro d hd e he
    obtain ⟨hd, hd'⟩ := within_of_mem_filter hspans hd
    obtain ⟨he, he'⟩ := within_of_mem_filter hspans he
    exact (Edit.bySpan_rebase hd hd' he he').symm

end LaunchRule

/-! ## Repeated claims -/

namespace Edit

/-- The claims of a list in order, without those on the span of the one before. -/
def firstClaims (es : List Edit) : List Edit :=
  (es.mergeSort bySpan).destutter fun d e => d.span ≠ e.span

/-- Of claims in order, those that differ from the one before are the first ones of their spans. -/
theorem destutter'_firsts (e : Edit) (es : List Edit)
    (hle : (e :: es).Pairwise fun a b => bySpan a b = true) :
    ReplacementSet.Sorted (es.destutter' (fun a b => a.span ≠ b.span) e) ∧
      ∀ d, d ∈ es.destutter' (fun a b => a.span ≠ b.span) e ↔
        ReplacementSet.firstOf (e :: es) d.span = some d := by
  induction es generalizing e with
  | nil =>
    refine ⟨List.pairwise_singleton _ _, fun d => ?_⟩
    simp only [List.destutter'_nil, List.mem_singleton, ReplacementSet.firstOf,
      List.find?_singleton, decide_eq_true_eq]
    grind
  | cons f es ih =>
    obtain ⟨he, hes⟩ := List.pairwise_cons.mp hle
    obtain ⟨hf, hes'⟩ := List.pairwise_cons.mp hes
    by_cases hspan : e.span = f.span
    · -- the second claim is dropped
      have hle' : (e :: es).Pairwise fun a b => bySpan a b = true :=
        List.pairwise_cons.mpr ⟨fun d hd => he d (List.mem_cons_of_mem f hd), hes'⟩
      rw [List.destutter'_cons_neg _ (not_not_intro hspan)]
      refine ⟨(ih e hle').1, fun d => ?_⟩
      rw [(ih e hle').2]
      simp only [ReplacementSet.firstOf, List.find?_cons, hspan]
      grind
    · obtain ⟨hsorted, hmem⟩ := ih f hes
      have hbefore : ∀ d ∈ f :: es, e.span.before d.span = true := by
        intro d hd
        have hef := bySpan_iff.mp (he f List.mem_cons_self)
        have hne : ¬ (e.span.start = f.span.start ∧ e.span.stop = f.span.stop) := fun h =>
          hspan (by cases he : e.span; cases hf : f.span; simp_all)
        rw [Span.before_iff]
        rcases List.mem_cons.mp hd with rfl | hd
        · omega
        · have hfd := bySpan_iff.mp (hf d hd)
          omega
      rw [List.destutter'_cons_pos _ hspan]
      have hrest : ∀ d ∈ es.destutter' (fun a b => a.span ≠ b.span) f,
          e.span.before d.span = true :=
        fun d hd => hbefore d ((List.destutter'_sublist _ _ _).subset hd)
      refine ⟨List.pairwise_cons.mpr ⟨hrest, hsorted⟩, fun d => ?_⟩
      rw [List.mem_cons, hmem]
      simp only [ReplacementSet.firstOf, List.find?_cons]
      by_cases hed : e.span = d.span
      · have hnot : ReplacementSet.firstOf (f :: es) d.span ≠ some d := fun h =>
          Span.ne_of_before (hbefore d (List.mem_of_find?_eq_some h)) hed
        simp only [ReplacementSet.firstOf, List.find?_cons] at hnot
        simp only [hed, decide_true, hnot, or_false, Option.some.injEq]
        exact eq_comm
      · have hde : d ≠ e := fun h => hed (h ▸ rfl)
        simp only [hed, decide_false, hde, false_or]

/-- A stable sort keeps the first claim on a span first. -/
theorem firstOf_mergeSort (es : List Edit) (span : Span) :
    ReplacementSet.firstOf (es.mergeSort bySpan) span = ReplacementSet.firstOf es span := by
  have hsub : (es.filter (·.span = span)).Sublist (es.mergeSort bySpan) := by
    refine List.sublist_mergeSort bySpan_trans bySpan_total ?_ List.filter_sublist
    refine List.pairwise_of_forall_mem_list fun a ha b hb => ?_
    have ha := (List.mem_filter.mp ha).2
    have hb := (List.mem_filter.mp hb).2
    simp only [decide_eq_true_eq] at ha hb
    rw [bySpan_iff, ha, hb]
    exact Or.inr ⟨rfl, Nat.le_refl _⟩
  have heq : es.filter (·.span = span) = (es.mergeSort bySpan).filter (·.span = span) := by
    have hfilter := hsub.filter (·.span = span)
    simp only [List.filter_filter, Bool.and_self] at hfilter
    exact hfilter.eq_of_length ((List.mergeSort_perm es _).filter _).length_eq.symm
  unfold ReplacementSet.firstOf
  rw [← List.head?_filter, ← List.head?_filter, heq]

/-- **The set that keeps first claims** holds the claims in order without the repetitions. -/
theorem edits_run_eq_firstClaims (es : List Edit) :
    ((ReplacementSet.empty .exactSpan).proposeAll es).edits = firstClaims es := by
  have hfirsts : ReplacementSet.Sorted (firstClaims es) ∧
      ∀ d, d ∈ firstClaims es ↔ ReplacementSet.firstOf (es.mergeSort bySpan) d.span = some d := by
    unfold firstClaims
    have hle := pairwise_mergeSort es
    cases hsort : es.mergeSort bySpan with
    | nil => exact ⟨List.Pairwise.nil, fun d => by simp [ReplacementSet.firstOf]⟩
    | cons f fs => exact destutter'_firsts f fs (hsort ▸ hle)
  refine (ReplacementSet.sorted_of_run .exactSpan es).eq_of_mem_iff hfirsts.1 fun d => ?_
  rw [ReplacementSet.mem_edits_run, hfirsts.2, firstOf_mergeSort]

end Edit

namespace Applied

/-- A second claim on a range changes nothing behind the first one. -/
theorem text_sweep_repeat (hspan : d.span = e.span) (htext : d.span.start < d.span.stop) :
    (sweep source cursor (d :: e :: es)).text = (sweep source cursor (d :: es)).text := by
  have hsame : refusal? source cursor d = none ↔ refusal? source cursor e = none := by
    rw [refusal?_eq_none_iff, refusal?_eq_none_iff, hspan]
  by_cases hr : refusal? source cursor d = none
  · have hr' : refusal? source d.span.stop e ≠ none :=
      refusal?_ne_none_iff.mpr (Or.inr (Or.inl (hspan ▸ htext)))
    rw [text_sweep_of_not_refused hr, text_sweep_of_not_refused hr, text_sweep_of_refused hr']
  · rw [text_sweep_of_refused hr, text_sweep_of_refused hr,
      text_sweep_of_refused (hsame.not.mp hr)]

/-- Where no insertion is repeated, repeated claims change nothing. -/
theorem text_sweep_destutter' (e : Edit) (hspans : ∀ d ∈ e :: es, d.span.start ≤ d.span.stop)
    (honce : Edit.InsertOnce (e :: es)) :
    (sweep source cursor (es.destutter' (fun a b => a.span ≠ b.span) e)).text =
      (sweep source cursor (e :: es)).text := by
  induction es generalizing cursor e with
  | nil => rfl
  | cons f es ih =>
    obtain ⟨he, honce'⟩ := List.pairwise_cons.mp honce
    by_cases hspan : e.span = f.span
    · have htext : e.span.start < e.span.stop := by
        have hle := hspans e List.mem_cons_self
        have hne := he f List.mem_cons_self hspan
        rw [Edit.isInsertion, ← hspan, Span.isEmpty, beq_eq_false_iff_ne] at hne
        omega
      have hsub : (e :: es).Sublist (e :: f :: es) := (List.sublist_cons_self f es).cons_cons e
      rw [List.destutter'_cons_neg _ (not_not_intro hspan), text_sweep_repeat hspan htext]
      exact ih e (fun d hd => hspans d (hsub.subset hd)) (honce.sublist hsub)
    · have hrest {cursor : Nat} :
          (sweep source cursor (es.destutter' (fun a b => a.span ≠ b.span) f)).text =
            (sweep source cursor (f :: es)).text :=
        ih f (fun d hd => hspans d (List.mem_cons_of_mem e hd)) honce'
      rw [List.destutter'_cons_pos _ hspan]
      by_cases hr : refusal? source cursor e = none
      · rw [text_sweep_of_not_refused hr, text_sweep_of_not_refused hr, hrest]
      · rw [text_sweep_of_refused hr, text_sweep_of_refused hr, hrest]

end Applied

namespace LaunchRule

/-- An edit inside an argument is no more inverted or repeated for being counted from where the
argument begins. -/
theorem insideOf_once (hspans : ∀ e ∈ es, e.span.start ≤ e.span.stop)
    (honce : Edit.InsertOnce (es.filter (arg.span.contains ·.span))) :
    (∀ e ∈ insideOf arg es, e.span.start ≤ e.span.stop) ∧ Edit.InsertOnce (insideOf arg es) := by
  constructor
  · intro e he
    obtain ⟨d, hd, rfl⟩ := List.mem_map.mp he
    have := hspans d (List.mem_of_mem_filter hd)
    dsimp only [Edit.rebase]
    omega
  · refine List.pairwise_map.mpr (honce.imp_of_mem fun {a b} ha hb hab hspan => ?_)
    have ha := within_of_mem_filter hspans ha
    have hb := within_of_mem_filter hspans hb
    dsimp only [Edit.rebase] at hspan
    have hsame : a.span = b.span := by
      obtain ⟨hstart, hstop⟩ := Span.mk.inj hspan
      cases has : a.span
      cases hbs : b.span
      simp only [has, hbs] at *
      simp only [Span.mk.injEq]
      omega
    have hb' := hab hsame
    simp only [Edit.isInsertion, Span.isEmpty, Edit.rebase, beq_eq_false_iff_ne] at hb' ⊢
    omega

/-- **Splicing agrees with the main machinery.** Where no insertion inside an argument is repeated,
the text of the argument is that of applying, to the text that was captured, the set of the edits
inside it, which keeps the first claim on each span. -/
theorem splice_eq_applyTo (arg : Captured) (es : List Edit)
    (hspans : ∀ e ∈ es, e.span.start ≤ e.span.stop)
    (honce : Edit.InsertOnce (es.filter (arg.span.contains ·.span))) :
    splice arg es =
      (((ReplacementSet.empty .exactSpan).proposeAll (insideOf arg es)).applyTo arg.text).text := by
  obtain ⟨hspans', honce'⟩ := insideOf_once hspans honce
  have hperm := List.mergeSort_perm (insideOf arg es) Edit.bySpan
  have hsorted := honce'.perm hperm.symm
  rw [splice_eq_sweep hspans, ReplacementSet.applyTo, Edit.edits_run_eq_firstClaims,
    Edit.firstClaims]
  cases hsort : (insideOf arg es).mergeSort Edit.bySpan with
  | nil => rfl
  | cons f fs =>
    rw [hsort] at hperm hsorted
    exact (text_sweep_destutter' f (fun d hd => hspans' d (hperm.subset hd)) hsorted).symm

/-- Ranges claimed twice, claimed in part and split, and insertions at both ends, around a character
of two bytes. -/
theorem splice_eq_applyTo_crowded :
    let arg : Captured := ⟨⟨10, 16⟩, "aéb c"⟩
    let es : List Edit := [⟨⟨13, 14⟩, "B", .callRename⟩, ⟨⟨16, 16⟩, ">", .kernelParameters⟩,
      ⟨⟨13, 14⟩, "X", .typeRename⟩, ⟨⟨11, 13⟩, "E", .typeRename⟩, ⟨⟨12, 13⟩, "Y", .typeRename⟩,
      ⟨⟨13, 15⟩, "Z", .callRename⟩, ⟨⟨9, 11⟩, "W", .callRename⟩,
      ⟨⟨10, 10⟩, "<", .kernelParameters⟩]
    (∀ e ∈ es, e.span.start ≤ e.span.stop) ∧
    Edit.InsertOnce (es.filter (arg.span.contains ·.span)) ∧
    splice arg es = "<aEB c>" := by
  intro arg es
  have hspans : ∀ e ∈ es, e.span.start ≤ e.span.stop := by decide
  have honce : Edit.InsertOnce (es.filter (arg.span.contains ·.span)) := by
    unfold Edit.InsertOnce
    decide +kernel
  exact ⟨hspans, honce, (splice_eq_applyTo arg es hspans honce).trans (by decide +kernel)⟩

/-- **Of two insertions at one offset both go in**, while the set keeps the first one only. -/
theorem repeated_insertions_both_go_in :
    let arg : Captured := ⟨⟨10, 13⟩, "abc"⟩
    let es : List Edit := [⟨⟨10, 10⟩, "1", .kernelParameters⟩, ⟨⟨10, 10⟩, "2", .kernelParameters⟩]
    arg.text.utf8ByteSize = arg.span.length ∧
    (∀ e ∈ es, e.span.start ≤ e.span.stop) ∧
    splice arg es = "12abc" ∧
    (((ReplacementSet.empty .exactSpan).proposeAll (insideOf arg es)).applyTo arg.text).text =
      "1abc" := by
  intro arg es
  have hspans : ∀ e ∈ es, e.span.start ≤ e.span.stop := by decide
  refine ⟨by decide +kernel, hspans, ?_, by decide +kernel⟩
  rw [splice_eq_sweep hspans, List.mergeSort_of_pairwise (by decide +kernel)]
  decide +kernel

end LaunchRule

end CudaToHip
