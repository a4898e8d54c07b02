import CudaToHip.Proofs.Replacement.Sweep

/-!
# The policy that rejects every overlap

Under the policy `overlap`, proposals whose spans are not inverted keep the accepted edits pairwise
free of overlaps (`noOverlap_proposeAll`). In order of their spans such edits stand in a row
(`row_of_noOverlap`), so the sweep never finds one that starts in front of its cursor.
-/

namespace CudaToHip.ReplacementSet

variable {s : ReplacementSet} {e : Edit} {es : List Edit}

/-- No two of the edits overlap. -/
def NoOverlap (es : List Edit) : Prop := es.Pairwise fun a b => a.span.overlaps b.span = false

/-! ## Every accept keeps the edits free of overlaps -/

theorem noOverlap_insertBySpan (h : NoOverlap es)
    (he : ∀ d ∈ es, d.span.overlaps e.span = false) : NoOverlap (insertBySpan e es) := by
  induction es with
  | nil => exact List.pairwise_singleton _ _
  | cons x xs ih =>
    obtain ⟨hx, hxs⟩ := List.pairwise_cons.mp h
    simp only [insertBySpan]
    split
    · refine List.pairwise_cons.mpr ⟨fun d hd => ?_,
        ih hxs fun d hd => he d (List.mem_cons_of_mem x hd)⟩
      rcases mem_insertBySpan.mp hd with rfl | hd
      · exact he x List.mem_cons_self
      · exact hx d hd
    · refine List.pairwise_cons.mpr ⟨fun d hd => ?_, h⟩
      rw [Span.overlaps_comm]
      exact he d hd

/-- Nothing accepted overlaps a proposal that is accepted. -/
theorem not_overlaps_of_not_conflict (hp : s.policy = .overlap) (h : s.conflict? e = none) :
    ∀ d ∈ s.edits, d.span.overlaps e.span = false := by
  intro d hd
  rw [← Bool.not_eq_true]
  intro hover
  have := (conflict?_isSome_iff_overlaps hp e).mpr ⟨d, hd, hover⟩
  rw [h] at this
  exact Bool.false_ne_true this

theorem noOverlap_propose (hp : s.policy = .overlap) (h : NoOverlap s.edits) (e : Edit) :
    NoOverlap (s.propose e).edits := by
  cases hc : s.conflict? e with
  | some c => rw [propose_of_conflict hc]; exact h
  | none =>
    rw [propose_of_not_conflict hc]
    exact noOverlap_insertBySpan h (not_overlaps_of_not_conflict hp hc)

/-- **The accepted edits never overlap.** -/
theorem noOverlap_proposeAll (hp : s.policy = .overlap) (h : NoOverlap s.edits) (es : List Edit) :
    NoOverlap (s.proposeAll es).edits := by
  induction es generalizing s with
  | nil => exact h
  | cons e es ih =>
    exact ih ((policy_propose s e).trans hp) (noOverlap_propose hp h e)

theorem noOverlap_run (es : List Edit) : NoOverlap ((empty .overlap).proposeAll es).edits :=
  noOverlap_proposeAll (s := empty .overlap) rfl List.Pairwise.nil es

/-! ## What follows from it -/

theorem pairs_eq_nil_of_noOverlap (h : NoOverlap es) : pairs es = [] := by
  induction es with
  | nil => rfl
  | cons e es ih =>
    obtain ⟨he, hes⟩ := List.pairwise_cons.mp h
    have hnone : overlapping e es = [] := by
      unfold overlapping
      rw [List.filter_eq_nil_iff]
      intro d hd
      rw [he d ((List.takeWhile_sublist _).subset hd)]
      exact Bool.false_ne_true
    rw [pairs, hnone, ih hes]
    rfl

/-- Sorted edits without overlap stand in a row, each one behind the one before it. -/
theorem row_of_noOverlap (hsorted : Sorted es) (hno : NoOverlap es)
    (hspans : ∀ e ∈ es, e.span.start ≤ e.span.stop) :
    es.Pairwise fun a b => a.span.stop ≤ b.span.start := by
  refine (hsorted.and hno).imp_of_mem fun {a b} ha hb h => ?_
  obtain ⟨hbefore, hover⟩ := h
  obtain ⟨-, hapart⟩ := (Span.overlaps_eq_false_iff (hspans a ha) (hspans b hb)).mp hover
  rw [Span.before_iff] at hbefore
  have := hspans a ha
  have := hspans b hb
  omega

/-- **Under `overlap` there is nothing left to skip.** Of proposals whose spans are not inverted: at
every point of the run the accepted edits are free of overlaps; a proposal is turned away exactly if
an edit accepted before it overlaps it, and the log then names such an edit, with the reason that
its span is claimed exactly if the spans are the same; there are no overlapping pairs; and in every
text that the accepted spans are ranges of, all accepted edits go in. -/
theorem overlap_run (proposals : List Edit)
    (hspans : ∀ e ∈ proposals, e.span.start ≤ e.span.stop) :
    (∀ before, before <+: proposals → NoOverlap ((empty .overlap).proposeAll before).edits) ∧
    (∀ before e after, proposals = before ++ e :: after →
      let s := (empty .overlap).proposeAll before
      ((∃ d ∈ s.edits, d.span.overlaps e.span = true) →
        ∃ d ∈ s.edits, ∃ reason, d.span.overlaps e.span = true ∧
          (reason = .spanClaimed ↔ d.span = e.span) ∧
          s.propose e = { s with conflicts := s.conflicts ++ [⟨d, e, reason⟩] }) ∧
      ((¬ ∃ d ∈ s.edits, d.span.overlaps e.span = true) →
        s.propose e = { s with edits := insertBySpan e s.edits })) ∧
    ((empty .overlap).proposeAll proposals).overlappingPairs = [] ∧
    ∀ source,
      (∀ e ∈ ((empty .overlap).proposeAll proposals).edits, (e.span.text? source).isSome = true) →
      (((empty .overlap).proposeAll proposals).applyTo source).skipped = [] ∧
      (((empty .overlap).proposeAll proposals).applyTo source).applied =
        ((empty .overlap).proposeAll proposals).size := by
  refine ⟨fun before _ => noOverlap_run before, fun before e after _ => ?_,
    pairs_eq_nil_of_noOverlap (noOverlap_run proposals), fun source htext => ?_⟩
  · have hp : ((empty .overlap).proposeAll before).policy = .overlap := by simp [empty]
    have hiff := conflict?_isSome_iff_overlaps hp e
    refine ⟨fun h => ?_, fun h => ?_⟩
    · obtain ⟨c, hc⟩ := Option.isSome_iff_exists.mp (hiff.mpr h)
      obtain ⟨hmem, hover, hrejected, hreason⟩ := conflict?_eq_some hc
      exact ⟨c.existing, hmem, c.reason, hover, hreason, by
        rw [propose_of_conflict hc, ← hrejected]⟩
    · rw [← hiff, Option.not_isSome_iff_eq_none] at h
      exact propose_of_not_conflict h
  · have hedits : ∀ e ∈ ((empty .overlap).proposeAll proposals).edits,
        e.span.start ≤ e.span.stop := by
      intro e he
      rcases mem_of_mem_edits_proposeAll he with h | h
      · exact absurd h List.not_mem_nil
      · exact hspans e h
    have hrow := row_of_noOverlap (sorted_of_run .overlap proposals) (noOverlap_run proposals) hedits
    have hskipped := Applied.sweep_of_row hrow (fun e _ => Nat.zero_le _) htext
    have hcount := Applied.applied_add_skipped source 0 ((empty .overlap).proposeAll proposals).edits
    rw [hskipped, List.length_nil, Nat.add_zero] at hcount
    exact ⟨hskipped, hcount⟩

/-- Two insertions at the edges of a range and one inside it, a touching range and a repetition. -/
theorem overlap_run_edges :
    let proposals : List Edit := [⟨⟨2, 7⟩, "b", .callRename⟩, ⟨⟨2, 2⟩, "a", .kernelParameters⟩,
      ⟨⟨7, 7⟩, "c", .kernelParameters⟩, ⟨⟨4, 4⟩, "x", .kernelParameters⟩,
      ⟨⟨7, 9⟩, "d", .typeRename⟩, ⟨⟨2, 7⟩, "e", .typeRename⟩]
    (∀ e ∈ proposals, e.span.start ≤ e.span.stop) ∧
    (((empty .overlap).proposeAll proposals).applyTo "0123456789").skipped = [] ∧
    (((empty .overlap).proposeAll proposals).applyTo "0123456789").applied = 4 := by
  intro proposals
  have hspans : ∀ e ∈ proposals, e.span.start ≤ e.span.stop := by decide
  obtain ⟨-, -, -, happly⟩ := overlap_run proposals hspans
  have hedits : ((empty .overlap).proposeAll proposals).edits =
      [⟨⟨2, 2⟩, "a", .kernelParameters⟩, ⟨⟨2, 7⟩, "b", .callRename⟩,
        ⟨⟨7, 7⟩, "c", .kernelParameters⟩, ⟨⟨7, 9⟩, "d", .typeRename⟩] := by decide
  have htext : ∀ e ∈ ((empty .overlap).proposeAll proposals).edits,
      (e.span.text? "0123456789").isSome = true := by
    rw [hedits]
    decide
  obtain ⟨hskipped, hcount⟩ := happly "0123456789" htext
  refine ⟨hspans, hskipped, hcount.trans ?_⟩
  rw [size, hedits]
  rfl

end CudaToHip.ReplacementSet
