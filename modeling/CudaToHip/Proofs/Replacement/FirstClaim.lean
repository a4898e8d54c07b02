import CudaToHip.Proofs.Replacement.Accepted
import Mathlib.Data.List.Basic

/-!
# The first claim on a span wins

Under the policy `exactSpan` a run of proposals is described by its list alone. An edit is accepted
exactly if it is the first of the list with its span (`mem_edits_run`), and the log is `repeats` of
the list: every other edit, in the order of the list, with the first edit of its span
(`conflicts_run`).
-/

namespace CudaToHip.ReplacementSet

variable {es : List Edit} {e : Edit}

/-- The first edit of exactly this span. -/
def firstOf (es : List Edit) (span : Span) : Option Edit := es.find? (·.span = span)

/-- Every edit of the list that comes behind another of its span, turned away because of the first
one of that span. -/
def repeats (es : List Edit) : List Conflict :=
  es.zipIdx.filterMap fun (e, i) => (firstOf (es.take i) e.span).map (⟨·, e, .spanClaimed⟩)

theorem firstOf_concat (es : List Edit) (e : Edit) (span : Span) :
    firstOf (es ++ [e]) span = (firstOf es span).or (if e.span = span then some e else none) := by
  unfold firstOf
  rw [List.find?_append, List.find?_singleton]
  simp only [decide_eq_true_eq]

/-- The first edit of a span does not change as the list goes on. -/
theorem firstOf_append {ds : List Edit} {d : Edit} {span : Span} (h : firstOf es span = some d) :
    firstOf (es ++ ds) span = some d := by
  unfold firstOf at *
  rw [List.find?_append, h, Option.some_or]

theorem repeats_concat (es : List Edit) (e : Edit) :
    repeats (es ++ [e]) =
      repeats es ++ ((firstOf es e.span).map (⟨·, e, .spanClaimed⟩ : Edit → Conflict)).toList := by
  unfold repeats
  rw [List.zipIdx_append, List.filterMap_append]
  congr 1
  · -- an edit of the shorter list has the same edits before it in the longer one
    apply List.filterMap_congr
    rintro ⟨d, i⟩ hd
    have hi : i < es.length := by simpa using List.snd_lt_add_of_mem_zipIdx hd
    simp only [List.take_append_of_le_length (Nat.le_of_lt hi)]
  · rw [List.zipIdx_singleton, List.filterMap_cons, List.filterMap_nil]
    simp only [Nat.zero_add, List.take_append_of_le_length (Nat.le_refl es.length),
      List.take_length]
    cases firstOf es e.span <;> rfl

/-- The accepted edit of a span is the first one of the list. -/
theorem get?_run (es : List Edit) (span : Span) :
    ((empty .exactSpan).proposeAll es).get? span = firstOf es span := by
  induction es using List.reverseRecOn generalizing span with
  | nil => rfl
  | append_singleton es e ih =>
    have hsorted := sorted_of_run .exactSpan es
    have hconf := conflict?_exactSpan (s := (empty .exactSpan).proposeAll es) (by simp [empty]) e
    rw [ih] at hconf
    rw [proposeAll_concat, firstOf_concat]
    cases hfirst : firstOf es e.span with
    | some d =>
      rw [hfirst] at hconf
      rw [propose_of_conflict hconf]
      show ((empty .exactSpan).proposeAll es).get? span = _
      rw [ih]
      split_ifs with hspan
      · rw [← hspan, hfirst, Option.some_or]
      · rw [Option.or_none]
    | none =>
      rw [hfirst] at hconf
      rw [get?_propose_of_not_conflict hsorted hconf, ih]
      split_ifs with hspan
      · rw [← hspan, hfirst, Option.none_or]
      · rw [Option.or_none]

/-- **An edit is accepted exactly if it is the first of the list with its span.** -/
theorem mem_edits_run (es : List Edit) (e : Edit) :
    e ∈ ((empty .exactSpan).proposeAll es).edits ↔ firstOf es e.span = some e := by
  rw [← get?_run, get?_eq_some_iff (sorted_of_run _ es)]
  exact ⟨fun h => ⟨h, rfl⟩, fun h => h.1⟩

/-- **The log is the list of repeats.** -/
theorem conflicts_run (es : List Edit) :
    ((empty .exactSpan).proposeAll es).conflicts = repeats es := by
  induction es using List.reverseRecOn with
  | nil => rfl
  | append_singleton es e ih =>
    have hconf := conflict?_exactSpan (s := (empty .exactSpan).proposeAll es) (by simp [empty]) e
    rw [get?_run] at hconf
    rw [proposeAll_concat, repeats_concat, ← ih]
    cases hfirst : firstOf es e.span with
    | some d =>
      rw [hfirst] at hconf
      rw [propose_of_conflict hconf]
      rfl
    | none =>
      rw [hfirst] at hconf
      rw [propose_of_not_conflict hconf]
      exact (List.append_nil _).symm

end CudaToHip.ReplacementSet
