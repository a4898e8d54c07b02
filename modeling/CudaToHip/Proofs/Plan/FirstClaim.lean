import CudaToHip.Proofs.Plan.Fold
import CudaToHip.Proofs.Replacement.FirstClaim

/-!
# The first claim on a span wins, over both passes

A plan under the policy `exactSpan` is the host pass and the device pass taken together, as if all
their edits had been proposed in one go: for each path and each span, the edit discovered first is
accepted, and every other one is logged against it (`first_claim_wins`).
-/

namespace CudaToHip

/-- The set holds, of a list of edits, the first one of each span and logs all others against it. -/
structure ReplacementSet.HoldsFirst (es : List Edit) (s : ReplacementSet) : Prop where
  sorted : Sorted s.edits
  accepted : ∀ e, e ∈ s.edits ↔ firstOf es e.span = some e
  log : s.conflicts = repeats es
  /-- What is accepted at some point of the run is still there at its end. -/
  kept : ∀ before after, es = before ++ after →
    ∀ e ∈ ((empty .exactSpan).proposeAll before).edits, e ∈ s.edits

open ReplacementSet in
theorem ReplacementSet.holdsFirst_run (es : List Edit) :
    ((empty .exactSpan).proposeAll es).HoldsFirst es where
  sorted := sorted_of_run .exactSpan es
  accepted := mem_edits_run es
  log := conflicts_run es
  kept := by
    rintro before after rfl e he
    rw [mem_edits_run] at he ⊢
    exact firstOf_append he

namespace Converter

/-- **The first claim wins.** A path has a set exactly if an edit was discovered for it, and the set
holds the first edit of each span in the order of discovery: the host pass before the device pass,
and within a pass file by file, match by match and in the order of the rules. -/
theorem first_claim_wins (c : Converter) (hpolicy : c.config.conflictPolicy = .exactSpan)
    (files : List SourceFile) (p : Path) :
    (((c.plan files).files.get? p).isSome = true ↔ c.discovered files p ≠ []) ∧
    ∀ s, (c.plan files).files.get? p = some s → s.HoldsFirst (c.discovered files p) := by
  rw [get?_plan, hpolicy]
  split_ifs with hnone
  · exact ⟨by simp [hnone], fun s hs => nomatch hs⟩
  · refine ⟨by simp [hnone], fun s hs => ?_⟩
    obtain rfl := Option.some.inj hs
    exact ReplacementSet.holdsFirst_run _

/-- A front end that reports one call at the front of every file, of another function in each view;
both names are equally long. -/
def oneCallEach : FrontEnd where
  name := "one call"
  scan _ view :=
    .ok ⟨[.call (if view = .hostOnly then "cudaMalloc" else "cudaMemcpy") (.direct 0)], []⟩

/-- Both views and two spellings of one path claim the same span. -/
theorem first_claim_wins_four_claims :
    let c : Converter := ⟨oneCallEach, ⟨.builtin, .default⟩⟩
    let files : List SourceFile :=
      [⟨⟨"x/a.cu"⟩, "cudaMalloc"⟩, ⟨⟨"x//a.cu"⟩, "cudaMalloc"⟩]
    c.config.conflictPolicy = .exactSpan ∧
    (((c.plan files).files.get? ⟨"x/./a.cu"⟩).isSome = true ↔
      c.discovered files ⟨"x/./a.cu"⟩ ≠ []) ∧
    ∀ s, (c.plan files).files.get? ⟨"x/./a.cu"⟩ = some s →
      s.HoldsFirst (c.discovered files ⟨"x/./a.cu"⟩) :=
  ⟨rfl, first_claim_wins _ rfl _ _⟩

end Converter

end CudaToHip
