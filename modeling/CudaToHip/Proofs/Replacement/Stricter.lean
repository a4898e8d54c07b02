import CudaToHip.Proofs.Replacement.Accepted

/-!
# The strict policy only drops edits

Once `overlap` has turned an edit away that `exactSpan` accepts, the two sets differ, and later
proposals meet different edits in each. What still ties them together is `Drops`: every edit of the
strict set is in the lenient one, and every edit of the lenient one is overlapped by an edit of the
strict one. So an edit that nothing in the strict set overlaps has a span that is free in the
lenient set too, and a proposal keeps the tie (`Drops.propose`).

* `overlap_only_drops`: whatever is proposed, all that is accepted under `overlap` is accepted under
  `exactSpan`. If different spans never overlap, the policies come to the same.
-/

namespace CudaToHip.ReplacementSet

variable {strict lenient : ReplacementSet} {e : Edit}

/-- How a set under `overlap` stands to one under `exactSpan` that had the same proposals. -/
structure Drops (strict lenient : ReplacementSet) : Prop where
  strictPolicy : strict.policy = .overlap
  lenientPolicy : lenient.policy = .exactSpan
  kept : ∀ d ∈ strict.edits, d ∈ lenient.edits
  /-- What was dropped, or will be, is overlapped by an edit that was kept. -/
  covered : ∀ d ∈ lenient.edits, ∃ k ∈ strict.edits, k.span.overlaps d.span = true

namespace Drops

theorem empty : Drops (empty .overlap) (empty .exactSpan) where
  strictPolicy := rfl
  lenientPolicy := rfl
  kept := fun _ h => h
  covered := fun _ h => absurd h List.not_mem_nil

/-- **What the strict set would accept, the lenient one would accept.** -/
theorem accepts (h : Drops strict lenient) (hfree : strict.conflict? e = none) :
    lenient.conflict? e = none := by
  by_contra hlenient
  obtain ⟨d, hd, hspan⟩ := conflict?_isSome_iff.mp (Option.isSome_iff_ne_none.mpr hlenient)
  rw [h.lenientPolicy] at hspan
  -- the edit that claims the span was either kept, or dropped because of one that overlaps it
  obtain ⟨k, hk, hover⟩ := h.covered d hd
  have hconflict := (conflict?_isSome_iff_overlaps h.strictPolicy e).mpr ⟨k, hk, hspan ▸ hover⟩
  rw [hfree] at hconflict
  exact Bool.false_ne_true hconflict

/-- **A proposal to both sets keeps the tie.** -/
theorem propose (h : Drops strict lenient) (e : Edit) :
    Drops (strict.propose e) (lenient.propose e) where
  strictPolicy := (policy_propose strict e).trans h.strictPolicy
  lenientPolicy := (policy_propose lenient e).trans h.lenientPolicy
  kept := by
    intro d hd
    cases hstrict : strict.conflict? e with
    | some c =>
      rw [propose_of_conflict hstrict] at hd
      exact edits_propose (h.kept d hd)
    | none =>
      rw [propose_of_not_conflict (h.accepts hstrict)]
      rw [propose_of_not_conflict hstrict] at hd
      exact mem_insertBySpan.mpr ((mem_insertBySpan.mp hd).imp id (h.kept d))
  covered := by
    intro d hd
    rcases mem_of_mem_edits_propose hd with hd | rfl
    · obtain ⟨k, hk, hover⟩ := h.covered d hd
      exact ⟨k, edits_propose hk, hover⟩
    · cases hstrict : strict.conflict? d with
      | some c =>
        obtain ⟨hk, hover, -, -⟩ := conflict?_eq_some hstrict
        exact ⟨c.existing, edits_propose hk, hover⟩
      | none =>
        rw [propose_of_not_conflict hstrict]
        exact ⟨d, mem_insertBySpan.mpr (Or.inl rfl), Span.overlaps_self d.span⟩

theorem proposeAll (h : Drops strict lenient) (es : List Edit) :
    Drops (strict.proposeAll es) (lenient.proposeAll es) := by
  induction es generalizing strict lenient with
  | nil => exact h
  | cons e es ih => exact ih (h.propose e)

end Drops

/-- **The strict policy only drops edits.** Whatever is proposed, with any spans: an edit that the
set under `overlap` would accept next, the set under `exactSpan` would accept too, and all that the
first has accepted the second has accepted. If no two different spans among the proposals overlap,
both have accepted and logged the same. -/
theorem overlap_only_drops (proposals : List Edit) :
    let strict := (empty .overlap).proposeAll proposals
    let lenient := (empty .exactSpan).proposeAll proposals
    (∀ e, strict.conflict? e = none → lenient.conflict? e = none) ∧
    (∀ e ∈ strict.edits, e ∈ lenient.edits) ∧
    ((∀ a ∈ proposals, ∀ b ∈ proposals, a.span ≠ b.span → a.span.overlaps b.span = false) →
      strict.edits = lenient.edits ∧ strict.conflicts = lenient.conflicts) := by
  intro strict lenient
  have h : Drops strict lenient := Drops.empty.proposeAll proposals
  exact ⟨fun _ => h.accepts, h.kept, fun hapart => proposeAll_of_apart hapart .overlap .exactSpan⟩

/-- In a chain of overlaps the strict set drops the middle edit and accepts the last one, which only
the middle one overlaps. Edits that touch, or repeat a span, are no such chain. An inverted span is
claimed like any other. -/
theorem overlap_only_drops_chain :
    let chain : List Edit := [⟨⟨0, 4⟩, "a", .callRename⟩, ⟨⟨3, 7⟩, "b", .callRename⟩,
      ⟨⟨6, 9⟩, "c", .typeRename⟩, ⟨⟨3, 7⟩, "d", .typeRename⟩, ⟨⟨12, 11⟩, "e", .inclusion⟩]
    let row : List Edit := [⟨⟨0, 4⟩, "a", .callRename⟩, ⟨⟨4, 4⟩, "b", .kernelParameters⟩,
      ⟨⟨4, 7⟩, "c", .typeRename⟩, ⟨⟨4, 4⟩, "d", .kernelParameters⟩, ⟨⟨12, 11⟩, "e", .inclusion⟩]
    ((((empty .overlap).proposeAll chain).edits.map (·.newText) = ["a", "c", "e"] ∧
      ((empty .exactSpan).proposeAll chain).edits.map (·.newText) = ["a", "b", "c", "e"]) ∧
      ∀ e ∈ ((empty .overlap).proposeAll chain).edits,
        e ∈ ((empty .exactSpan).proposeAll chain).edits) ∧
    (∀ a ∈ row, ∀ b ∈ row, a.span ≠ b.span → a.span.overlaps b.span = false) ∧
      ((empty .overlap).proposeAll row).edits = ((empty .exactSpan).proposeAll row).edits ∧
      ((empty .overlap).proposeAll row).conflicts =
        ((empty .exactSpan).proposeAll row).conflicts := by
  intro chain row
  have hrow : ∀ a ∈ row, ∀ b ∈ row, a.span ≠ b.span → a.span.overlaps b.span = false := by decide
  exact ⟨⟨⟨by decide, by decide⟩, (overlap_only_drops chain).2.1⟩, hrow,
    (overlap_only_drops row).2.2 hrow⟩

end CudaToHip.ReplacementSet
