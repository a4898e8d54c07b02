import CudaToHip.Proofs.Replacement.Accepted

/-!
# Proposing again what was proposed before

What is in the way of an edit stays in the way (`isSome_conflict?_proposeAll`), and an edit that was
accepted is from then on in its own way. So after a run of proposals every one of them would be
turned away (`isSome_conflict?_of_mem`), and a second run of them only makes the log longer.

* `proposeAll_of_conflicts`: proposals that all run into a conflict leave the accepted edits alone
  and add one conflict each.
* `isDuplicate_iff`: a conflict is a duplicate exactly if the accepted edit of its span has the same
  new text.
* `repeated_proposeAll`: what the second run of the same proposals adds to the log.
-/

namespace CudaToHip.ReplacementSet

variable {s t : ReplacementSet} {e d : Edit} {es : List Edit} {c : Conflict}

/-! ## Conflicts stay -/

/-- With more edits accepted, a conflict is still there. -/
theorem isSome_conflict?_mono (hpolicy : t.policy = s.policy) (hedits : ∀ d ∈ s.edits, d ∈ t.edits)
    (h : (s.conflict? e).isSome = true) : (t.conflict? e).isSome = true := by
  obtain ⟨d, hd, hway⟩ := conflict?_isSome_iff.mp h
  exact conflict?_isSome_iff.mpr ⟨d, hedits d hd, hpolicy ▸ hway⟩

theorem isSome_conflict?_proposeAll (h : (s.conflict? e).isSome = true) (es : List Edit) :
    ((s.proposeAll es).conflict? e).isSome = true :=
  isSome_conflict?_mono (policy_proposeAll s es) (fun _ hd => edits_proposeAll hd es) h

/-- Whatever became of a proposal, the same one would now be turned away. -/
theorem isSome_conflict?_propose (s : ReplacementSet) (e : Edit) :
    ((s.propose e).conflict? e).isSome = true := by
  cases hc : s.conflict? e with
  | some c =>
    exact isSome_conflict?_mono (policy_propose s e) (fun _ => edits_propose)
      (Option.isSome_iff_exists.mpr ⟨c, hc⟩)
  | none =>
    have he : e ∈ (s.propose e).edits := by
      rw [propose_of_not_conflict hc]
      exact mem_insertBySpan.mpr (Or.inl rfl)
    exact conflict?_isSome_iff.mpr ⟨e, he, inTheWay_of_span_eq _ rfl⟩

/-- **After a run of proposals, every one of them would be turned away.** -/
theorem isSome_conflict?_of_mem (s : ReplacementSet) (he : e ∈ es) :
    ((s.proposeAll es).conflict? e).isSome = true := by
  induction es generalizing s with
  | nil => exact absurd he List.not_mem_nil
  | cons d ds ih =>
    rcases List.mem_cons.mp he with rfl | he
    · exact isSome_conflict?_proposeAll (isSome_conflict?_propose s e) ds
    · exact ih (s.propose d) he

/-! ## A run of conflicts -/

/-- **Proposals that all run into a conflict** leave the accepted edits alone and make the log longer
by one conflict each, in their order. -/
theorem proposeAll_of_conflicts (h : ∀ e ∈ es, (s.conflict? e).isSome = true) :
    s.proposeAll es = { s with conflicts := s.conflicts ++ es.filterMap s.conflict? } := by
  induction es generalizing s with
  | nil =>
    rw [List.filterMap_nil, List.append_nil]
    rfl
  | cons e es ih =>
    obtain ⟨he, hes⟩ := List.forall_mem_cons.mp h
    obtain ⟨c, hc⟩ := Option.isSome_iff_exists.mp he
    -- the log has no part in what runs into a conflict
    have hrest : (s.propose e).conflict? = s.conflict? := by
      rw [propose_of_conflict hc]
      rfl
    have hrun := @ih (s.propose e) fun d hd => hrest ▸ hes d hd
    show (s.propose e).proposeAll es = _
    rw [hrun, hrest, propose_of_conflict hc, List.filterMap_cons_some hc]
    simp

/-- Each of these conflicts turns away its own proposal. -/
theorem map_rejected_conflicts (h : ∀ e ∈ es, (s.conflict? e).isSome = true) :
    (es.filterMap s.conflict?).map (·.rejected) = es := by
  induction es with
  | nil => rfl
  | cons e es ih =>
    obtain ⟨he, hes⟩ := List.forall_mem_cons.mp h
    obtain ⟨c, hc⟩ := Option.isSome_iff_exists.mp he
    rw [List.filterMap_cons_some hc, List.map_cons, ih hes, (conflict?_eq_some hc).2.2.1]

/-- **When a conflict is a duplicate**: the accepted edit of the same span has the same new text. -/
theorem isDuplicate_iff (hs : Sorted s.edits) (h : s.conflict? e = some c) :
    c.isDuplicate = true ↔ ∃ d, s.get? e.span = some d ∧ d.newText = e.newText := by
  obtain ⟨hexisting, -, rfl, -⟩ := conflict?_eq_some h
  simp only [Conflict.isDuplicate, Bool.and_eq_true, decide_eq_true_eq]
  constructor
  · rintro ⟨hspan, htext⟩
    exact ⟨c.existing, (get?_eq_some_iff hs).mpr ⟨hexisting, hspan⟩, htext⟩
  · rintro ⟨d, hget, htext⟩
    have hexact : s.conflict? c.rejected = some ⟨d, c.rejected, .spanClaimed⟩ := by
      unfold conflict?
      rw [hget]
    have hc : c.existing = d := congrArg Conflict.existing (Option.some.inj (h.symm.trans hexact))
    rw [hc]
    exact ⟨((get?_eq_some_iff hs).mp hget).2, htext⟩

/-! ## The second run -/

/-- The set `t` is the set `s` after proposals that were all turned away. -/
structure TurnedAway (s : ReplacementSet) (es : List Edit) (t : ReplacementSet) : Prop where
  policy : t.policy = s.policy
  edits : t.edits = s.edits
  /-- The log has one conflict more for each proposal, in their order, with an accepted edit. It is a
  duplicate exactly if the accepted edit of its span has the same new text. -/
  log : ∃ new : List Conflict, t.conflicts = s.conflicts ++ new ∧ new.map (·.rejected) = es ∧
    ∀ c ∈ new, c.existing ∈ s.edits ∧ (c.isDuplicate = true ↔
      ∃ d, s.get? c.rejected.span = some d ∧ d.newText = c.rejected.newText)

theorem turnedAway_of_conflicts (hs : Sorted s.edits)
    (h : ∀ e ∈ es, (s.conflict? e).isSome = true) : s.TurnedAway es (s.proposeAll es) := by
  rw [proposeAll_of_conflicts h]
  refine ⟨rfl, rfl, es.filterMap s.conflict?, rfl, map_rejected_conflicts h, fun c hc => ?_⟩
  obtain ⟨e, -, hce⟩ := List.mem_filterMap.mp hc
  obtain ⟨hexisting, -, rfl, -⟩ := conflict?_eq_some hce
  exact ⟨hexisting, isDuplicate_iff hs hce⟩

/-- **A second run of the same proposals turns all of them away.** -/
theorem repeated_proposeAll (hs : Sorted s.edits) (es : List Edit) :
    (s.proposeAll es).TurnedAway es ((s.proposeAll es).proposeAll es) :=
  turnedAway_of_conflicts (sorted_proposeAll hs es) fun _ => isSome_conflict?_of_mem s

end CudaToHip.ReplacementSet
