import CudaToHip.Proofs.Plan.Balance
import CudaToHip.Proofs.Replacement.Rediscovery

/-!
# Folding a report twice

Two passes may find the same constructs, and the second one then proposes what the first one
proposed. A proposal that the set of its path turns away changes no accepted edit of any file
(`accepted_propose`), and after a report is folded, all its proposals would be turned away
(`rejects_of_mem`), whatever became of them the first time and whatever files they are for.

* `rediscovery_is_harmless`: folding a report again changes nothing but the logs, by one conflict for
  each edit, and the counts of proposed and rejected edits.
-/

namespace CudaToHip

namespace FileSets

variable {sets sets' : FileSets} {policy : ConflictPolicy} {p : Path} {e : Edit}
  {proposals : List (Path × Edit)}

/-- The accepted edits of every file, under its path. -/
def accepted (sets : FileSets) : List (Path × List Edit) := sets.map fun x => (x.1, x.2.edits)

/-! ## Proposals that are turned away -/

theorem rejects_iff : sets.rejects p e = true ↔
    ∃ s, sets.get? p = some s ∧ (s.conflict? e).isSome = true := by
  unfold rejects
  cases sets.get? p with
  | none => simp
  | some s => simp

/-- **A proposal that is turned away changes no accepted edit**, and opens no set. -/
theorem Proposed.accepted_eq (h : Proposed policy p e sets sets') (hs : Sorted sets)
    (hrejects : sets.rejects p e = true) : sets'.accepted = sets.accepted := by
  obtain ⟨t, hget, hconflict⟩ := rejects_iff.mp hrejects
  cases h with
  | opened hsets hl hr =>
    rw [hsets] at hs hget
    rw [get?_append_eq_none hs hl hr] at hget
    cases hget
  | @extended l r q s hsets hl hq =>
    rw [hsets, get?_append_cons hl hq] at hget
    obtain rfl := Option.some.inj hget
    obtain ⟨c, hc⟩ := Option.isSome_iff_exists.mp hconflict
    rw [hsets, ReplacementSet.propose_of_conflict hc]
    simp [accepted]

/-- What is turned away stays turned away. -/
theorem rejects_proposeAll (hs : Sorted sets) (h : sets.rejects p e = true)
    (proposals : List (Path × Edit)) : (proposeAll policy sets proposals).rejects p e = true := by
  obtain ⟨s, hget, hconflict⟩ := rejects_iff.mp h
  rw [rejects_iff, get?_proposeAll hs, hget]
  split_ifs
  · exact ⟨s, rfl, hconflict⟩
  · exact ⟨_, rfl, ReplacementSet.isSome_conflict?_proposeAll hconflict _⟩

/-- **After a run of proposals, every one of them would be turned away.** -/
theorem rejects_of_mem (hs : Sorted sets) {x : Path × Edit} (hx : x ∈ proposals) :
    (proposeAll policy sets proposals).rejects x.1 x.2 = true := by
  have hfor : x.2 ∈ proposalsFor proposals x.1 :=
    List.mem_map.mpr ⟨x, List.mem_filter.mpr ⟨hx, Path.same_self x.1⟩, rfl⟩
  rw [rejects_iff, get?_proposeAll hs, if_neg (List.ne_nil_of_mem hfor)]
  exact ⟨_, rfl, ReplacementSet.isSome_conflict?_of_mem _ hfor⟩

/-- Proposals that are all turned away change no accepted edit. -/
theorem accepted_proposeAll (hs : Sorted sets)
    (h : ∀ x ∈ proposals, sets.rejects x.1 x.2 = true) :
    (proposeAll policy sets proposals).accepted = sets.accepted := by
  induction proposals generalizing sets with
  | nil => rfl
  | cons x rest ih =>
    obtain ⟨hx, hrest⟩ := List.forall_mem_cons.mp h
    have hstep : (propose policy x.1 x.2 sets).accepted = sets.accepted :=
      (proposed policy x.1 x.2 sets).accepted_eq hs hx
    have hlater : ∀ y ∈ rest, (propose policy x.1 x.2 sets).rejects y.1 y.2 = true :=
      fun y hy => rejects_proposeAll hs (hrest y hy) [x]
    exact (ih (sorted_propose hs x.2) hlater).trans hstep

/-- The set of a path after proposals that were all turned away. -/
theorem get?_proposeAll_of_rejects {s : ReplacementSet} (hs : Sorted sets)
    (hget : sets.get? p = some s) (hsorted : ReplacementSet.Sorted s.edits)
    (h : ∀ x ∈ proposals, sets.rejects x.1 x.2 = true) : ∃ t,
    (proposeAll policy sets proposals).get? p = some t ∧
      s.TurnedAway (proposalsFor proposals p) t := by
  refine ⟨s.proposeAll (proposalsFor proposals p), ?_,
    ReplacementSet.turnedAway_of_conflicts hsorted fun e he => ?_⟩
  · rw [get?_proposeAll hs, hget]
    split_ifs with hnone
    · rw [hnone]
      rfl
    · rfl
  · obtain ⟨x, hx, rfl⟩ := List.mem_map.mp he
    obtain ⟨hx, hsame⟩ := List.mem_filter.mp hx
    obtain ⟨s', hget', hconflict⟩ := rejects_iff.mp (h x hx)
    rw [get?_congr hsame, hget] at hget'
    obtain rfl := Option.some.inj hget'
    exact hconflict

/-! ## What the accepted edits decide -/

theorem acceptedCount_eq (sets : FileSets) :
    sets.acceptedCount = (sets.accepted.map (·.2.length)).sum := by
  rw [accepted, List.map_map]
  rfl

theorem length_filter_nonempty (sets : FileSets) :
    (sets.filter fun x => !x.2.isEmpty).length =
      (sets.accepted.filter fun x => !x.2.isEmpty).length := by
  rw [accepted, List.filter_map, List.length_map]
  rfl

theorem exists_mem_of_get? {s : ReplacementSet} (h : sets.get? p = some s) : ∃ x ∈ sets, x.2 = s := by
  obtain ⟨x, hx, rfl⟩ := Option.map_eq_some_iff.mp h
  exact ⟨x, List.mem_of_find?_eq_some hx, rfl⟩

end FileSets

namespace Plan

/-- The sets of a plan that folds make keep their edits sorted. -/
theorem sorted_edits_foldAll {plan : Plan} (runs : List (Config × PassReport))
    (h : ∀ x ∈ plan.files, ReplacementSet.Sorted x.2.edits) :
    ∀ x ∈ (plan.foldAll runs).files, ReplacementSet.Sorted x.2.edits := by
  induction runs generalizing plan with
  | nil => exact h
  | cons run rest ih =>
    have hnext : ∀ x ∈ (plan.fold run.1 run.2).files, ReplacementSet.Sorted x.2.edits := by
      rw [files_fold]
      exact FileSets.sorted_edits_proposeAll h run.2.edits
    exact ih hnext

/-- **Re-discovery is harmless.** Take any plan that folds make of the empty one, fold a report into
it, and fold the same report again. Each edit of the report is then turned away when its turn comes.
The accepted edits of every file are as before, and so is the number of converted files; as many more
edits count as rejected as the report has. The set of each path has the edits of the report for this
path added to its log, one conflict each and in their order, and such a conflict is a duplicate
exactly if the accepted edit of its span has the same new text. -/
theorem rediscovery_is_harmless (runs : List (Config × PassReport)) (config : Config)
    (report : PassReport) :
    let once := (empty.foldAll runs).fold config report
    let twice := once.fold config report
    twice.files.accepted = once.files.accepted ∧
    twice.metrics.filesConverted = once.metrics.filesConverted ∧
    (∀ before x after, report.edits = before ++ x :: after →
      (once.files.proposeAll config.conflictPolicy before).rejects x.1 x.2 = true) ∧
    (twice.metrics.editsAccepted = once.metrics.editsAccepted ∧
      twice.metrics.editsRejected = once.metrics.editsRejected + report.edits.length) ∧
    ∀ p s, once.files.get? p = some s → ∃ t, twice.files.get? p = some t ∧
      s.TurnedAway (FileSets.proposalsFor report.edits p) t := by
  intro once twice
  have hplan := (balanced_start 0).foldAll runs
  have honce : once.Balanced (runs.map Prod.snd ++ [report]) := hplan.fold config report
  have htwice : twice.Balanced (runs.map Prod.snd ++ [report] ++ [report]) :=
    honce.fold config report
  have hfiles : once.files =
      (empty.foldAll runs).files.proposeAll config.conflictPolicy report.edits := files_fold ..
  have hagain : twice.files = once.files.proposeAll config.conflictPolicy report.edits :=
    files_fold ..
  have hrejects : ∀ x ∈ report.edits, once.files.rejects x.1 x.2 = true := fun x hx => by
    rw [hfiles]
    exact FileSets.rejects_of_mem hplan.counted.sorted hx
  have haccepted : twice.files.accepted = once.files.accepted := by
    rw [hagain]
    exact FileSets.accepted_proposeAll honce.counted.sorted hrejects
  refine ⟨haccepted, ?_, fun before x after hsplit => ?_, ?_, fun p s hget => ?_⟩
  · show (twice.files.filter fun f => !f.2.isEmpty).length =
      (once.files.filter fun f => !f.2.isEmpty).length
    rw [FileSets.length_filter_nonempty, haccepted, FileSets.length_filter_nonempty]
  · have hx : x ∈ report.edits := hsplit ▸ List.mem_append_right before List.mem_cons_self
    exact FileSets.rejects_proposeAll honce.counted.sorted (hrejects x hx) before
  · have hcount : twice.metrics.editsAccepted = once.metrics.editsAccepted := by
      rw [htwice.counted.accepted, honce.counted.accepted, FileSets.acceptedCount_eq, haccepted,
        FileSets.acceptedCount_eq]
    have hproposed : twice.metrics.editsProposed =
        once.metrics.editsProposed + report.edits.length := by
      rw [htwice.counted.proposed, honce.counted.proposed, List.flatMap_append, List.length_append,
        List.flatMap_singleton]
    have hbalance := honce.counted.balance
    have hbalance' := htwice.counted.balance
    exact ⟨hcount, by omega⟩
  · have hsorted : ∀ x ∈ once.files, ReplacementSet.Sorted x.2.edits := by
      rw [hfiles]
      exact FileSets.sorted_edits_proposeAll
        (sorted_edits_foldAll runs fun _ hx => absurd hx List.not_mem_nil) report.edits
    obtain ⟨x, hx, rfl⟩ := FileSets.exists_mem_of_get? hget
    rw [hagain]
    exact FileSets.get?_proposeAll_of_rejects honce.counted.sorted hget (hsorted x hx) hrejects

end Plan

end CudaToHip
