import CudaToHip.Plan.Apply
import CudaToHip.Proofs.Plan.Fold
import Mathlib.Algebra.GroupWithZero.Nat
import Mathlib.Data.List.Dedup

/-!
# The counters of a plan balance

The counters of a plan are kept beside its replacement sets, at other places than these. One
proposal moves both alike (`Counted.propose`): it is counted as proposed, and either as accepted,
when a set grows by one edit, or as rejected, when a log grows by one conflict. So the counters can
be read off the sets after every run of folds (`Balanced.foldAll`), and every accepted edit is
counted once more when the plan is applied (`applied_add_skipped_applyFiles`).

* `counters_balance`: all equations between the counters, the sets and the reports.
-/

namespace CudaToHip

/-! ## One set -/

namespace ReplacementSet

variable {s : ReplacementSet} {e : Edit}

theorem length_insertBySpan (e : Edit) (es : List Edit) :
    (insertBySpan e es).length = es.length + 1 := by
  induction es with
  | nil => rfl
  | cons d ds ih =>
    simp only [insertBySpan]
    split
    · rw [List.length_cons, ih, List.length_cons]
    · rfl

theorem size_propose (s : ReplacementSet) (e : Edit) :
    (s.propose e).size = s.size + (if (s.conflict? e).isSome then 0 else 1) := by
  cases hc : s.conflict? e with
  | some c => rw [propose_of_conflict hc]; rfl
  | none => rw [propose_of_not_conflict hc]; exact length_insertBySpan e s.edits

theorem conflicts_propose (s : ReplacementSet) (e : Edit) :
    (s.propose e).conflicts.length =
      s.conflicts.length + (if (s.conflict? e).isSome then 1 else 0) := by
  cases hc : s.conflict? e with
  | some c => rw [propose_of_conflict hc]; exact List.length_append
  | none => rw [propose_of_not_conflict hc]; rfl

/-- A set that an edit was proposed to is not empty. -/
theorem isEmpty_propose (s : ReplacementSet) (e : Edit) : (s.propose e).isEmpty = false := by
  cases hc : s.conflict? e with
  | some c =>
    rw [propose_of_conflict hc]
    exact List.isEmpty_eq_false_iff.mpr (List.ne_nil_of_mem (conflict?_eq_some hc).1)
  | none =>
    rw [propose_of_not_conflict hc]
    exact List.isEmpty_eq_false_iff.mpr
      (List.ne_nil_of_mem (mem_insertBySpan.mpr (Or.inl rfl)))

end ReplacementSet

/-! ## The sets of several files -/

namespace FileSets

variable {sets : FileSets} {p : Path} {policy : ConflictPolicy}

/-- Accepted edits over all files. -/
def acceptedCount (sets : FileSets) : Nat := (sets.map (·.2.size)).sum

/-- Conflicts over all files. -/
def conflictCount (sets : FileSets) : Nat := (sets.map (·.2.conflicts.length)).sum

/-- The paths with a set, however they are spelled. -/
def paths (sets : FileSets) : List (List Path.Component) := sets.map (·.1.components)

namespace Proposed

variable {e : Edit} {sets' : FileSets}

/-- Counts that are sums over all sets grow with the set that grows. -/
theorem counts_append_cons (l r : FileSets) (q : Path) (s : ReplacementSet) :
    acceptedCount (l ++ (q, s) :: r) = acceptedCount (l ++ r) + s.size ∧
      conflictCount (l ++ (q, s) :: r) = conflictCount (l ++ r) + s.conflicts.length := by
  simp only [acceptedCount, conflictCount, List.map_append, List.map_cons, List.sum_append,
    List.sum_cons]
  omega

/-- **A proposal adds one accepted edit or one conflict**, as `rejects` says. -/
theorem counts (h : Proposed policy p e sets sets') (hs : Sorted sets) :
    sets'.acceptedCount = sets.acceptedCount + (if sets.rejects p e then 0 else 1) ∧
      sets'.conflictCount = sets.conflictCount + (if sets.rejects p e then 1 else 0) := by
  cases h with
  | @opened l r hsets hl hr =>
    subst hsets
    have hrejects : rejects (l ++ r) p e = false := by
      rw [rejects, get?_append_eq_none hs hl hr]
      rfl
    have hfresh : ((ReplacementSet.empty policy).propose e) = ⟨policy, [e], []⟩ := by
      cases policy <;> rfl
    obtain ⟨haccepted, hconflicts⟩ := counts_append_cons l r p ⟨policy, [e], []⟩
    rw [hrejects, hfresh, haccepted, hconflicts]
    exact ⟨rfl, rfl⟩
  | @extended l r q s hsets hl hq =>
    subst hsets
    have hrejects : rejects (l ++ (q, s) :: r) p e = (s.conflict? e).isSome := by
      rw [rejects, get?_append_cons hl hq]
      rfl
    obtain ⟨haccepted, hconflicts⟩ := counts_append_cons l r q s
    obtain ⟨haccepted', hconflicts'⟩ := counts_append_cons l r q (s.propose e)
    rw [haccepted', hconflicts', haccepted, hconflicts, hrejects, s.size_propose,
      s.conflicts_propose, Nat.add_assoc, Nat.add_assoc]
    exact ⟨rfl, rfl⟩

/-- No set is empty after a proposal if none was before. -/
theorem nonempty (h : Proposed policy p e sets sets')
    (hsets : ∀ x ∈ sets, x.2.isEmpty = false) : ∀ x ∈ sets', x.2.isEmpty = false :=
  h.forall_sets (P := fun s => s.isEmpty = false) (ReplacementSet.isEmpty_propose _ e)
    (fun s _ => ReplacementSet.isEmpty_propose s e) hsets

/-- A proposal makes sure that its path has a set. -/
theorem mem_paths (h : Proposed policy p e sets sets') {c : List Path.Component} :
    c ∈ sets'.paths ↔ c = p.components ∨ c ∈ sets.paths := by
  cases h with
  | opened hsplit =>
    subst hsplit
    simp only [paths, List.map_append, List.map_cons, List.mem_append, List.mem_cons]
    exact or_left_comm
  | extended hsplit hl hq =>
    subst hsplit
    simp only [paths, List.map_append, List.map_cons, List.mem_append, List.mem_cons,
      Path.same_iff.mp hq]
    rw [or_left_comm, or_self_left]

end Proposed

/-- In order, there is one set for each path. -/
theorem Sorted.nodup_paths (h : Sorted sets) : sets.paths.Nodup := by
  refine List.pairwise_map.mpr (h.imp fun {a b} hlt heq => ?_)
  have hsame : a.1.same b.1 = true := Path.same_iff.mpr heq
  rw [Path.same_eq_false_of_lt hlt] at hsame
  cases hsame

end FileSets

/-! ## Counters and sets -/

/-- The different paths among proposals. -/
def distinctPaths (proposals : List (Path × Edit)) : List (List Path.Component) :=
  (proposals.map (·.1.components)).dedup

namespace Plan

/-- The plan that a batch of files begins with. -/
def start (attempted : Nat) : Plan :=
  { empty with metrics := { Metrics.zero with filesAttempted := attempted } }

/-- The plan after all reports in turn, each folded under a configuration. -/
def foldAll (plan : Plan) (runs : List (Config × PassReport)) : Plan :=
  runs.foldl (fun plan run => plan.fold run.1 run.2) plan

/-- The sets of a plan hold the proposals made so far, and its counters say how many of them were
accepted and how many rejected. -/
structure Counted (plan : Plan) (proposals : List (Path × Edit)) : Prop where
  sorted : FileSets.Sorted plan.files
  nonempty : ∀ x ∈ plan.files, x.2.isEmpty = false
  paths : ∀ c, c ∈ plan.files.paths ↔ c ∈ proposals.map (·.1.components)
  proposed : plan.metrics.editsProposed = proposals.length
  balance : plan.metrics.editsProposed = plan.metrics.editsAccepted + plan.metrics.editsRejected
  accepted : plan.metrics.editsAccepted = plan.files.acceptedCount
  rejected : plan.metrics.editsRejected = plan.files.conflictCount

variable {plan : Plan} {proposals : List (Path × Edit)} {reports : List PassReport}

/-- Only the sets and three of the counters matter. -/
theorem Counted.congr {other : Plan} (h : plan.Counted proposals)
    (hfiles : other.files = plan.files)
    (hproposed : other.metrics.editsProposed = plan.metrics.editsProposed)
    (haccepted : other.metrics.editsAccepted = plan.metrics.editsAccepted)
    (hrejected : other.metrics.editsRejected = plan.metrics.editsRejected) :
    other.Counted proposals where
  sorted := hfiles ▸ h.sorted
  nonempty := hfiles ▸ h.nonempty
  paths := hfiles ▸ h.paths
  proposed := hproposed.trans h.proposed
  balance := by rw [hproposed, haccepted, hrejected, h.balance]
  accepted := by rw [haccepted, hfiles, h.accepted]
  rejected := by rw [hrejected, hfiles, h.rejected]

/-- **One proposal is counted once**, as accepted or as rejected. -/
theorem Counted.propose (h : plan.Counted proposals) (config : Config) (x : Path × Edit) :
    (plan.propose config x).Counted (proposals ++ [x]) := by
  obtain ⟨p, e⟩ := x
  obtain ⟨haccepted, hconflicts⟩ : FileSets.acceptedCount
        (FileSets.propose config.conflictPolicy p e plan.files) =
      plan.files.acceptedCount + (if plan.files.rejects p e then 0 else 1) ∧
    FileSets.conflictCount (FileSets.propose config.conflictPolicy p e plan.files) =
      plan.files.conflictCount + (if plan.files.rejects p e then 1 else 0) :=
    (FileSets.proposed ..).counts h.sorted
  rw [← h.accepted] at haccepted
  rw [← h.rejected] at hconflicts
  have hbalance := h.balance
  have hcounted : (plan.propose config (p, e)).metrics.editsProposed =
        plan.metrics.editsProposed + 1 ∧
      (plan.propose config (p, e)).metrics.editsAccepted =
        plan.metrics.editsAccepted + (if plan.files.rejects p e then 0 else 1) ∧
      (plan.propose config (p, e)).metrics.editsRejected =
        plan.metrics.editsRejected + (if plan.files.rejects p e then 1 else 0) := by
    unfold Plan.propose
    dsimp only
    split <;> exact ⟨rfl, rfl, rfl⟩
  obtain ⟨hp, ha, hr⟩ := hcounted
  exact
    { sorted := FileSets.sorted_propose h.sorted e
      nonempty := (FileSets.proposed ..).nonempty h.nonempty
      paths := fun c => by
        rw [List.map_append, List.mem_append, ← h.paths c, or_comm, List.map_singleton,
          List.mem_singleton]
        exact (FileSets.proposed ..).mem_paths
      proposed := by rw [hp, h.proposed, List.length_append]; rfl
      balance := by rw [hp, ha, hr]; split <;> omega
      accepted := ha.trans haccepted.symm
      rejected := hr.trans hconflicts.symm }

theorem Counted.proposeAll (h : plan.Counted proposals) (config : Config)
    (more : List (Path × Edit)) :
    (more.foldl (Plan.propose config) plan).Counted (proposals ++ more) := by
  induction more generalizing plan proposals with
  | nil => exact (List.append_nil proposals).symm ▸ h
  | cons x rest ih =>
    rw [List.append_cons]
    exact ih (h.propose config x)

/-- **The counters balance.** What a plan says in numbers about the passes that were folded into it
is so of its sets and of the reports of the passes. -/
structure Balanced (plan : Plan) (reports : List PassReport) : Prop where
  counted : plan.Counted (reports.flatMap (·.edits))
  recorded : plan.passes = reports.map PassReport.summary
  converted : plan.metrics.filesConverted = (distinctPaths (reports.flatMap (·.edits))).length
  found : plan.metrics.matchesFound = (reports.map (·.matchCount)).sum
  failures : plan.metrics.passFailures = (reports.map (·.failedFiles.length)).sum
  unapplied : plan.metrics.editsApplied = 0 ∧ plan.metrics.applyFailures = 0

theorem balanced_start (attempted : Nat) : (start attempted).Balanced [] where
  counted :=
    { sorted := .nil
      nonempty := fun _ h => nomatch h
      paths := fun _ => Iff.rfl
      proposed := rfl
      balance := rfl
      accepted := rfl
      rejected := rfl }
  recorded := rfl
  converted := rfl
  found := rfl
  failures := rfl
  unapplied := ⟨rfl, rfl⟩

/-- The files with a set are as many as there are different paths among the proposals. -/
theorem Counted.length_files (h : plan.Counted proposals) :
    (plan.files.filter fun f => !f.2.isEmpty).length = (distinctPaths proposals).length := by
  have hall : (plan.files.filter fun f => !f.2.isEmpty) = plan.files :=
    List.filter_eq_self.mpr fun x hx => by rw [h.nonempty x hx]; rfl
  have hperm : plan.files.paths.Perm (distinctPaths proposals) := by
    refine (List.perm_ext_iff_of_nodup h.sorted.nodup_paths (List.nodup_dedup _)).mpr fun c => ?_
    rw [h.paths c, List.mem_dedup]
  rw [hall, ← hperm.length_eq]
  exact (List.length_map _).symm

/-- **A fold keeps the balance.** -/
theorem Balanced.fold (h : plan.Balanced reports) (config : Config) (report : PassReport) :
    (plan.fold config report).Balanced (reports ++ [report]) := by
  have hedits : (reports ++ [report]).flatMap (·.edits) =
      reports.flatMap (·.edits) ++ report.edits := by
    rw [List.flatMap_append, List.flatMap_singleton]
  -- the plan with the report recorded, before its first proposal
  let begun : Plan :=
    { plan with
      passes := plan.passes ++ [report.summary]
      metrics :=
        { plan.metrics with
          matchesFound := plan.metrics.matchesFound + report.matchCount
          passFailures := plan.metrics.passFailures + report.failedFiles.length } }
  have hbegun : begun.Counted (reports.flatMap (·.edits)) := h.counted.congr rfl rfl rfl rfl
  have hcounted := hbegun.proposeAll config report.edits
  have hframe := sameFrame_foldl_propose config begun report.edits
  rw [← hedits] at hcounted
  exact
    { counted := hcounted.congr rfl rfl rfl rfl
      recorded := by
        rw [List.map_append, ← h.recorded]
        exact hframe.passes
      converted := hcounted.length_files
      found := by
        rw [List.map_append, List.sum_append, ← h.found]
        exact hframe.found
      failures := by
        rw [List.map_append, List.sum_append, ← h.failures]
        exact hframe.failures
      unapplied := ⟨hframe.applied.trans h.unapplied.1,
        hframe.applyFailures.trans h.unapplied.2⟩ }

theorem Balanced.foldAll (h : plan.Balanced reports) (runs : List (Config × PassReport)) :
    (plan.foldAll runs).Balanced (reports ++ runs.map Prod.snd) := by
  induction runs generalizing plan reports with
  | nil => exact (List.append_nil reports).symm ▸ h
  | cons run rest ih =>
    rw [List.map_cons, List.append_cons]
    exact ih (h.fold run.1 run.2)

/-- The plan of a batch is balanced. -/
theorem balanced_plan (c : Converter) (files : List SourceFile) :
    (c.plan files).Balanced (View.passOrder.map (c.runPass files)) :=
  (balanced_start files.length).foldAll (View.passOrder.map fun v => (c.config, c.runPass files v))

end Plan

/-! ## Applying a plan -/

/-- The edits of a file are all accounted for by its outcome. -/
theorem Plan.applied_add_skipped_applyFile (files : List SourceFile) (fs : FileSystem)
    (path : Path) (set : ReplacementSet) :
    (Plan.applyFile files fs path set).2.applied +
      (Plan.applyFile files fs path set).2.skipped.length = set.size := by
  have hskipped (reason : SkipReason) :
      (FileOutcome.allSkipped path set reason).applied +
        (FileOutcome.allSkipped path set reason).skipped.length = set.size := by
    show 0 + (set.edits.map _).length = set.edits.length
    rw [List.length_map, Nat.zero_add]
  have happly (source : String) :
      (set.applyTo source).applied + (set.applyTo source).skipped.length = set.size :=
    Applied.applied_add_skipped source 0 set.edits
  unfold Plan.applyFile
  split
  · exact hskipped _
  · rename_i current _
    dsimp only
    split_ifs with hchanged hnone
    · exact hskipped _
    · show 0 + _ = _
      rw [← hnone]
      exact happly current
    · split
      · exact happly current
      · exact hskipped _

/-- **Every accepted edit is accounted for**, as applied or as skipped. -/
theorem Plan.applied_add_skipped_applyFiles (files : List SourceFile) (fs : FileSystem)
    (sets : FileSets) :
    ((Plan.applyFiles files fs sets).2.map (·.applied)).sum +
      ((Plan.applyFiles files fs sets).2.flatMap (·.skipped)).length = sets.acceptedCount := by
  induction sets generalizing fs with
  | nil => rfl
  | cons x rest ih =>
    obtain ⟨path, set⟩ := x
    have hcons : FileSets.acceptedCount ((path, set) :: rest) =
        set.size + FileSets.acceptedCount rest := rfl
    rw [hcons, Plan.applyFiles]
    split_ifs with hempty
    · have hsize : set.size = 0 := List.length_eq_zero_iff.mpr (List.isEmpty_iff.mp hempty)
      rw [ih, hsize, Nat.zero_add]
    · have hfile := Plan.applied_add_skipped_applyFile files fs path set
      have hrest := ih (Plan.applyFile files fs path set).1
      simp only [List.map_cons, List.sum_cons, List.flatMap_cons, List.length_append]
      omega

namespace Plan

theorem foldl_applied (outcomes : List FileOutcome) (n : Nat) :
    outcomes.foldl (fun n o => n + o.applied) n = n + (outcomes.map (·.applied)).sum := by
  induction outcomes generalizing n with
  | nil => rfl
  | cons o rest ih => rw [List.foldl_cons, ih, List.map_cons, List.sum_cons, Nat.add_assoc]

/-- **The counters of a plan always balance.** For every plan that folds make of the empty one,
under whatever configurations: the proposed edits are the accepted and the rejected ones, and those
of the recorded passes; the accepted ones are the edits of all sets, and the rejected ones all their
conflicts; no set is empty, and as many files count as converted as there are different paths with
an edit in a report; matches and failures are those of the reports. Once the plan is applied, to
whatever files, every accepted edit counts as applied or as failed. -/
theorem counters_balance (runs : List (Config × PassReport)) (files : List SourceFile)
    (fs : FileSystem) :
    let plan := empty.foldAll runs
    let m := plan.metrics
    let applied := (plan.applyTo files fs).plan.metrics
    (m.editsProposed = m.editsAccepted + m.editsRejected ∧
      m.editsProposed = (plan.passes.map (·.editsProposed)).sum) ∧
    m.editsAccepted = plan.editCount ∧
    m.editsRejected = (plan.files.map (·.2.conflicts.length)).sum ∧
    ((∀ x ∈ plan.files, x.2.isEmpty = false) ∧
      m.filesConverted = (distinctPaths (runs.flatMap (·.2.edits))).length) ∧
    (m.matchesFound = (runs.map (·.2.matchCount)).sum ∧
      m.passFailures = (runs.map (·.2.failedFiles.length)).sum) ∧
    applied.editsApplied + applied.applyFailures = applied.editsAccepted := by
  intro plan m applied
  have h : plan.Balanced (runs.map Prod.snd) := (balanced_start 0).foldAll runs
  have hproposed : m.editsProposed = (plan.passes.map (·.editsProposed)).sum := by
    rw [h.recorded, h.counted.proposed, List.length_flatMap, List.map_map, List.map_map,
      List.map_map]
    rfl
  have hedits : plan.editCount = plan.files.acceptedCount := List.length_flatMap
  have happlied := applied_add_skipped_applyFiles files fs plan.files
  refine ⟨⟨h.counted.balance, hproposed⟩, h.counted.accepted.trans hedits.symm,
    h.counted.rejected, ⟨h.counted.nonempty, ?_⟩, ⟨?_, ?_⟩, ?_⟩
  · rw [h.converted, List.flatMap_map]
  · rw [h.found, List.map_map]
    rfl
  · rw [h.failures, List.map_map]
    rfl
  · show (List.foldl _ m.editsApplied _) + (m.applyFailures + _) = m.editsAccepted
    rw [foldl_applied, h.unapplied.1, h.unapplied.2, Nat.zero_add, Nat.zero_add, happlied]
    exact h.counted.accepted.symm

end Plan

end CudaToHip
