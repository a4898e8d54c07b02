import CudaToHip.Plan.Basic
import CudaToHip.Proofs.Path
import CudaToHip.Proofs.Replacement.Accepted

/-!
# The sets of a plan

A plan keeps one replacement set for each path that was proposed to. A proposal opens a set or goes
to one (`Proposed`); what the sets keep is read off these two cases. Proposals for one path do not
touch the set of another (`get?_propose`), so what a fold makes of a path depends on the proposals
for that path alone, in their order (`get?_proposeAll`).

* `get?_plan`: the set of a path in the plan of a batch is the run of the edits discovered for it
  (`Converter.discovered`), and there is none if nothing was discovered.
-/

namespace CudaToHip

namespace FileSets

variable {sets : FileSets} {p q : Path} {policy : ConflictPolicy}

/-- In strictly increasing order of the paths. -/
def Sorted (sets : FileSets) : Prop := sets.Pairwise fun a b => compare a.1 b.1 = .lt

theorem get?_cons (x : Path × ReplacementSet) (rest : FileSets) (p : Path) :
    get? (x :: rest) p = if x.1.same p then some x.2 else get? rest p := by
  unfold get?
  rw [List.find?_cons]
  cases x.1.same p <;> rfl

theorem get?_append (l r : FileSets) (p : Path) : get? (l ++ r) p = (l.get? p).or (r.get? p) := by
  unfold get?
  rw [List.find?_append]
  cases l.find? (·.1.same p) <;> rfl

theorem get?_congr (h : p.same q = true) : sets.get? p = sets.get? q := by
  unfold get?
  simp only [Path.same, Path.same_iff.mp h]

/-- No entry is for another path than its own. -/
theorem get?_eq_none (h : ∀ x ∈ sets, x.1.same p = false) : sets.get? p = none := by
  unfold get?
  rw [Option.map_eq_none_iff, List.find?_eq_none]
  intro x hx
  rw [h x hx]
  exact Bool.false_ne_true

/-- Behind a path there is no entry for a path that comes before it. -/
theorem get?_eq_none_of_lt (h : ∀ x ∈ sets, compare p x.1 = .lt) : sets.get? p = none :=
  get?_eq_none fun x hx => Path.same_comm p x.1 ▸ Path.same_eq_false_of_lt (h x hx)

/-- In front of a path there is no entry for it. -/
theorem get?_eq_none_of_gt (h : ∀ x ∈ sets, compare p x.1 = .gt) : sets.get? p = none :=
  get?_eq_none fun x hx => Path.same_eq_false_of_lt (Std.OrientedCmp.gt_iff_lt.mp (h x hx))

/-! ## One proposal -/

/-- What a proposal makes of the sets: it opens a set for its path, at the place of the path, or it
goes to the set of its path. -/
inductive Proposed (policy : ConflictPolicy) (p : Path) (e : Edit) (sets : FileSets) :
    FileSets → Prop
  | opened {l r : FileSets} (hsets : sets = l ++ r) (hl : ∀ x ∈ l, compare p x.1 = .gt)
    (hr : ∀ x ∈ r.head?, compare p x.1 = .lt) :
    Proposed policy p e sets (l ++ (p, (ReplacementSet.empty policy).propose e) :: r)
  | extended {l r : FileSets} {q : Path} {s : ReplacementSet} (hsets : sets = l ++ (q, s) :: r)
    (hl : ∀ x ∈ l, compare p x.1 = .gt) (hq : q.same p = true) :
    Proposed policy p e sets (l ++ (q, s.propose e) :: r)

theorem proposed (policy : ConflictPolicy) (p : Path) (e : Edit) (sets : FileSets) :
    Proposed policy p e sets (propose policy p e sets) := by
  have hnil : ∀ x ∈ ([] : FileSets), compare p x.1 = .gt := fun _ h => nomatch h
  induction sets with
  | nil => exact .opened rfl hnil fun _ h => nomatch h
  | cons y rest ih =>
    simp only [propose]
    split
    · rename_i hlt
      refine .opened (l := []) rfl hnil fun x hx => ?_
      obtain rfl := Option.some.inj hx
      exact hlt
    · rename_i heq
      exact .extended (l := []) rfl hnil (Path.same_comm p y.1 ▸ Path.compare_eq_iff_same.mp heq)
    · rename_i hgt
      have hfront {l : FileSets} (hl : ∀ x ∈ l, compare p x.1 = .gt) :
          ∀ x ∈ y :: l, compare p x.1 = .gt := List.forall_mem_cons.mpr ⟨hgt, hl⟩
      generalize propose policy p e rest = rest' at ih
      cases ih with
      | opened hsets hl hr => exact .opened (congrArg (y :: ·) hsets) (hfront hl) hr
      | extended hsets hl hq => exact .extended (congrArg (y :: ·) hsets) (hfront hl) hq

/-- In order, a path that comes before the first comes before all. -/
theorem Sorted.lt_of_head? (h : Sorted sets) (hp : ∀ x ∈ sets.head?, compare p x.1 = .lt) :
    ∀ x ∈ sets, compare p x.1 = .lt := by
  cases sets with
  | nil => exact fun _ h => nomatch h
  | cons y rest =>
    have hy := hp y rfl
    exact List.forall_mem_cons.mpr
      ⟨hy, fun x hx => Std.TransCmp.lt_trans hy ((List.pairwise_cons.mp h).1 x hx)⟩

/-- Between the paths in front of a path and those behind it there is no entry for it. -/
theorem get?_append_eq_none {l r : FileSets} (h : Sorted (l ++ r))
    (hl : ∀ x ∈ l, compare p x.1 = .gt) (hr : ∀ x ∈ r.head?, compare p x.1 = .lt) :
    get? (l ++ r) p = none := by
  have hlt := Sorted.lt_of_head? (List.pairwise_append.mp h).2.1 hr
  rw [get?_append, get?_eq_none_of_gt hl, get?_eq_none_of_lt hlt]
  rfl

theorem get?_append_cons {l : FileSets} (hl : ∀ x ∈ l, compare p x.1 = .gt) (hq : q.same p = true)
    (s : ReplacementSet) (r : FileSets) : get? (l ++ (q, s) :: r) p = some s := by
  rw [get?_append, get?_eq_none_of_gt hl, get?_cons, if_pos hq]
  rfl

theorem sorted_iff_map_fst : Sorted sets ↔ (sets.map Prod.fst).Pairwise (compare · · = .lt) := by
  rw [List.pairwise_map]
  exact Iff.rfl

namespace Proposed

variable {e : Edit} {sets' : FileSets}

theorem exists_of_mem (h : Proposed policy p e sets sets') {x : Path × ReplacementSet}
    (hx : x ∈ sets') : x.1 = p ∨ ∃ y ∈ sets, x.1 = y.1 := by
  cases h with
  | @opened l r hsets =>
    subst hsets
    rcases List.mem_append.mp hx with hx | hx
    · exact Or.inr ⟨x, List.mem_append_left r hx, rfl⟩
    · rcases List.mem_cons.mp hx with rfl | hx
      · exact Or.inl rfl
      · exact Or.inr ⟨x, List.mem_append_right l hx, rfl⟩
  | @extended l r q s hsets =>
    subst hsets
    rcases List.mem_append.mp hx with hx | hx
    · exact Or.inr ⟨x, List.mem_append_left _ hx, rfl⟩
    · rcases List.mem_cons.mp hx with rfl | hx
      · exact Or.inr ⟨(q, s), List.mem_append_right l List.mem_cons_self, rfl⟩
      · exact Or.inr ⟨x, List.mem_append_right l (List.mem_cons_of_mem _ hx), rfl⟩

/-- What holds of every set after a proposal: all that a proposal to an empty set gives and a
proposal keeps. -/
theorem forall_sets {P : ReplacementSet → Prop} (h : Proposed policy p e sets sets')
    (hopened : P ((ReplacementSet.empty policy).propose e)) (hstep : ∀ s, P s → P (s.propose e))
    (hsets : ∀ x ∈ sets, P x.2) : ∀ x ∈ sets', P x.2 := by
  cases h with
  | opened hsplit =>
    subst hsplit
    obtain ⟨hl, hr⟩ := List.forall_mem_append.mp hsets
    exact List.forall_mem_append.mpr ⟨hl, List.forall_mem_cons.mpr ⟨hopened, hr⟩⟩
  | extended hsplit =>
    subst hsplit
    obtain ⟨hl, hr⟩ := List.forall_mem_append.mp hsets
    obtain ⟨hs, hr⟩ := List.forall_mem_cons.mp hr
    exact List.forall_mem_append.mpr ⟨hl, List.forall_mem_cons.mpr ⟨hstep _ hs, hr⟩⟩

theorem sorted (h : Proposed policy p e sets sets') (hs : Sorted sets) : Sorted sets' := by
  cases h with
  | opened hsets hl hr =>
    rw [hsets] at hs
    obtain ⟨hsl, hsr, hlr⟩ := List.pairwise_append.mp hs
    refine List.pairwise_append.mpr
      ⟨hsl, List.pairwise_cons.mpr ⟨Sorted.lt_of_head? hsr hr, hsr⟩, fun a ha b hb => ?_⟩
    rcases List.mem_cons.mp hb with rfl | hb
    · exact Std.OrientedCmp.gt_iff_lt.mp (hl a ha)
    · exact hlr a ha b hb
  | extended hsets =>
    rw [sorted_iff_map_fst] at hs ⊢
    rw [hsets, List.map_append, List.map_cons] at hs
    rw [List.map_append, List.map_cons]
    exact hs

/-- The set that the proposal goes to: the one of its path, or an empty one. -/
theorem get?_self (h : Proposed policy p e sets sets') (hs : Sorted sets) :
    sets'.get? p = some (((sets.get? p).getD (.empty policy)).propose e) := by
  cases h with
  | opened hsets hl hr =>
    rw [hsets] at hs ⊢
    rw [get?_append_cons hl (Path.same_self p), get?_append_eq_none hs hl hr]
    rfl
  | extended hsets hl hq =>
    rw [hsets, get?_append_cons hl hq, get?_append_cons hl hq]
    rfl

theorem get?_other (h : Proposed policy p e sets sets') (hq : p.same q = false) :
    sets'.get? q = sets.get? q := by
  cases h with
  | opened hsets =>
    rw [hsets, get?_append, get?_append, get?_cons, if_neg (by simp [hq])]
  | @extended l r q' s hsets hl hq' =>
    have hother : q'.same q = false := by
      rw [← hq, Bool.eq_iff_iff, Path.same_iff, Path.same_iff, Path.same_iff.mp hq']
    rw [hsets, get?_append, get?_append, get?_cons, get?_cons, if_neg (by simp [hother]),
      if_neg (by simp [hother])]

end Proposed

theorem mem_propose {e : Edit} {x : Path × ReplacementSet} (h : x ∈ propose policy p e sets) :
    x.1 = p ∨ ∃ y ∈ sets, x.1 = y.1 :=
  (proposed policy p e sets).exists_of_mem h

theorem sorted_propose (h : Sorted sets) (e : Edit) : Sorted (propose policy p e sets) :=
  (proposed policy p e sets).sorted h

/-- **A proposal for a path goes to its set**, an empty one if it has none, and leaves the sets of
all other paths alone. -/
theorem get?_propose (h : Sorted sets) (e : Edit) :
    (propose policy p e sets).get? q =
      if p.same q then some (((sets.get? p).getD (.empty policy)).propose e)
      else sets.get? q := by
  split_ifs with hpq
  · rw [← get?_congr hpq]
    exact (proposed policy p e sets).get?_self h
  · exact (proposed policy p e sets).get?_other (Bool.eq_false_iff.mpr hpq)

/-! ## Runs of proposals -/

/-- The sets after all proposals in turn. -/
def proposeAll (policy : ConflictPolicy) (sets : FileSets) (proposals : List (Path × Edit)) :
    FileSets :=
  proposals.foldl (fun sets x => propose policy x.1 x.2 sets) sets

/-- The edits proposed for a path, in their order. -/
def proposalsFor (proposals : List (Path × Edit)) (p : Path) : List Edit :=
  (proposals.filter (·.1.same p)).map Prod.snd

theorem sorted_proposeAll (h : Sorted sets) (proposals : List (Path × Edit)) :
    Sorted (proposeAll policy sets proposals) := by
  induction proposals generalizing sets with
  | nil => exact h
  | cons x rest ih => exact ih (sorted_propose h x.2)

/-- The edits of every set stay sorted. -/
theorem sorted_edits_proposeAll (h : ∀ x ∈ sets, ReplacementSet.Sorted x.2.edits)
    (proposals : List (Path × Edit)) :
    ∀ x ∈ proposeAll policy sets proposals, ReplacementSet.Sorted x.2.edits := by
  induction proposals generalizing sets with
  | nil => exact h
  | cons y rest ih =>
    exact ih ((proposed policy y.1 y.2 sets).forall_sets
      (P := fun s => ReplacementSet.Sorted s.edits) (ReplacementSet.sorted_of_run policy [y.2])
      (fun _ hs => ReplacementSet.sorted_propose hs y.2) h)

/-- A run of proposals makes sets for the paths proposed to, in one of the spellings proposed. -/
theorem mem_proposeAll {proposals : List (Path × Edit)} {x : Path × ReplacementSet}
    (h : x ∈ proposeAll policy sets proposals) :
    (∃ y ∈ proposals, x.1 = y.1) ∨ ∃ y ∈ sets, x.1 = y.1 := by
  induction proposals generalizing sets with
  | nil => exact Or.inr ⟨x, h, rfl⟩
  | cons y rest ih =>
    rcases ih h with ⟨z, hz, hxz⟩ | ⟨z, hz, hxz⟩
    · exact Or.inl ⟨z, List.mem_cons_of_mem y hz, hxz⟩
    · rcases mem_propose hz with hzy | ⟨w, hw, hzw⟩
      · exact Or.inl ⟨y, List.mem_cons_self, hxz.trans hzy⟩
      · exact Or.inr ⟨w, hw, hxz.trans hzw⟩

/-- **What a run of proposals makes of a path depends on the proposals for it alone.** -/
theorem get?_proposeAll (h : Sorted sets) (proposals : List (Path × Edit)) (p : Path) :
    (proposeAll policy sets proposals).get? p =
      if proposalsFor proposals p = [] then sets.get? p
      else some (((sets.get? p).getD (.empty policy)).proposeAll (proposalsFor proposals p)) := by
  induction proposals generalizing sets with
  | nil => rfl
  | cons x rest ih =>
    have hget := @get?_propose sets x.1 p policy h x.2
    show (proposeAll policy (propose policy x.1 x.2 sets) rest).get? p = _
    rw [ih (sorted_propose h x.2), hget]
    by_cases hxp : x.1.same p = true
    · have hcons : proposalsFor (x :: rest) p = x.2 :: proposalsFor rest p := by
        unfold proposalsFor
        rw [List.filter_cons, if_pos hxp, List.map_cons]
      rw [hcons, if_neg (List.cons_ne_nil _ _), get?_congr hxp, if_pos hxp, Option.getD_some]
      split_ifs with hrest
      · rw [hrest]
        rfl
      · rfl
    · have hcons : proposalsFor (x :: rest) p = proposalsFor rest p := by
        unfold proposalsFor
        rw [List.filter_cons, if_neg hxp]
      rw [hcons, if_neg hxp]

end FileSets

/-! ## The sets of a plan -/

namespace Plan

/-- What a proposal leaves as it is: the passes, and the counters of other things. -/
structure SameFrame (plan other : Plan) : Prop where
  passes : other.passes = plan.passes
  found : other.metrics.matchesFound = plan.metrics.matchesFound
  failures : other.metrics.passFailures = plan.metrics.passFailures
  applied : other.metrics.editsApplied = plan.metrics.editsApplied
  applyFailures : other.metrics.applyFailures = plan.metrics.applyFailures

theorem sameFrame_propose (config : Config) (plan : Plan) (proposal : Path × Edit) :
    SameFrame plan (plan.propose config proposal) := by
  unfold propose
  dsimp only
  split <;> exact ⟨rfl, rfl, rfl, rfl, rfl⟩

theorem sameFrame_foldl_propose (config : Config) (plan : Plan)
    (proposals : List (Path × Edit)) :
    SameFrame plan (proposals.foldl (propose config) plan) := by
  induction proposals generalizing plan with
  | nil => exact ⟨rfl, rfl, rfl, rfl, rfl⟩
  | cons x rest ih =>
    have hx := sameFrame_propose config plan x
    have hrest := ih (plan.propose config x)
    exact ⟨hrest.passes.trans hx.passes, hrest.found.trans hx.found,
      hrest.failures.trans hx.failures, hrest.applied.trans hx.applied,
      hrest.applyFailures.trans hx.applyFailures⟩

theorem files_foldl_propose (config : Config) (plan : Plan) (proposals : List (Path × Edit)) :
    (proposals.foldl (propose config) plan).files =
      plan.files.proposeAll config.conflictPolicy proposals := by
  induction proposals generalizing plan with
  | nil => rfl
  | cons x rest ih => exact ih (plan.propose config x)

theorem files_fold (config : Config) (plan : Plan) (report : PassReport) :
    (plan.fold config report).files =
      plan.files.proposeAll config.conflictPolicy report.edits :=
  files_foldl_propose config _ report.edits

end Plan

namespace Converter

variable (c : Converter)

/-- The edits discovered for a path, in order: view by view, file by file, match by match, and for
each match in the order of its rule. -/
def discovered (files : List SourceFile) (p : Path) : List Edit :=
  View.passOrder.flatMap fun view =>
    (files.filter (·.path.same p)).flatMap fun f =>
      (found (c.frontEnd.scan f view)).flatMap c.rules.editsFor

/-- Of what all files give, each item under the path of its file, a path gets what its files give. -/
theorem map_snd_filter_flatMap {α : Type} (files : List SourceFile) (give : SourceFile → List α)
    (p : Path) :
    ((files.flatMap fun f => (give f).map (f.path, ·)).filter (·.1.same p)).map Prod.snd =
      (files.filter (·.path.same p)).flatMap give := by
  induction files with
  | nil => rfl
  | cons f rest ih =>
    rw [List.flatMap_cons, List.filter_append, List.map_append, ih]
    by_cases hf : f.path.same p = true
    · rw [List.filter_cons, if_pos hf, List.flatMap_cons,
        List.filter_eq_self.mpr (by simp [hf]), List.map_map]
      exact congrArg (· ++ _) (List.map_id _)
    · rw [List.filter_cons, if_neg hf, List.filter_eq_nil_iff.mpr (by simp [hf])]
      rfl

theorem proposalsFor_runPass (files : List SourceFile) (view : View) (p : Path) :
    FileSets.proposalsFor (c.runPass files view).edits p =
      (files.filter (·.path.same p)).flatMap fun f =>
        (found (c.frontEnd.scan f view)).flatMap c.rules.editsFor := by
  have hedits : (c.runPass files view).edits = files.flatMap fun f =>
      (c.rules.editsForAll (found (c.frontEnd.scan f view))).map (f.path, ·) := List.flatMap_map ..
  rw [FileSets.proposalsFor, hedits, map_snd_filter_flatMap]
  simp only [Rules.editsForAll_eq_flatMap]

theorem files_runPasses (files : List SourceFile) (views : List View) (plan : Plan) :
    (c.runPasses files views plan).files =
      plan.files.proposeAll c.config.conflictPolicy
        (views.flatMap fun view => (c.runPass files view).edits) := by
  induction views generalizing plan with
  | nil => rfl
  | cons view rest ih =>
    show (c.runPasses files rest (plan.fold c.config (c.runPass files view))).files = _
    rw [ih, Plan.files_fold, List.flatMap_cons]
    exact List.foldl_append.symm

theorem files_plan (files : List SourceFile) : (c.plan files).files =
    FileSets.proposeAll c.config.conflictPolicy []
      (View.passOrder.flatMap fun view => (c.runPass files view).edits) :=
  c.files_runPasses files View.passOrder _

/-- The sets of a plan are in the order of their paths. -/
theorem sorted_plan (files : List SourceFile) : FileSets.Sorted (c.plan files).files := by
  rw [files_plan]
  exact FileSets.sorted_proposeAll .nil _

/-- A plan has sets for its files alone, under their paths as spelled. -/
theorem exists_of_mem_plan {files : List SourceFile} {x : Path × ReplacementSet}
    (h : x ∈ (c.plan files).files) : ∃ f ∈ files, x.1 = f.path := by
  rw [files_plan] at h
  rcases FileSets.mem_proposeAll h with ⟨y, hy, hxy⟩ | ⟨y, hy, -⟩
  · obtain ⟨view, -, hy⟩ := List.mem_flatMap.mp hy
    obtain ⟨⟨path, scan⟩, hscan, hy⟩ := List.mem_flatMap.mp hy
    obtain ⟨f, hf, hfscan⟩ := List.mem_map.mp hscan
    obtain ⟨rfl, -⟩ := Prod.mk.inj hfscan
    obtain ⟨e, -, rfl⟩ := List.mem_map.mp hy
    exact ⟨f, hf, hxy⟩
  · cases hy

/-- **The set of a path in a plan** is the run of the edits discovered for it; there is none if
nothing was discovered. -/
theorem get?_plan (files : List SourceFile) (p : Path) :
    (c.plan files).files.get? p =
      if c.discovered files p = [] then none
      else some ((ReplacementSet.empty c.config.conflictPolicy).proposeAll (c.discovered files p)) := by
  have hfor : FileSets.proposalsFor
      (View.passOrder.flatMap fun view => (c.runPass files view).edits) p =
      c.discovered files p := by
    simp only [View.passOrder, discovered, List.flatMap_cons, List.flatMap_nil, List.append_nil,
      ← proposalsFor_runPass, FileSets.proposalsFor, List.filter_append, List.map_append]
  have hget := @FileSets.get?_proposeAll [] c.config.conflictPolicy List.Pairwise.nil
    (View.passOrder.flatMap fun view => (c.runPass files view).edits) p
  rw [files_plan]
  rw [hfor] at hget
  exact hget

end Converter

end CudaToHip
