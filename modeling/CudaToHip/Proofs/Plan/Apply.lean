import CudaToHip.Proofs.Plan.Fold
import CudaToHip.Proofs.Staging
import CudaToHip.Proofs.Text.Boundary

/-!
# Applying a plan to scratch copies

A plan is applied to the copies that it was made from. Nobody has changed them since, so a copy that
has a set gets the edits of the set and every other copy stays as it is. The outcomes report a
skipped edit exactly if one of the sets could not be applied as a whole. Both are
`analysed_applyFiles`; its steps are `Analysed.applyFile` and `Analysed.passOver`.

The edits of a file depend on its text alone (`Analysed.edited_congr`).
-/

namespace CudaToHip

open FileSystem

variable {fs gs : FileSystem} {text : Loaded → String} {loaded : List Loaded} {l a : Loaded}
  {sets rest : FileSets} {set : ReplacementSet} {path : Path}

/-! ## Nothing applied -/

/-- If no edit is applied, the text stays as it is. -/
theorem Applied.text_sweep_of_applied {source : String} {cursor : Nat} {es : List Edit}
    (h : (sweep source cursor es).applied = 0) :
    (sweep source cursor es).text = Text.since source cursor := by
  induction es generalizing cursor with
  | nil => rfl
  | cons e es ih =>
    rw [sweep] at h ⊢
    split at h
    · exact ih h
    · exact absurd h (Nat.succ_ne_zero _)

theorem ReplacementSet.text_applyTo_of_applied {source : String}
    (h : (set.applyTo source).applied = 0) : (set.applyTo source).text = source :=
  (Applied.text_sweep_of_applied h).trans (Text.since_zero source)

theorem ReplacementSet.applyTo_of_isEmpty (h : set.isEmpty = true) (source : String) :
    set.applyTo source = ⟨source, 0, []⟩ := by
  unfold applyTo
  rw [List.isEmpty_iff.mp h, Applied.sweep, Text.since_zero]

/-! ## Texts under a plan -/

namespace FileSets

/-- The first path of a plan has no other set. -/
theorem get?_rest_of_same (h : Sorted ((path, set) :: rest)) {p : Path}
    (hsame : path.same p = true) : rest.get? p = none := by
  rw [← get?_congr hsame]
  exact get?_eq_none_of_lt (List.pairwise_cons.mp h).1

end FileSets

namespace Loaded

/-- The text of a copy to which the sets were applied, where it had the given text before. -/
def after (sets : FileSets) (text : Loaded → String) (l : Loaded) : String :=
  match sets.get? l.source.path with
  | some set => (set.applyTo l.source.text).text
  | none => text l

/-- The text of a loaded file with the edits that the sets have for it. -/
def edited (sets : FileSets) (l : Loaded) : String := after sets (·.source.text) l

/-- Every edit that the sets have for one of the files can be applied. -/
def Complete (sets : FileSets) (loaded : List Loaded) : Prop :=
  ∀ l ∈ loaded, ∀ set, sets.get? l.source.path = some set →
    (set.applyTo l.source.text).skipped = []

/-- The set of one file alone is for its copy. -/
theorem after_singleton (path : Path) (set : ReplacementSet) (text : Loaded → String) (l : Loaded) :
    after [(path, set)] text l =
      if path.same l.source.path then (set.applyTo l.source.text).text else text l := by
  unfold after
  rw [FileSets.get?_cons]
  cases path.same l.source.path <;> rfl

theorem after_cons (h : FileSets.Sorted ((path, set) :: rest)) (text : Loaded → String)
    (l : Loaded) : after rest (after [(path, set)] text) l = after ((path, set) :: rest) text l := by
  unfold after
  rw [FileSets.get?_cons]
  by_cases hsame : path.same l.source.path = true
  · rw [if_pos hsame, FileSets.get?_rest_of_same h hsame]
    dsimp only
    rw [FileSets.get?_cons, if_pos hsame]
  · rw [if_neg hsame, FileSets.get?_cons, if_neg hsame]
    rfl

/-- The copies that have a set still hold what was loaded. -/
def Unedited (sets : FileSets) (text : Loaded → String) (loaded : List Loaded) : Prop :=
  ∀ l ∈ loaded, (sets.get? l.source.path).isSome → text l = l.source.text

/-- Once the first set was applied, the copies of the other sets still hold what was loaded. -/
theorem Unedited.after (h : Unedited ((path, set) :: rest) text loaded)
    (hsorted : FileSets.Sorted ((path, set) :: rest)) :
    Unedited rest (after [(path, set)] text) loaded := by
  intro a ha hset
  have hother : path.same a.source.path ≠ true := by
    intro hsame
    rw [FileSets.get?_rest_of_same hsorted hsame] at hset
    cases hset
  rw [after_singleton, if_neg hother]
  refine h a ha ?_
  rw [FileSets.get?_cons, if_neg hother]
  exact hset

theorem complete_cons (h : FileSets.Sorted ((path, set) :: rest)) (hl : l ∈ loaded)
    (hpath : path.same l.source.path = true)
    (hsame : ∀ a ∈ loaded, path.same a.source.path = true → a = l) :
    Complete ((path, set) :: rest) loaded ↔
      (set.applyTo l.source.text).skipped = [] ∧ Complete rest loaded := by
  constructor
  · intro hcomplete
    refine ⟨hcomplete l hl set ?_, fun a ha other hother => hcomplete a ha other ?_⟩
    · rw [FileSets.get?_cons, if_pos hpath]
    · rw [FileSets.get?_cons, if_neg, hother]
      intro hpa
      rw [FileSets.get?_rest_of_same h hpa] at hother
      cases hother
  · rintro ⟨hfirst, hrest⟩ a ha other hother
    rw [FileSets.get?_cons] at hother
    split at hother
    · rename_i hpa
      obtain rfl := Option.some.inj hother
      obtain rfl := hsame a ha hpa
      exact hfirst
    · exact hrest a ha other hother

end Loaded

/-! ## Applying -/

namespace Plan

open Loaded

/-- The files as they were loaded, each under the path of its copy. -/
structure Analysed (fs gs : FileSystem) (text : Loaded → String) (loaded : List Loaded) : Prop where
  copies : Copies fs gs text loaded
  name : ∀ l ∈ loaded, l.source.path = l.staged.scratch

namespace Analysed

variable (h : Analysed fs gs text loaded)
include h

theorem eq_of_same (ha : a ∈ loaded) (hl : l ∈ loaded)
    (hsame : l.source.path.same a.source.path = true) : a = l := by
  rw [h.name a ha, h.name l hl] at hsame
  exact (h.copies.eq_of_same hl ha hsame).symm

/-- The text that was analysed under the path of a copy is that of its file. -/
theorem analysed?_eq (hl : l ∈ loaded) :
    analysed? (loaded.map (·.source)) l.source.path = some l.source.text := by
  unfold analysed?
  cases hfind : (loaded.map (·.source)).find? (·.path.same l.source.path) with
  | none => exact absurd (Path.same_self _) (List.find?_eq_none.mp hfind _ (List.mem_map_of_mem hl))
  | some f =>
    have hsame : f.path.same l.source.path = true :=
      List.find?_some (p := fun f : SourceFile => f.path.same l.source.path) hfind
    obtain ⟨a, ha, rfl⟩ := List.mem_map.mp (List.mem_of_find?_eq_some hfind)
    rw [h.eq_of_same ha hl (Path.same_comm _ _ ▸ hsame)]
    rfl

/-- The set of one file applied to its copy. -/
theorem applyFile (hl : l ∈ loaded) (htext : text l = l.source.text) (set : ReplacementSet) :
    Analysed fs (Plan.applyFile (loaded.map (·.source)) gs l.source.path set).1
        (after [(l.source.path, set)] text) loaded ∧
      (Plan.applyFile (loaded.map (·.source)) gs l.source.path set).2.skipped =
        (set.applyTo l.source.text).skipped := by
  have hafter : after [(l.source.path, set)] text l = (set.applyTo l.source.text).text := by
    rw [after_singleton, if_pos (Path.same_self _)]
  have hothers : ∀ a ∈ loaded, a ≠ l → after [(l.source.path, set)] text a = text a := by
    intro a ha hne
    rw [after_singleton, if_neg fun hsame => hne (h.eq_of_same ha hl hsame)]
  obtain ⟨place, hplace, hholds⟩ := h.copies.holdsAt hl
  have hread : gs.readText? l.source.path = .ok l.source.text := by
    rw [h.name l hl, readText?_eq hholds, htext, fromUTF8?_toUTF8]
  unfold Plan.applyFile
  rw [hread]
  dsimp only
  rw [if_neg (not_not_intro (h.analysed?_eq hl))]
  split
  · rename_i hnone
    refine ⟨⟨h.copies.congr_text fun a ha => ?_, h.name⟩, rfl⟩
    by_cases hal : a = l
    · rw [hal, hafter, htext, ReplacementSet.text_applyTo_of_applied hnone]
    · exact hothers a ha hal
  · have hwrite : gs.write l.source.path (set.applyTo l.source.text).text.toUTF8 =
        .ok (gs.put place (.file (set.applyTo l.source.text).text.toUTF8)) := by
      rw [h.name l hl]
      exact write_eq (h.copies.directories.fileResolve? hplace.resolve) hholds.notDirectory _
    rw [hwrite, ← hafter]
    exact ⟨⟨h.copies.put hplace hl hothers, h.name⟩, rfl⟩

/-- A set without edits changes nothing. -/
theorem passOver (hl : l ∈ loaded) (htext : text l = l.source.text) (hempty : set.isEmpty = true) :
    Analysed fs gs (after [(l.source.path, set)] text) loaded := by
  refine ⟨h.copies.congr_text fun a ha => ?_, h.name⟩
  rw [after_singleton]
  split
  · rename_i hsame
    rw [h.eq_of_same ha hl hsame, htext, ReplacementSet.applyTo_of_isEmpty hempty]
  · rfl

/-- A file is the only one with its path. -/
theorem filter_same (hl : l ∈ loaded) :
    (loaded.map (·.source)).filter (·.path.same l.source.path) = [l.source] := by
  have honly : ∀ a ∈ loaded, a.source.path.same l.source.path = (a == l) := by
    intro a ha
    rw [Bool.eq_iff_iff, beq_iff_eq]
    constructor
    · intro hsame
      exact h.eq_of_same ha hl (Path.same_comm _ _ ▸ hsame)
    · rintro rfl
      exact Path.same_self _
  rw [List.filter_map, Function.comp_def, List.filter_congr honly, List.filter_beq,
    h.copies.nodup.count, if_pos hl]
  rfl

/-- **The edits of a file are a matter of its text**, if scans are. -/
theorem edited_congr (c : Converter)
    (hscan : ∀ (f g : SourceFile) view, f.text = g.text →
      Converter.found (c.frontEnd.scan f view) = Converter.found (c.frontEnd.scan g view))
    (ha : a ∈ loaded) (hl : l ∈ loaded) (htext : a.source.text = l.source.text) :
    edited (c.plan (loaded.map (·.source))).files a =
      edited (c.plan (loaded.map (·.source))).files l := by
  have hdiscovered : c.discovered (loaded.map (·.source)) a.source.path =
      c.discovered (loaded.map (·.source)) l.source.path := by
    unfold Converter.discovered
    rw [h.filter_same ha, h.filter_same hl]
    simp only [List.flatMap_cons, List.flatMap_nil, hscan a.source l.source _ htext]
  unfold edited after
  rw [c.get?_plan, c.get?_plan, hdiscovered]
  dsimp only
  rw [htext]

end Analysed

/-- **Applying a plan to the copies** gives each copy the edits of its set, and the outcomes tell
whether all edits could be applied. -/
theorem analysed_applyFiles (h : Analysed fs gs text loaded) (hsorted : FileSets.Sorted sets)
    (hpaths : ∀ x ∈ sets, ∃ l ∈ loaded, x.1 = l.source.path)
    (htext : Unedited sets text loaded) :
    Analysed fs (applyFiles (loaded.map (·.source)) gs sets).1 (after sets text) loaded ∧
      ((applyFiles (loaded.map (·.source)) gs sets).2.all (·.skipped.isEmpty) = true ↔
        Complete sets loaded) := by
  induction sets generalizing gs text with
  | nil => exact ⟨h, by simp [applyFiles, Complete, FileSets.get?]⟩
  | cons x rest ih =>
    obtain ⟨path, set⟩ := x
    obtain ⟨l, hl, hpath⟩ := hpaths _ List.mem_cons_self
    obtain rfl : path = l.source.path := hpath
    have hsome : FileSets.get? ((l.source.path, set) :: rest) l.source.path = some set := by
      rw [FileSets.get?_cons, if_pos (Path.same_self _)]
    have hl' : text l = l.source.text := htext l hl (Option.isSome_of_eq_some hsome)
    have hcomplete := complete_cons hsorted hl (Path.same_self _) fun a ha hsame => h.eq_of_same ha hl hsame
    -- the first file gets its edits, the others are left to the rest of the sets
    have hrest {gs : FileSystem}
        (hfirst : Analysed fs gs (after [(l.source.path, set)] text) loaded) :=
      ih hfirst (List.pairwise_cons.mp hsorted).2
        (fun y hy => hpaths y (List.mem_cons_of_mem _ hy)) (htext.after hsorted)
    have hcons : after rest (after [(l.source.path, set)] text) =
        after ((l.source.path, set) :: rest) text := funext (after_cons hsorted text)
    rw [hcomplete, ← hcons]
    unfold applyFiles
    split
    · rename_i hempty
      obtain ⟨hfiles, hskipped⟩ := hrest (h.passOver hl hl' hempty)
      refine ⟨hfiles, hskipped.trans ?_⟩
      rw [ReplacementSet.applyTo_of_isEmpty hempty]
      exact (and_iff_right rfl).symm
    · obtain ⟨hfirst, hfirstSkipped⟩ := h.applyFile hl hl' set
      obtain ⟨hfiles, hskipped⟩ := hrest hfirst
      refine ⟨hfiles, ?_⟩
      dsimp only
      rw [List.all_cons, Bool.and_eq_true, hfirstSkipped, List.isEmpty_iff, hskipped]

end Plan

end CudaToHip
