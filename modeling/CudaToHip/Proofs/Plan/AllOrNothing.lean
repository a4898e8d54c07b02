import CudaToHip.Proofs.FileSystem
import CudaToHip.Proofs.Plan.Apply
import Mathlib.Data.List.Forall2

/-!
# A plan is applied file by file, and each file as a whole

A file of a plan is edited only if it still holds the text that was analysed under its path, and
then it ends up with what the set of its edits makes of this text. Everything that can happen to one
file is in `Settled`; `settled_applyFile` says it of one step and `settled_applyFiles` of a run over
sets for different files, where no step touches what another one reads.

* `apply_all_or_nothing`: what a run changes, what its outcomes say, and that a second run changes
  nothing.
-/

namespace CudaToHip.Plan

open FileSystem

variable {files : List SourceFile} {fs gs hs : FileSystem} {path : Path} {place : Place}
  {set : ReplacementSet} {sets : FileSets} {o : FileOutcome}

/-! ## What happens to one file -/

/-- What can happen to the file of a path and is told by an outcome. -/
inductive Settled (files : List SourceFile) (fs gs : FileSystem) (path : Path)
    (set : ReplacementSet) : FileOutcome → Prop
  /-- The file cannot be read: it stays, and every edit is skipped for this reason. -/
  | unreadable (e : FileError) (hread : fs.readText? path = .error e) (hsame : SameAt fs gs path) :
    Settled files fs gs path set (.allSkipped path set (.unreadable (.file path e)))
  /-- The file does not hold the text that was analysed: it stays, and every edit is skipped for
  this reason. -/
  | changed (text : String) (hread : fs.readText? path = .ok text)
    (hanalysed : analysed? files path ≠ some text) (hsame : SameAt fs gs path) :
    Settled files fs gs path set (.allSkipped path set .sourceChanged)
  /-- The file holds the text that was analysed, but no edit can be applied to it. -/
  | kept (text : String) (hread : fs.readText? path = .ok text)
    (hanalysed : analysed? files path = some text) (hnone : (set.applyTo text).applied = 0)
    (hsame : SameAt fs gs path) :
    Settled files fs gs path set ⟨path, 0, (set.applyTo text).skipped, false⟩
  /-- The file held the text that was analysed and holds the edited one now. -/
  | written (text : String) (place : Place) (hbefore : fs.HoldsAt path place text.toUTF8)
    (hanalysed : analysed? files path = some text) (hsome : (set.applyTo text).applied ≠ 0)
    (hafter : gs.HoldsAt path place (set.applyTo text).text.toUTF8) :
    Settled files fs gs path set
      ⟨path, (set.applyTo text).applied, (set.applyTo text).skipped, true⟩

namespace Settled

variable (h : Settled files fs gs path set o)
include h

theorem path_eq : o.path = path := by
  cases h <;> rfl

/-- Every edit is counted once, as applied or as skipped. -/
theorem applied_add_skipped : o.applied + o.skipped.length = set.size := by
  cases h with
  | unreadable | changed => simp [FileOutcome.allSkipped, ReplacementSet.size]
  | kept text _ _ hnone _ =>
    rw [← hnone]
    exact Applied.applied_add_skipped text 0 set.edits
  | written text => exact Applied.applied_add_skipped text 0 set.edits

/-- Before and after may be exchanged for file systems where the path leads to the same. -/
theorem congr {fs' gs' : FileSystem} (hbefore : SameAt fs' fs path) (hafter : SameAt gs gs' path) :
    Settled files fs' gs' path set o := by
  have hread := hbefore.readText?
  cases h with
  | unreadable e he hsame =>
    exact .unreadable e (hread.trans he) ((hbefore.trans hsame).trans hafter)
  | changed text htext hanalysed hsame =>
    exact .changed text (hread.trans htext) hanalysed ((hbefore.trans hsame).trans hafter)
  | kept text htext hanalysed hnone hsame =>
    exact .kept text (hread.trans htext) hanalysed hnone ((hbefore.trans hsame).trans hafter)
  | written text place hb hanalysed hsome ha =>
    exact .written text place (hbefore.symm.holdsAt hb) hanalysed hsome (hafter.holdsAt ha)

/-- Only a file that is written changes. -/
theorem written_of_get?_ne (hplace : fs.resolve? path = .ok place)
    (hne : gs.get? place ≠ fs.get? place) :
    o.written = true ∧ ∃ text, analysed? files path = some text ∧
      fs.HoldsAt path place text.toUTF8 ∧
      gs.HoldsAt path place (set.applyTo text).text.toUTF8 := by
  cases h with
  | unreadable _ _ hsame | changed _ _ _ hsame | kept _ _ _ _ hsame =>
    exact absurd (hsame.get place hplace).symm hne
  | written text other hbefore hanalysed hsome hafter =>
    obtain rfl : place = other := Except.ok.inj (hplace.symm.trans hbefore.resolve)
    exact ⟨rfl, text, hanalysed, hbefore, hafter⟩

/-- What is read afterwards, if it is what was analysed, stays under the edits. -/
theorem text_applyTo {text : String} (hread : gs.readText? path = .ok text)
    (hanalysed : analysed? files path = some text) : (set.applyTo text).text = text := by
  cases h with
  | unreadable e he hsame =>
    rw [← hsame.readText?, he] at hread
    cases hread
  | changed old hold hother hsame =>
    rw [← hsame.readText?, hold] at hread
    obtain rfl : old = text := Except.ok.inj hread
    exact absurd hanalysed hother
  | kept old hold _ hnone hsame =>
    rw [← hsame.readText?, hold] at hread
    obtain rfl : old = text := Except.ok.inj hread
    exact ReplacementSet.text_applyTo_of_applied hnone
  | written old place _ hold _ hafter =>
    rw [readText?_eq hafter, fromUTF8?_toUTF8] at hread
    obtain rfl : old = text := Option.some.inj (hold.symm.trans hanalysed)
    exact Except.ok.inj hread

end Settled

/-- How the file system changes as one file is settled: not at all, or at the place that the path
leads to, where a file takes the place of a file. -/
structure TouchesOnly (fs gs : FileSystem) (path : Path) : Prop where
  shape : SameShape fs gs
  get : ∀ place, fs.resolve? path ≠ .ok place → gs.get? place = fs.get? place

/-- **One file is settled, and no other file is touched.** -/
theorem settled_applyFile (files : List SourceFile) (fs : FileSystem) (path : Path)
    (set : ReplacementSet) :
    Settled files fs (applyFile files fs path set).1 path set (applyFile files fs path set).2 ∧
      TouchesOnly fs (applyFile files fs path set).1 path := by
  have hstay : SameAt fs fs path := ⟨rfl, fun _ _ => rfl⟩
  have htouch : TouchesOnly fs fs path := ⟨.refl fs, fun _ _ => rfl⟩
  unfold applyFile
  cases hread : fs.readText? path with
  | error e => exact ⟨.unreadable e hread hstay, htouch⟩
  | ok text =>
    dsimp only
    split_ifs with hanalysed hnone
    · exact ⟨.changed text hread hanalysed hstay, htouch⟩
    · exact ⟨.kept text hread (not_not.mp hanalysed) hnone hstay, htouch⟩
    · obtain ⟨place, hholds⟩ := exists_of_readText? hread
      have hshape := hholds.sameShape_put (set.applyTo text).text.toUTF8
      rw [write_eq hholds.fileResolve? hholds.notDirectory]
      refine ⟨.written text place hholds (not_not.mp hanalysed) hnone ⟨?_, ?_, ?_⟩, hshape, ?_⟩
      · rw [← hshape.resolve?, hholds.resolve]
      · rw [← hshape.isDirectory, hholds.notDirectory]
      · rw [get?_put, if_pos rfl]
      · intro other hother
        rw [get?_put, if_neg]
        rintro rfl
        exact hother hholds.resolve

/-! ## A run over sets for different files -/

/-- The two paths do not lead to one place. -/
def LeadApart (fs : FileSystem) (p q : Path) : Prop :=
  ∀ place, fs.resolve? p = .ok place → fs.resolve? q ≠ .ok place

instance (fs : FileSystem) (p q : Path) : Decidable (LeadApart fs p q) :=
  match h : fs.resolve? p with
  | .error _ => .isTrue fun _ hplace => nomatch h.symm.trans hplace
  | .ok place =>
    if hq : fs.resolve? q = .ok place then .isFalse fun hapart => hapart place h hq
    else .isTrue fun _ hother hq' => hq (Except.ok.inj (h.symm.trans hother) ▸ hq')

/-- No two of the sets are for one file. -/
def DistinctFiles (fs : FileSystem) (sets : FileSets) : Prop :=
  sets.Pairwise fun x y => LeadApart fs x.1 y.1

instance (fs : FileSystem) (sets : FileSets) : Decidable (DistinctFiles fs sets) :=
  inferInstanceAs (Decidable (List.Pairwise _ sets))

/-- The sets that have edits. -/
def withEdits (sets : FileSets) : FileSets := sets.filter fun x => !x.2.isEmpty

/-- **A run settles the files of the sets in turn**, each as if it were the only one, and changes
nothing but these files. -/
theorem settled_applyFiles (hdistinct : DistinctFiles fs sets) :
    List.Forall₂ (fun x o => Settled files fs (applyFiles files fs sets).1 x.1 x.2 o)
      (withEdits sets) (applyFiles files fs sets).2 ∧
    SameShape fs (applyFiles files fs sets).1 ∧
    ∀ place, (∀ x ∈ withEdits sets, fs.resolve? x.1 ≠ .ok place) →
      (applyFiles files fs sets).1.get? place = fs.get? place := by
  induction sets generalizing fs with
  | nil => exact ⟨.nil, .refl fs, fun _ _ => rfl⟩
  | cons x rest ih =>
    obtain ⟨path, set⟩ := x
    obtain ⟨hfirst, hrest⟩ := List.pairwise_cons.mp hdistinct
    unfold applyFiles withEdits
    by_cases hempty : set.isEmpty = true
    · rw [if_pos hempty, List.filter_cons_of_neg (by simp [hempty])]
      exact ih hrest
    · rw [if_neg hempty, List.filter_cons_of_pos (by simpa using hempty)]
      obtain ⟨hsettled, htouch⟩ := settled_applyFile files fs path set
      have hresolve := htouch.shape.resolve?
      have hdistinct' : DistinctFiles (applyFile files fs path set).1 rest :=
        hrest.imp fun hxy place => hresolve _ ▸ hresolve _ ▸ hxy place
      obtain ⟨hall, hshape, hget⟩ := ih hdistinct'
      -- the rest does not touch the first file,
      have hkept : SameAt (applyFile files fs path set).1
          (applyFiles files (applyFile files fs path set).1 rest).1 path := by
        refine ⟨hshape.resolve? path, fun place hplace => (hget place fun y hy => ?_).symm⟩
        rw [← hresolve] at hplace ⊢
        exact hfirst y (List.mem_of_mem_filter hy) place hplace
      -- nor the first step a file of the rest
      have hfresh : ∀ y ∈ withEdits rest, SameAt fs (applyFile files fs path set).1 y.1 := by
        refine fun y hy => ⟨hresolve y.1, fun place hplace => (htouch.get place fun h => ?_).symm⟩
        exact hfirst y (List.mem_of_mem_filter hy) place h hplace
      refine ⟨.cons (hsettled.congr (.refl fs path) hkept) ?_, htouch.shape.trans hshape,
        fun place hplace => ?_⟩
      · exact ((List.forall₂_and_left _ _).mpr ⟨hfresh, hall⟩).imp fun y o h =>
          h.2.congr h.1 (.refl _ y.1)
      · have hrest' : ∀ y ∈ withEdits rest,
            (applyFile files fs path set).1.resolve? y.1 ≠ .ok place := fun y hy => by
          rw [← hresolve]
          exact hplace y (List.mem_cons_of_mem _ hy)
        exact (hget place hrest').trans (htouch.get place (hplace _ List.mem_cons_self))

/-! ## A second run -/

/-- Applying the set to the file of the path, if it holds what was analysed, leaves its text as it
is. -/
def Fixed (files : List SourceFile) (fs : FileSystem) (x : Path × ReplacementSet) : Prop :=
  ∀ text, fs.readText? x.1 = .ok text → analysed? files x.1 = some text →
    (x.2.applyTo text).text = text

theorem same_applyFile (h : Fixed files fs (path, set)) :
    Same fs (applyFile files fs path set).1 := by
  obtain ⟨hsettled, htouch⟩ := settled_applyFile files fs path set
  refine ⟨htouch.shape.base, fun place => ?_⟩
  by_cases hplace : fs.resolve? path = .ok place
  · by_contra hne
    obtain ⟨-, text, hanalysed, hbefore, hafter⟩ :=
      hsettled.written_of_get?_ne hplace (Ne.symm hne)
    have htext := h text (by rw [readText?_eq hbefore, fromUTF8?_toUTF8]) hanalysed
    rw [htext] at hafter
    exact hne (hbefore.get.trans hafter.get.symm)
  · exact (htouch.get place hplace).symm

/-- Where nothing would change, a run changes nothing. -/
theorem same_applyFiles (h : ∀ x ∈ withEdits sets, Fixed files fs x) :
    Same fs (applyFiles files fs sets).1 := by
  induction sets generalizing fs with
  | nil => exact .refl fs
  | cons x rest ih =>
    obtain ⟨path, set⟩ := x
    unfold applyFiles
    unfold withEdits at h
    by_cases hempty : set.isEmpty = true
    · rw [List.filter_cons_of_neg (by simp [hempty])] at h
      rw [if_pos hempty]
      exact ih h
    · rw [List.filter_cons_of_pos (by simpa using hempty)] at h
      rw [if_neg hempty]
      obtain ⟨hfirst, hrest⟩ := List.forall_mem_cons.mp h
      have hstep := same_applyFile hfirst
      refine hstep.trans (ih fun y hy text hread => hrest y hy text ?_)
      rw [(hstep.sameAt y.1).readText?, hread]

/-! ## The whole plan -/

/-- **A plan is applied all or nothing, and once.** Where the paths of a plan lead to different
files: there is one outcome for each set with edits, in the order of the plan, which tells what
happened to the file and counts each edit of the set once; what changed is a file whose outcome says
so, which held the first text analysed under its path and holds now what its set makes of this text;
and a second run changes nothing. -/
theorem apply_all_or_nothing (plan : Plan) (files : List SourceFile) (fs : FileSystem)
    (hdistinct : DistinctFiles fs plan.files) :
    let done := plan.applyTo files fs
    List.Forall₂ (fun x o => Settled files fs done.fileSystem x.1 x.2 o ∧ o.path = x.1 ∧
        o.applied + o.skipped.length = x.2.size)
      (withEdits plan.files) done.outcomes ∧
    (FileSets.Sorted plan.files →
      (done.outcomes.map (·.path)).Pairwise fun p q => compare p q = .lt) ∧
    (∀ place, done.fileSystem.get? place ≠ fs.get? place →
      ∃ x o, (x, o) ∈ (withEdits plan.files).zip done.outcomes ∧ o.written = true ∧
        ∃ text, analysed? files x.1 = some text ∧ fs.HoldsAt x.1 place text.toUTF8 ∧
          done.fileSystem.HoldsAt x.1 place (x.2.applyTo text).text.toUTF8) ∧
    Same done.fileSystem (plan.applyTo files done.fileSystem).fileSystem := by
  intro done
  obtain ⟨hall, -, hget⟩ := @settled_applyFiles files fs plan.files hdistinct
  have hsettled : List.Forall₂ (fun x o => Settled files fs done.fileSystem x.1 x.2 o)
      (withEdits plan.files) done.outcomes := hall
  obtain ⟨hlength, hzip⟩ := List.forall₂_iff_zip.mp hsettled
  have hmem : ∀ x ∈ withEdits plan.files, ∃ o, (x, o) ∈ (withEdits plan.files).zip done.outcomes ∧
      Settled files fs done.fileSystem x.1 x.2 o := by
    intro x hx
    rw [← List.map_fst_zip (Nat.le_of_eq hlength)] at hx
    obtain ⟨⟨y, o⟩, ho, rfl⟩ := List.mem_map.mp hx
    exact ⟨o, ho, hzip ho⟩
  refine ⟨hsettled.imp fun x o h => ⟨h, h.path_eq, h.applied_add_skipped⟩, fun hsorted => ?_,
    fun place hne => ?_, same_applyFiles fun x hx => ?_⟩
  · have hpaths : List.Forall₂ Eq (done.outcomes.map (·.path))
        ((withEdits plan.files).map Prod.fst) :=
      List.forall₂_map_left_iff.mpr (List.forall₂_map_right_iff.mpr
        (hsettled.imp fun x o h => h.path_eq).flip)
    rw [List.forall₂_eq_eq_eq] at hpaths
    rw [hpaths]
    exact FileSets.sorted_iff_map_fst.mp (hsorted.filter _)
  · -- a place that no set is for does not change
    obtain ⟨x, hx, hplace⟩ : ∃ x ∈ withEdits plan.files, fs.resolve? x.1 = .ok place := by
      by_contra hnone
      exact hne (hget place fun x hx hplace => hnone ⟨x, hx, hplace⟩)
    obtain ⟨o, ho, hx⟩ := hmem x hx
    obtain ⟨hwritten, hheld⟩ := hx.written_of_get?_ne hplace hne
    exact ⟨x, o, ho, hwritten, hheld⟩
  · obtain ⟨o, -, hx⟩ := hmem x hx
    exact fun text hread hanalysed => hx.text_applyTo hread hanalysed

/-- A file that holds what was analysed, one that does not, and one whose only character no edit
fits. -/
def threeFiles : FileSystem where
  base := []
  entries := [(["a.cu"], .file "cudaFree;".toUTF8), (["b.cu"], .file "changed".toUTF8),
    (["d.cu"], .file "é".toUTF8)]

/-- Of five sets, one is for no file and one has no edits. Another text was analysed under the path
of the first file as well, behind its own. -/
theorem apply_all_or_nothing_five_sets :
    let set (start stop : Nat) (text : String) : ReplacementSet :=
      ⟨.exactSpan, [⟨⟨start, stop⟩, text, .callRename⟩], []⟩
    let plan : Plan := ⟨[(⟨"a.cu"⟩, set 0 8 "hipFree"), (⟨"b.cu"⟩, set 0 4 "x"),
      (⟨"c.cu"⟩, set 0 1 "y"), (⟨"d.cu"⟩, set 0 1 "e"), (⟨"e.cu"⟩, .empty .exactSpan)], [], .zero⟩
    let files : List SourceFile := [⟨⟨"a.cu"⟩, "cudaFree;"⟩, ⟨⟨"a.cu"⟩, "cudaMalloc;"⟩,
      ⟨⟨"b.cu"⟩, "analysed"⟩, ⟨⟨"d.cu"⟩, "é"⟩]
    let done := plan.applyTo files threeFiles
    DistinctFiles threeFiles plan.files ∧
    done.outcomes.map (fun o => (o.applied, o.skipped.length, o.written)) =
      [(1, 0, true), (0, 1, false), (0, 1, false), (0, 1, false)] ∧
    done.fileSystem.readText? ⟨"a.cu"⟩ = .ok "hipFree;" ∧
    List.Forall₂ (fun x o => Settled files threeFiles done.fileSystem x.1 x.2 o)
      (withEdits plan.files) done.outcomes ∧
    Same done.fileSystem (plan.applyTo files done.fileSystem).fileSystem := by
  intro set plan files done
  have hdistinct : DistinctFiles threeFiles plan.files := by decide +kernel
  obtain ⟨hall, -, -, hagain⟩ := apply_all_or_nothing plan files threeFiles hdistinct
  exact ⟨hdistinct, by decide +kernel, by decide +kernel, hall.imp fun _ _ h => h.1, hagain⟩

end CudaToHip.Plan
