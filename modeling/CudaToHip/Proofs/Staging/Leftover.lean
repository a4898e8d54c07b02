import CudaToHip.Proofs.Staging

/-!
# What staging leaves behind

Staging adds at most one file, and at a free place, so nothing that stood anywhere changes. If a
file is skipped or cannot be staged, nothing is added either, with one exception: a directory with
the name of a source can be opened, but has no bytes to copy, and by then its scratch copy has been
made (`Strands`).

* `outcome_of_stage`: what may become of any path.
* `stage_keeps_what_stands`: whatever the outcome, what was there is there as before, and without a
  copy nothing is added unless a directory strands one.
* `directory_strands_copy`: directories do, and what they leave stands in the way of the next
  attempt.
-/

namespace CudaToHip

open FileSystem

variable {config : Config} {fs gs : FileSystem} {path scratch : Path} {place : Place}

/-- The path is that of a directory, and its scratch path leads to a free place. -/
structure Strands (config : Config) (fs : FileSystem) (path scratch : Path) (place : Place) :
    Prop where
  name : scratchPath? config path = some scratch
  directory : fs.open? path = .ok .directory
  free : fs.VacantAt scratch place

/-- A new file can be made at a free place. -/
theorem FileSystem.VacantAt.createNew (h : fs.VacantAt path place) :
    fs.createNew path = .ok (fs.put place (.file .empty)) := by
  simp [FileSystem.createNew, h.resolve, h.notDirectory, h.get, bind, Except.bind, pure,
    Except.pure]

/-- **A directory leaves an empty scratch copy behind.** -/
theorem stage_of_strands (h : Strands config fs path scratch place) : stage config fs path =
    (fs.put place (.file .empty), .failed (.file scratch .isDirectory)) := by
  unfold stage
  rw [h.name]
  dsimp only
  rw [h.directory]
  dsimp only
  rw [h.free.createNew]
  rfl

/-- What may become of a path that is to be staged. -/
inductive StageOutcome (config : Config) (fs : FileSystem) (path : Path) :
    FileSystem × Staged → Prop where
  /-- Nothing is staged, and nothing changes. -/
  | unchanged {outcome : Staged} (hfails : ∀ f, outcome ≠ .staged f) :
    StageOutcome config fs path (fs, outcome)
  /-- It is copied to a free place. -/
  | copied {f : StagedFile} {gs : FileSystem} {place : Place} {bytes : ByteArray}
    (hopen : fs.open? path = .ok (.file bytes)) (hfree : fs.VacantAt f.scratch place)
    (hsame : Same gs (fs.put place (.file bytes))) : StageOutcome config fs path (gs, .staged f)
  /-- It is a directory, which leaves an empty file at a free place. -/
  | stranded {scratch : Path} {place : Place} (h : Strands config fs path scratch place) :
    StageOutcome config fs path
      (fs.put place (.file .empty), .failed (.file scratch .isDirectory))

/-- **What becomes of a path that is to be staged**, whatever it leads to. -/
theorem outcome_of_stage (config : Config) (fs : FileSystem) (path : Path) :
    StageOutcome config fs path (stage config fs path) := by
  by_cases hopen : fs.open? path = .ok .directory
  · by_cases hstrands : ∃ scratch place, Strands config fs path scratch place
    · obtain ⟨scratch, place, h⟩ := hstrands
      exact stage_of_strands h ▸ .stranded h
    · unfold stage
      cases hscratch : scratchPath? config path with
      | none => exact .unchanged nofun
      | some scratch =>
        rw [hopen]
        cases hcreate : fs.createNew scratch with
        | error e => simpa only [hcreate] using .unchanged nofun
        | ok created =>
          obtain ⟨place, hplace, -⟩ := exists_of_createNew hcreate
          exact absurd ⟨scratch, place, hscratch, hopen, hplace⟩ hstrands
  · rcases stage_cases hopen with ⟨hsame, hfails⟩ | ⟨scratch, source, place, bytes, -, hsource,
      hplace, hstage⟩
    · have hstage : stage config fs path = (fs, (stage config fs path).2) := Prod.ext hsame rfl
      rw [hstage]
      exact .unchanged hfails
    · rw [hstage]
      exact .copied hsource.open? hplace (same_put_put fs place _ _)

namespace StageOutcome

variable {r : FileSystem × Staged}

/-- Nothing is added, or a file at a free place. -/
theorem adds (h : StageOutcome config fs path r) : r.1 = fs ∨ ∃ place bytes,
    fs.isDirectory place = false ∧ fs.get? place = none ∧ Same r.1 (fs.put place (.file bytes)) := by
  cases h with
  | unchanged => exact Or.inl rfl
  | copied _ hfree hsame => exact Or.inr ⟨_, _, hfree.notDirectory, hfree.get, hsame⟩
  | stranded h => exact Or.inr ⟨_, _, h.free.notDirectory, h.free.get, .refl _⟩

theorem directories (h : StageOutcome config fs path r) : SameDirectories fs r.1 := by
  rcases h.adds with heq | ⟨place, bytes, hdir, -, hsame⟩
  · exact heq ▸ (Same.refl fs).directories
  · have hput : SameDirectories fs (fs.put place (.file bytes)) := sameDirectories_put hdir
    exact ⟨hput.base.trans hsame.base.symm,
      fun other => (hput.isDirectory other).trans (hsame.directories.isDirectory other).symm⟩

/-- What stands somewhere stays. -/
theorem get?_eq (h : StageOutcome config fs path r) (hplace : fs.get? place ≠ none) :
    r.1.get? place = fs.get? place := by
  rcases h.adds with heq | ⟨other, bytes, -, hfree, hsame⟩
  · rw [heq]
  · have hne : place ≠ other := by
      rintro rfl
      exact hplace hfree
    rw [hsame.get?, get?_put, if_neg hne]

/-- Every path that can be opened opens as before. -/
theorem open?_eq {e : Entry} (h : StageOutcome config fs path r) {other : Path}
    (hopen : fs.open? other = .ok e) : r.1.open? other = .ok e := by
  obtain ⟨place, hplace, ⟨hdir, rfl⟩ | ⟨hdir, hget⟩⟩ := exists_of_open? hopen
  · exact h.directories.open? hopen
  · cases e with
    | directory => exact h.directories.open? hopen
    | file bytes =>
      have hstands : fs.get? place ≠ none := by
        rw [hget]
        nofun
      have hkept := h.get?_eq hstands
      exact HoldsAt.open? ⟨h.directories.resolve? hplace,
        (h.directories.isDirectory place).symm.trans hdir, hkept.trans hget⟩

/-- What is not staged leaves nothing behind, unless it strands a copy. -/
theorem eq_of_not_strands (h : StageOutcome config fs path r)
    (hfails : ∀ f, r.2 ≠ .staged f)
    (hnone : ∀ scratch place, ¬ Strands config fs path scratch place) : r.1 = fs := by
  cases h with
  | unchanged => rfl
  | copied => exact absurd rfl (hfails _)
  | stranded h => exact absurd h (hnone _ _)

end StageOutcome

/-- **Staging keeps what stands.** Whatever becomes of a path, what stood anywhere stands there as
before, and every path that could be opened opens as before. If the path is skipped or fails, the
file system is the one before, except if it is that of a directory whose scratch path is free: this
always fails, and leaves an empty file there. -/
theorem stage_keeps_what_stands (config : Config) (fs : FileSystem) (path : Path) :
    (∀ place, fs.get? place ≠ none → (stage config fs path).1.get? place = fs.get? place) ∧
    (∀ other e, fs.open? other = .ok e → (stage config fs path).1.open? other = .ok e) ∧
    ((∀ f, (stage config fs path).2 ≠ .staged f) →
      (∀ scratch place, ¬ Strands config fs path scratch place) →
        (stage config fs path).1 = fs) ∧
    ∀ scratch place, Strands config fs path scratch place → stage config fs path =
      (fs.put place (.file .empty), .failed (.file scratch .isDirectory)) := by
  have h := outcome_of_stage config fs path
  exact ⟨fun _ => h.get?_eq, fun _ _ => h.open?_eq, h.eq_of_not_strands,
    fun _ _ => stage_of_strands⟩

/-- A directory whose name ends as those of sources do. -/
def sourceDirectory : FileSystem where
  base := ["w"]
  entries := [(["w"], .directory), (["w", "d.cu"], .directory)]

/-- **A directory strands a copy**: it cannot be staged, and yet a new file stands beside it, over
which the next attempt fails too. -/
theorem directory_strands_copy :
    let (first, outcome) := stage .default sourceDirectory ⟨"d.cu"⟩
    outcome = .failed (.file ⟨"d.hip.cu"⟩ .isDirectory) ∧
    sourceDirectory.get? ["w", "d.hip.cu"] = none ∧
    first.get? ["w", "d.hip.cu"] = some (.file .empty) ∧
    (stage .default first ⟨"d.cu"⟩).2 = .failed (.file ⟨"d.hip.cu"⟩ .alreadyExists) := by
  decide +kernel

end CudaToHip
