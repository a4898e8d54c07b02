import CudaToHip.Proofs.Staging.Leftover

/-!
# Staging can be undone

As long as the scratch copy is the only thing written to, the file system is the one before with a
single file on top, at a place that was free (`OnTop`). Staging brings this about (`onTop_of_stage`)
and a rewrite of the copy keeps it (`OnTop.write`); discarding the copy takes the file away again
(`OnTop.discard`), and restoring it moves the file over the source (`OnTop.restore`).

* `staging_can_be_undone`: both give back the file system before, and once the copy is rewritten,
  restoring exchanges the bytes of the source and nothing else.
-/

namespace CudaToHip

open FileSystem

variable {config : Config} {fs gs hs : FileSystem} {path : Path} {f : StagedFile}
  {origin place : Place} {original bytes : ByteArray}

/-- The file system `gs` is `fs`, in which the source of `f` is a file of the bytes `original`, with
`bytes` on top at the free place that the scratch path leads to. -/
structure OnTop (fs : FileSystem) (f : StagedFile) (origin place : Place) (original : ByteArray)
    (gs : FileSystem) (bytes : ByteArray) : Prop where
  source : fs.HoldsAt f.source origin original
  free : fs.VacantAt f.scratch place
  same : Same gs (fs.put place (.file bytes))

namespace OnTop

theorem ne (h : OnTop fs f origin place original gs bytes) : place ≠ origin := by
  rintro rfl
  have hget := h.source.get
  rw [h.free.get] at hget
  cases hget

/-- The two paths are not the same, however they are spelled. -/
theorem not_same (h : OnTop fs f origin place original gs bytes) :
    f.scratch.same f.source = false := by
  rw [← Bool.not_eq_true]
  intro hsame
  exact h.ne (FileSystem.eq_of_same hsame (fileResolve?_eq_ok_iff.mp h.free.resolve).1
    h.source.resolve)

theorem directories (h : OnTop fs f origin place original gs bytes) : SameDirectories fs gs := by
  have hput : SameDirectories fs (fs.put place (.file bytes)) :=
    sameDirectories_put h.free.notDirectory
  exact ⟨hput.base.trans h.same.base.symm,
    fun other => (hput.isDirectory other).trans (h.same.directories.isDirectory other).symm⟩

/-- The scratch path leads to the copy. -/
theorem holdsAt (h : OnTop fs f origin place original gs bytes) :
    gs.HoldsAt f.scratch place bytes := h.free.holdsAt_put h.same

/-- Everywhere else nothing has changed. -/
theorem get?_eq (h : OnTop fs f origin place original gs bytes) {other : Place}
    (hother : other ≠ place) : gs.get? other = fs.get? other := by
  rw [h.same.get?, get?_put, if_neg hother]

/-- The copy can be rewritten. -/
theorem write (h : OnTop fs f origin place original gs bytes) (new : ByteArray) :
    ∃ hs, gs.write f.scratch new = .ok hs ∧ OnTop fs f origin place original hs new :=
  ⟨gs.put place (.file new), write_eq h.holdsAt.fileResolve? h.holdsAt.notDirectory new, h.source,
    h.free, (h.same.put place (.file new)).trans (same_put_put fs place _ _)⟩

/-- **Without the copy, the file system is the one before.** -/
theorem discard (h : OnTop fs f origin place original gs bytes) :
    ∃ hs, f.discard gs = .ok hs ∧ Same hs fs := by
  refine ⟨gs.erase place, ?_, (h.same.erase place).trans (same_erase_put h.free.get _)⟩
  unfold StagedFile.discard
  rw [remove_eq h.holdsAt]
  rfl

/-- **The copy moved back exchanges the bytes of the source** and leaves nothing else behind. -/
theorem restore (h : OnTop fs f origin place original gs bytes) :
    ∃ hs, f.restore gs = .ok hs ∧ Same hs (fs.put origin (.file bytes)) := by
  have htarget : gs.isDirectory origin = false :=
    (h.directories.isDirectory origin).symm.trans h.source.notDirectory
  refine ⟨(gs.put origin (.file bytes)).erase place, ?_, ?_, fun other => ?_⟩
  · unfold StagedFile.restore
    rw [rename_eq h.holdsAt (h.directories.resolve? h.source.resolve) htarget h.ne]
    rfl
  · rw [base_erase, base_put, base_put]
    exact h.directories.base.symm
  · rw [get?_erase, get?_put, get?_put]
    split_ifs with hplace horigin horigin
    · exact absurd (hplace.symm.trans horigin) h.ne
    · rw [hplace, h.free.get]
    · rfl
    · exact h.get?_eq hplace

end OnTop

/-- **What was staged stands on top of the file system before.** -/
theorem onTop_of_stage (h : stage config fs path = (gs, .staged f)) :
    f.source = path ∧ scratchPath? config path = some f.scratch ∧
      ∃ origin place original, OnTop fs f origin place original gs original := by
  have houtcome : StageOutcome config fs path (gs, .staged f) := h ▸ outcome_of_stage config fs path
  cases houtcome with
  | unchanged hfails => exact absurd rfl (hfails f)
  | copied hopen =>
    rcases stage_cases (open?_ne_directory hopen) with ⟨-, hfails⟩ | ⟨scratch, origin, place,
      original, hscratch, hsource, hfree, hstage⟩
    · exact absurd (congrArg Prod.snd h) (hfails f)
    · obtain ⟨rfl, hf⟩ := Prod.mk.inj (h.symm.trans hstage)
      obtain rfl := Staged.staged.inj hf
      exact ⟨rfl, hscratch, origin, place, original, hsource, hfree, same_put_put fs place _ _⟩

/-- Discarding the copy of a staged file gives the file system `discarded`, and restoring it gives
`restored`. -/
structure Undoes (f : StagedFile) (gs discarded restored : FileSystem) : Prop where
  discard : ∃ hs, f.discard gs = .ok hs ∧ Same hs discarded
  restore : ∃ hs, f.restore gs = .ok hs ∧ Same hs restored

/-- A staged file whose source holds the bytes `original`, and how to be rid of its copy. -/
structure Undoable (fs : FileSystem) (f : StagedFile) (origin place : Place) (original : ByteArray)
    (gs : FileSystem) : Prop where
  source : fs.HoldsAt f.source origin original
  copy : gs.HoldsAt f.scratch place original
  apart : f.scratch.same f.source = false ∧ place ≠ origin
  /-- The copy is the only change. -/
  added : fs.get? place = none ∧ gs.base = fs.base ∧
    ∀ other, other ≠ place → gs.get? other = fs.get? other
  undone : Undoes f gs fs fs
  /-- Whatever is written to the copy, it can be moved over the source or thrown away. -/
  rewritten : ∀ bytes, ∃ hs, gs.write f.scratch bytes = .ok hs ∧
    Undoes f hs fs (fs.put origin (.file bytes))

/-- **Staging can be undone.** If a file was staged, it is there under its path, its scratch copy has
the same bytes, text or not, and is the only thing new, at another path. Discarding the copy gives
back the file system before, and so does restoring it; after any rewrite of the copy, restoring gives
the file system before with the bytes of the source exchanged, and discarding still the one before.
No check of the configuration is needed: without a scratch path of its own, a file is not staged. -/
theorem staging_can_be_undone (h : stage config fs path = (gs, .staged f)) :
    f.source = path ∧ ∃ origin place original, Undoable fs f origin place original gs := by
  obtain ⟨hsource, -, origin, place, original, htop⟩ := onTop_of_stage h
  refine ⟨hsource, origin, place, original, ?_⟩
  obtain ⟨restored, hrestore, hsame⟩ := htop.restore
  exact
    { source := htop.source
      copy := htop.holdsAt
      apart := ⟨htop.not_same, htop.ne⟩
      added := ⟨htop.free.get, htop.directories.base.symm, fun _ => htop.get?_eq⟩
      undone := ⟨htop.discard, restored, hrestore, hsame.trans (same_put_self htop.source.get)⟩
      rewritten := fun bytes => by
        obtain ⟨hs, hwrite, htop'⟩ := htop.write bytes
        exact ⟨hs, hwrite, htop'.discard, htop'.restore⟩ }

/-- A source that is no text, between directories and beside the port of another one. -/
def crowdedDirectory : FileSystem where
  base := ["w"]
  entries := [(["w"], .directory), (["w", "k"], .directory), (["w", "sub"], .directory),
    (["w", "k.cu"], .file ⟨#[0xff, 0x00]⟩), (["w", "k.hip.cu"], .file "a port".toUTF8)]

/-- The source as staged under the marker `/../sub/k.cu`. -/
def stagedElsewhere : StagedFile := ⟨⟨"sub/..//k.cu"⟩, ⟨"sub/../k/../sub/k.cu"⟩⟩

/-- The marker may be anything but the ending of sources, and may lead to another directory. -/
theorem staging_can_be_undone_elsewhere :
    let config : Config := { Config.default with markerExtension := "/../sub/k.cu" }
    let gs := (stage config crowdedDirectory ⟨"sub/..//k.cu"⟩).1
    config.problem? = none ∧
    stage config crowdedDirectory ⟨"sub/..//k.cu"⟩ = (gs, .staged stagedElsewhere) ∧
    ∃ origin place original, Undoable crowdedDirectory stagedElsewhere origin place original gs := by
  intro config gs
  have hstage : stage config crowdedDirectory ⟨"sub/..//k.cu"⟩ = (gs, .staged stagedElsewhere) :=
    Prod.ext rfl (by decide +kernel)
  exact ⟨by decide, hstage, (staging_can_be_undone hstage).2⟩

end CudaToHip
