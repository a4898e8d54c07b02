import CudaToHip.CommandLine.Run
import CudaToHip.Proofs.FileSystem
import CudaToHip.Proofs.Span

/-!
# Scratch copies

Staging a file either changes nothing or puts a copy of it at a free place (`ofPath_cases`). After
any number of files, the file system is the one at the start with the copies on top, each at a place
of its own (`Copies`). This is kept by every file staged (`Copies.take`) and by every copy removed
(`Copies.remove`), so:

* `copies_all`: staging all files puts copies on top and does nothing else.
* `same_discardAll`: once all copies are removed, the file system is as it was.
* `restored_restoreAll`: once all copies are moved back, every source has the text of its copy and
  nothing else has changed.
-/

namespace CudaToHip

open FileSystem

variable {config : Config} {fs gs hs : FileSystem} {path : Path} {paths : List Path}
  {place other : Place} {l : Loaded} {done loaded : List Loaded} {text : Loaded → String}

/-! ## One file -/

/-- What staging a file that is no directory comes to: nothing, or a copy at a free place. -/
theorem stage_cases (hopen : fs.open? path ≠ .ok .directory) :
    ((stage config fs path).1 = fs ∧ ∀ f, (stage config fs path).2 ≠ .staged f) ∨
    ∃ scratch source place bytes, scratchPath? config path = some scratch ∧
      fs.HoldsAt path source bytes ∧ fs.VacantAt scratch place ∧
      stage config fs path =
        ((fs.put place (.file .empty)).put place (.file bytes), .staged ⟨path, scratch⟩) := by
  unfold stage
  split
  · exact Or.inl ⟨rfl, fun _ h => nomatch h⟩
  · rename_i scratch hscratch
    split
    · exact Or.inl ⟨rfl, fun _ h => nomatch h⟩
    · rename_i opened hopened
      cases opened with
      | directory => exact absurd hopened hopen
      | file bytes =>
        obtain ⟨source, hsource⟩ := exists_of_open?_file hopened
        split
        · exact Or.inl ⟨rfl, fun _ h => nomatch h⟩
        · rename_i created hcreated
          obtain ⟨place, hplace, rfl⟩ := exists_of_createNew hcreated
          have hdirs : SameDirectories fs (fs.put place (.file .empty)) :=
            sameDirectories_put hplace.notDirectory
          have hwrite : (FileSystem.Entry.bytes? (.file bytes)).bind
              ((fs.put place (.file .empty)).write scratch) =
              .ok ((fs.put place (.file .empty)).put place (.file bytes)) :=
            write_eq (hdirs.fileResolve? hplace.resolve)
              ((hdirs.isDirectory place).symm.trans hplace.notDirectory) bytes
          rw [hwrite]
          exact Or.inr ⟨scratch, source, place, bytes, hscratch, hsource, hplace, rfl⟩

/-- The file at the path was copied to its scratch path, which was free, and the copy was read. -/
structure Takes (config : Config) (fs : FileSystem) (path : Path) (l : Loaded)
    (gs : FileSystem) : Prop where
  source : l.staged.source = path
  scratch : scratchPath? config path = some l.staged.scratch
  name : l.source.path = l.staged.scratch
  read : ∃ place, fs.HoldsAt path place l.source.text.toUTF8
  copy : ∃ place, fs.VacantAt l.staged.scratch place ∧
    Same gs (fs.put place (.file l.source.text.toUTF8))

/-- **What becomes of one file**: it is left out and nothing changes, or it is copied and read. -/
theorem ofPath_cases (hopen : fs.open? path ≠ .ok .directory) :
    ((Loaded.ofPath config fs path).2 = none ∧ Same (Loaded.ofPath config fs path).1 fs) ∨
    ∃ l, (Loaded.ofPath config fs path).2 = some l ∧
      Takes config fs path l (Loaded.ofPath config fs path).1 := by
  rcases stage_cases hopen with ⟨hsame, hfailed⟩ | ⟨scratch, source, place, bytes, hscratch,
    hsource, hplace, hstage⟩
  · have hnone : Loaded.ofPath config fs path = ((stage config fs path).1, none) := by
      unfold Loaded.ofPath
      generalize stage config fs path = staged at hfailed
      obtain ⟨gs, outcome⟩ := staged
      cases outcome with
      | staged f => exact absurd rfl (hfailed f)
      | skipped | failed => rfl
    rw [hnone, hsame]
    exact Or.inl ⟨rfl, .refl fs⟩
  · have hput : Same ((fs.put place (.file .empty)).put place (.file bytes))
        (fs.put place (.file bytes)) := same_put_put fs place _ _
    have hcopy := VacantAt.holdsAt_put hplace hput
    unfold Loaded.ofPath
    rw [hstage]
    dsimp only
    unfold StagedFile.load
    rw [readText?_eq hcopy]
    cases htext : String.fromUTF8? bytes with
    | some text =>
      obtain rfl := eq_toUTF8_of_fromUTF8? htext
      exact Or.inr ⟨_, rfl, rfl, hscratch, rfl, ⟨source, hsource⟩, place, hplace, hput⟩
    | none =>
      -- the copy is no text and is removed again
      dsimp only
      unfold StagedFile.discard
      rw [remove_eq hcopy]
      exact Or.inl ⟨rfl, (hput.erase place).trans (same_erase_put hplace.get _)⟩

/-! ## Copies on top of a file system -/

/-- The file system `gs` is `fs` with the scratch copies of the loaded files on top, which hold the
given texts. -/
structure Copies (fs gs : FileSystem) (text : Loaded → String) (loaded : List Loaded) : Prop where
  base : fs.base = gs.base
  /-- Every copy stands at a place that was free. -/
  copy : ∀ l ∈ loaded, ∃ place, fs.VacantAt l.staged.scratch place ∧
    gs.get? place = some (.file (text l).toUTF8)
  /-- No two copies stand at one place. -/
  distinct : loaded.Pairwise fun a b => ∀ place, fs.VacantAt a.staged.scratch place →
    ¬ fs.VacantAt b.staged.scratch place
  /-- Everywhere else nothing has changed. -/
  rest : ∀ place, (∀ l ∈ loaded, ¬ fs.VacantAt l.staged.scratch place) →
    gs.get? place = fs.get? place

namespace Copies

theorem nil (h : Same gs fs) : Copies fs gs text [] :=
  ⟨h.base.symm, fun _ hl => (nomatch hl), .nil, fun place _ => h.get? place⟩

theorem same (h : Copies fs gs text []) : Same gs fs :=
  ⟨h.base.symm, fun place => h.rest place fun _ hl => nomatch hl⟩

theorem congr (h : Copies fs gs text loaded) (hsame : Same hs gs) : Copies fs hs text loaded where
  base := h.base.trans hsame.base.symm
  copy := fun l hl => by
    obtain ⟨place, hplace, hget⟩ := h.copy l hl
    exact ⟨place, hplace, (hsame.get? place).trans hget⟩
  distinct := h.distinct
  rest := fun place hrest => (hsame.get? place).trans (h.rest place hrest)

/-- What stands at a place: a copy, or what stood there before. -/
theorem cases (h : Copies fs gs text loaded) (place : Place) :
    (∃ l ∈ loaded, fs.VacantAt l.staged.scratch place ∧
      gs.get? place = some (.file (text l).toUTF8)) ∨ gs.get? place = fs.get? place := by
  by_cases hcopy : ∃ l ∈ loaded, fs.VacantAt l.staged.scratch place
  · obtain ⟨l, hl, hplace⟩ := hcopy
    obtain ⟨place', hplace', hget⟩ := h.copy l hl
    obtain rfl := hplace.unique hplace'
    exact Or.inl ⟨l, hl, hplace, hget⟩
  · exact Or.inr (h.rest place fun l hl hplace => hcopy ⟨l, hl, hplace⟩)

/-- Copies are files, so that the directories stay as they were. -/
theorem directories (h : Copies fs gs text loaded) : SameDirectories fs gs := by
  refine sameDirectories_of_get? h.base fun place => ?_
  rcases h.cases place with ⟨l, -, hplace, hget⟩ | hget
  · exact Or.inr ⟨hplace.notDirectory, by rw [hget]; simp⟩
  · exact Or.inl hget.symm

/-- What is free beside the copies was free before them. -/
theorem vacantAt (h : Copies fs gs text loaded) (hplace : gs.VacantAt path place) :
    fs.VacantAt path place := by
  refine ⟨h.directories.symm.fileResolve? hplace.resolve, ?_, ?_⟩
  · rw [h.directories.isDirectory]
    exact hplace.notDirectory
  · rcases h.cases place with ⟨l, -, -, hget⟩ | hget
    · rw [hplace.get] at hget
      cases hget
    · rw [← hget, hplace.get]

/-- A copy can be read at its scratch path. -/
theorem holdsAt (h : Copies fs gs text loaded) (hl : l ∈ loaded) : ∃ place,
    fs.VacantAt l.staged.scratch place ∧ gs.HoldsAt l.staged.scratch place (text l).toUTF8 := by
  obtain ⟨place, hplace, hget⟩ := h.copy l hl
  refine ⟨place, hplace, h.directories.resolve? (fileResolve?_eq_ok_iff.mp hplace.resolve).1, ?_,
    hget⟩
  rw [← h.directories.isDirectory]
  exact hplace.notDirectory

/-- One more file is staged. -/
theorem take (h : Copies fs gs text done) (ht : Takes config gs path l hs)
    (htext : text l = l.source.text) : Copies fs hs text (done ++ [l]) := by
  obtain ⟨place, hplace, hput⟩ := ht.copy
  have hfree := h.vacantAt hplace
  -- the place of an earlier copy is not free any more
  have hother {a : Loaded} (ha : a ∈ done) {p : Place} (hp : fs.VacantAt a.staged.scratch p) :
      p ≠ place := by
    rintro rfl
    obtain ⟨p', hp', hget⟩ := h.copy a ha
    obtain rfl := hp.unique hp'
    rw [hplace.get] at hget
    cases hget
  refine ⟨?_, fun a ha => ?_, ?_, fun p hp => ?_⟩
  · rw [h.base, hput.base, base_put]
  · rcases List.mem_append.mp ha with ha | ha
    · obtain ⟨p, hp, hget⟩ := h.copy a ha
      refine ⟨p, hp, ?_⟩
      rw [hput.get?, get?_put, if_neg (hother ha hp), hget]
    · obtain rfl := List.mem_singleton.mp ha
      refine ⟨place, hfree, ?_⟩
      rw [hput.get?, get?_put, if_pos rfl, htext]
  · refine List.pairwise_append.mpr ⟨h.distinct, List.pairwise_singleton _ _, ?_⟩
    intro a ha b hb p hp hp'
    obtain rfl := List.mem_singleton.mp hb
    exact hother ha hp (hp'.unique hfree)
  · have hne : p ≠ place := by
      rintro rfl
      exact hp l (List.mem_append_right _ List.mem_cons_self) hfree
    rw [hput.get?, get?_put, if_neg hne]
    exact h.rest p fun a ha => hp a (List.mem_append_left _ ha)

/-- The first copy is removed. -/
theorem remove (h : Copies fs gs text (l :: loaded)) : ∃ place,
    gs.HoldsAt l.staged.scratch place (text l).toUTF8 ∧
      Copies fs (gs.erase place) text loaded := by
  obtain ⟨place, hplace, hholds⟩ := h.holdsAt List.mem_cons_self
  obtain ⟨hfirst, hdistinct⟩ := List.pairwise_cons.mp h.distinct
  refine ⟨place, hholds, h.base, fun a ha => ?_, hdistinct, fun p hp => ?_⟩
  · obtain ⟨p, hp, hget⟩ := h.copy a (List.mem_cons_of_mem _ ha)
    have hne : p ≠ place := by
      rintro rfl
      exact hfirst a ha p hplace hp
    exact ⟨p, hp, by rw [get?_erase, if_neg hne, hget]⟩
  · rw [get?_erase]
    split
    · rename_i heq
      rw [heq, hplace.get]
    · rename_i hne
      refine h.rest p fun a ha hpa => ?_
      rcases List.mem_cons.mp ha with rfl | ha
      · exact hne (hpa.unique hplace)
      · exact hp a ha hpa

/-- No two copies have the same path, however it is spelled. -/
theorem eq_of_same {a b : Loaded} (h : Copies fs gs text loaded) (ha : a ∈ loaded)
    (hb : b ∈ loaded) (hsame : a.staged.scratch.same b.staged.scratch = true) : a = b := by
  obtain ⟨p, hp, -⟩ := h.copy a ha
  obtain ⟨q, hq, -⟩ := h.copy b hb
  obtain rfl : p = q := FileSystem.eq_of_same hsame (fileResolve?_eq_ok_iff.mp hp.resolve).1
    (fileResolve?_eq_ok_iff.mp hq.resolve).1
  rcases eq_or_of_pairwise h.distinct ha hb with heq | hapart | hapart
  · exact heq
  · exact absurd hq (hapart p hp)
  · exact absurd hp (hapart p hq)

/-- Every file is loaded once. -/
theorem nodup (h : Copies fs gs text loaded) : loaded.Nodup := by
  refine h.distinct.imp_of_mem fun {a b} ha _ hapart => ?_
  rintro rfl
  obtain ⟨p, hp, -⟩ := h.copy a ha
  exact hapart p hp hp

theorem congr_text {text' : Loaded → String} (h : Copies fs gs text loaded)
    (htext : ∀ l ∈ loaded, text' l = text l) : Copies fs gs text' loaded where
  base := h.base
  copy := fun l hl => by
    obtain ⟨place, hplace, hget⟩ := h.copy l hl
    exact ⟨place, hplace, by rw [hget, htext l hl]⟩
  distinct := h.distinct
  rest := h.rest

/-- One copy is written again. -/
theorem put {text' : Loaded → String} (h : Copies fs gs text loaded)
    (hplace : fs.VacantAt l.staged.scratch place) (hl : l ∈ loaded)
    (htext : ∀ a ∈ loaded, a ≠ l → text' a = text a) :
    Copies fs (gs.put place (.file (text' l).toUTF8)) text' loaded where
  base := h.base.trans (base_put ..).symm
  copy := fun a ha => by
    obtain ⟨p, hp, hget⟩ := h.copy a ha
    refine ⟨p, hp, ?_⟩
    rw [get?_put]
    by_cases hal : a = l
    · subst hal
      rw [if_pos (hp.unique hplace)]
    · have hne : p ≠ place := by
        rintro rfl
        rcases eq_or_of_pairwise h.distinct ha hl with heq | hapart | hapart
        · exact hal heq
        · exact hapart p hp hplace
        · exact hapart p hplace hp
      rw [if_neg hne, hget, htext a ha hal]
  distinct := h.distinct
  rest := fun p hp => by
    have hne : p ≠ place := by
      rintro rfl
      exact hp l hl hplace
    rw [get?_put, if_neg hne]
    exact h.rest p hp

/-- The first copy is moved over its source, which then is a file with the text of the copy. -/
theorem restore {source : Path} {bytes : ByteArray} (h : Copies fs gs text (l :: loaded))
    (hsource : fs.HoldsAt source other bytes) : ∃ moved,
    gs.rename l.staged.scratch source = .ok moved ∧
      Copies (fs.put other (.file (text l).toUTF8)) moved text loaded := by
  obtain ⟨place, hholds, hrest⟩ := h.remove
  obtain ⟨place', hplace, hholds'⟩ := h.holdsAt List.mem_cons_self
  obtain rfl := hholds.unique hholds'
  have hne : place ≠ other := by
    rintro rfl
    have hget := hsource.get
    rw [hplace.get] at hget
    cases hget
  refine ⟨_, rename_eq hholds (h.directories.resolve? hsource.resolve)
    ((h.directories.isDirectory other).symm.trans hsource.notDirectory) hne, ?_, ?_, ?_, ?_⟩
  · rw [base_put, base_erase, base_put]
    exact h.base
  · intro a ha
    obtain ⟨p, hp, hget⟩ := hrest.copy a ha
    have hfree : p ≠ other := by
      rintro rfl
      have hget := hsource.get
      rw [hp.get] at hget
      cases hget
    refine ⟨p, (vacantAt_put_iff hsource).mpr hp, ?_⟩
    rw [get?_erase] at hget ⊢
    split_ifs at hget ⊢
    rw [get?_put, if_neg hfree, hget]
  · exact hrest.distinct.imp fun hapart p hp hp' =>
      hapart p ((vacantAt_put_iff hsource).mp hp) ((vacantAt_put_iff hsource).mp hp')
  · intro p hp
    have hget := hrest.rest p fun a ha hfree => hp a ha ((vacantAt_put_iff hsource).mpr hfree)
    rw [get?_erase] at hget ⊢
    rw [get?_put, get?_put]
    split_ifs at hget ⊢ with hpp hpo
    · exact absurd (hpp.symm.trans hpo) hne
    · exact hget
    · rfl
    · exact hget

end Copies

/-! ## All files -/

theorem all_cons (config : Config) (fs : FileSystem) (path : Path) (paths : List Path) :
    Loaded.all config fs (path :: paths) =
      ((Loaded.all config (Loaded.ofPath config fs path).1 paths).1,
        (Loaded.ofPath config fs path).2.toList ++
          (Loaded.all config (Loaded.ofPath config fs path).1 paths).2) := rfl

/-- **Staging puts copies on top**, as long as no path is that of a directory. Each loaded file was
taken from one of the paths, with some copies on top already. -/
theorem copies_all (h : Copies fs gs (·.source.text) done)
    (hopen : ∀ path ∈ paths, fs.open? path ≠ .ok .directory) :
    Copies fs (Loaded.all config gs paths).1 (·.source.text)
        (done ++ (Loaded.all config gs paths).2) ∧
      ∀ l ∈ (Loaded.all config gs paths).2, ∃ path ∈ paths, ∃ before after earlier,
        Copies fs before (·.source.text) earlier ∧ Takes config before path l after := by
  induction paths generalizing gs done with
  | nil =>
    rw [Loaded.all, List.append_nil]
    exact ⟨h, fun _ hl => nomatch hl⟩
  | cons path paths ih =>
    have hopen' : ∀ p ∈ paths, fs.open? p ≠ .ok .directory :=
      fun p hp => hopen p (List.mem_cons_of_mem _ hp)
    have hpath : gs.open? path ≠ .ok .directory :=
      fun hdir => hopen path List.mem_cons_self (h.directories.symm.open? hdir)
    rw [all_cons]
    rcases @ofPath_cases config gs path hpath with ⟨hnone, hsame⟩ | ⟨l, hsome, htakes⟩
    · obtain ⟨hcopies, htaken⟩ := ih (h.congr hsame) hopen'
      rw [hnone]
      refine ⟨hcopies, fun a ha => ?_⟩
      obtain ⟨p, hp, hbefore⟩ := htaken a ha
      exact ⟨p, List.mem_cons_of_mem _ hp, hbefore⟩
    · obtain ⟨hcopies, htaken⟩ := ih (h.take htakes rfl) hopen'
      rw [hsome, Option.toList_some, List.singleton_append]
      refine ⟨by rwa [List.append_cons], fun a ha => ?_⟩
      rcases List.mem_cons.mp ha with rfl | ha
      · exact ⟨path, List.mem_cons_self, gs, _, done, h, htakes⟩
      · obtain ⟨p, hp, hbefore⟩ := htaken a ha
        exact ⟨p, List.mem_cons_of_mem _ hp, hbefore⟩

/-- **Removing all copies leaves the file system as it was.** -/
theorem same_discardAll (h : Copies fs gs text loaded) :
    Same (Loaded.discardAll gs loaded) fs := by
  induction loaded generalizing gs with
  | nil => exact h.same
  | cons l loaded ih =>
    obtain ⟨place, hholds, hrest⟩ := h.remove
    unfold Loaded.discardAll StagedFile.discard
    rw [remove_eq hholds]
    exact ih hrest

/-- A loaded file was copied from its source, if all paths are those of files. -/
theorem Takes.of_copies {bytes : ByteArray} (ht : Takes config gs path l hs)
    (h : Copies fs gs text done) (hfile : fs.HoldsAt path place bytes) :
    fs.HoldsAt path place l.source.text.toUTF8 := by
  obtain ⟨source, hsource⟩ := ht.read
  obtain rfl : place = source :=
    Except.ok.inj ((h.directories.resolve? hfile.resolve).symm.trans hsource.resolve)
  refine ⟨hfile.resolve, hfile.notDirectory, ?_⟩
  rcases h.cases place with ⟨a, -, hfree, -⟩ | hget
  · have hget := hfile.get
    rw [hfree.get] at hget
    cases hget
  · rw [← hget, hsource.get]

/-- A loaded file came from one of the paths and has the text that stood there. -/
structure Origin (config : Config) (fs : FileSystem) (paths : List Path) (l : Loaded) : Prop where
  mem : l.staged.source ∈ paths
  scratch : scratchPath? config l.staged.source = some l.staged.scratch
  name : l.source.path = l.staged.scratch
  held : ∃ place, fs.HoldsAt l.staged.source place l.source.text.toUTF8

theorem Origin.exists_holdsAt (h : Origin config fs paths l) :
    ∃ place bytes, fs.HoldsAt l.staged.source place bytes := by
  obtain ⟨place, hholds⟩ := h.held
  exact ⟨place, _, hholds⟩

/-- **Where loaded files come from**, if all paths are those of files. -/
theorem origin_of_mem_all (hfiles : ∀ path ∈ paths, ∃ bytes, fs.open? path = .ok (.file bytes))
    (hl : l ∈ (Loaded.all config fs paths).2) : Origin config fs paths l := by
  have hopen : ∀ path ∈ paths, fs.open? path ≠ .ok .directory :=
    fun path hpath => (hfiles path hpath).elim fun _ => open?_ne_directory
  obtain ⟨path, hpath, before, after, earlier, hbefore, ht⟩ :=
    (@copies_all config fs fs paths [] (.nil (.refl fs)) hopen).2 l hl
  obtain ⟨bytes, hfile⟩ := hfiles path hpath
  obtain ⟨place, hholds⟩ := exists_of_open?_file hfile
  refine ⟨ht.source ▸ hpath, ht.source ▸ ht.scratch, ht.name, place, ?_⟩
  rw [ht.source]
  exact ht.of_copies hbefore hholds

/-! ## Moving the copies back -/

/-- Every source has the given text, and nothing else has changed. -/
structure Restored (fs hs : FileSystem) (text : Loaded → String) (loaded : List Loaded) : Prop where
  base : hs.base = fs.base
  source : ∀ l ∈ loaded, ∀ place, fs.resolve? l.staged.source = .ok place →
    hs.get? place = some (.file (text l).toUTF8)
  rest : ∀ place, (∀ l ∈ loaded, fs.resolve? l.staged.source ≠ .ok place) →
    hs.get? place = fs.get? place

/-- **Moving all copies back** gives each source the text of its copy. Where several copies come
from one source, they have one text. -/
theorem restored_restoreAll (h : Copies fs gs text loaded)
    (hsources : ∀ l ∈ loaded, ∃ place bytes, fs.HoldsAt l.staged.source place bytes)
    (hagree : ∀ a ∈ loaded, ∀ b ∈ loaded, ∀ place, fs.resolve? a.staged.source = .ok place →
      fs.resolve? b.staged.source = .ok place → text a = text b) :
    Restored fs (Loaded.restoreAll gs loaded) text loaded := by
  induction loaded generalizing fs gs with
  | nil => exact ⟨h.base.symm, fun _ hl => (nomatch hl), fun place _ => h.same.get? place⟩
  | cons l loaded ih =>
    obtain ⟨source, bytes, hsource⟩ := hsources l List.mem_cons_self
    obtain ⟨moved, hrename, hcopies⟩ := h.restore hsource
    have hstep : Loaded.restoreAll gs (l :: loaded) = Loaded.restoreAll moved loaded := by
      rw [Loaded.restoreAll, StagedFile.restore, hrename]
      rfl
    -- what is left to do starts from the file system with the first source replaced
    have hdirs : SameDirectories fs (fs.put source (.file (text l).toUTF8)) :=
      sameDirectories_put hsource.notDirectory
    have hback {path : Path} {place : Place}
        (hr : (fs.put source (.file (text l).toUTF8)).resolve? path = .ok place) :
        fs.resolve? path = .ok place := hdirs.symm.resolve? hr
    have hrest := ih hcopies
      (fun a ha => by
        obtain ⟨place, old, hold⟩ := hsources a (List.mem_cons_of_mem _ ha)
        exact ⟨place, hold.put hsource _⟩)
      (fun a ha b hb place hra hrb => hagree a (List.mem_cons_of_mem _ ha) b
        (List.mem_cons_of_mem _ hb) place (hback hra) (hback hrb))
    rw [hstep]
    refine ⟨hrest.base.trans (base_put ..), fun a ha place hr => ?_, fun place hnone => ?_⟩
    · by_cases hlater : ∃ b ∈ loaded, fs.resolve? b.staged.source = .ok place
      · obtain ⟨b, hb, hrb⟩ := hlater
        rw [hrest.source b hb place (hdirs.resolve? hrb),
          hagree a ha b (List.mem_cons_of_mem _ hb) place hr hrb]
      · -- no later copy is moved there
        rcases List.mem_cons.mp ha with rfl | ha
        · obtain rfl := Except.ok.inj (hr.symm.trans hsource.resolve)
          rw [hrest.rest place fun b hb hrb => hlater ⟨b, hb, hback hrb⟩, get?_put, if_pos rfl]
        · exact absurd ⟨a, ha, hr⟩ hlater
    · have hne : place ≠ source := by
        rintro rfl
        exact hnone l List.mem_cons_self hsource.resolve
      rw [hrest.rest place fun b hb hrb => hnone b (List.mem_cons_of_mem _ hb) (hback hrb),
        get?_put, if_neg hne]

namespace Restored

variable (h : Restored fs hs text loaded)
  (hsources : ∀ l ∈ loaded, ∃ place bytes, fs.HoldsAt l.staged.source place bytes)
include h hsources

/-- What stands at a place: a source with its new text, or what stood there before. -/
theorem cases (place : Place) :
    (∃ l ∈ loaded, ∃ bytes, fs.HoldsAt l.staged.source place bytes ∧
      hs.get? place = some (.file (text l).toUTF8)) ∨ hs.get? place = fs.get? place := by
  by_cases hsource : ∃ l ∈ loaded, fs.resolve? l.staged.source = .ok place
  · obtain ⟨l, hl, hplace⟩ := hsource
    obtain ⟨place', bytes, hholds⟩ := hsources l hl
    obtain rfl := Except.ok.inj (hplace.symm.trans hholds.resolve)
    exact Or.inl ⟨l, hl, bytes, hholds, h.source l hl place hplace⟩
  · exact Or.inr (h.rest place fun l hl hplace => hsource ⟨l, hl, hplace⟩)

/-- Sources are files, so that the directories stay as they were. -/
theorem directories : SameDirectories fs hs := by
  refine sameDirectories_of_get? h.base.symm fun place => ?_
  rcases h.cases hsources place with ⟨l, -, bytes, hholds, hget⟩ | hget
  · exact Or.inr ⟨hholds.notDirectory, by rw [hget]; simp⟩
  · exact Or.inl hget.symm

/-- The same places are taken as before. -/
theorem isSome_get? (place : Place) : (hs.get? place).isSome = (fs.get? place).isSome := by
  rcases h.cases hsources place with ⟨l, -, bytes, hholds, hget⟩ | hget
  · rw [hget, hholds.get]
    rfl
  · rw [hget]

end Restored

end CudaToHip
