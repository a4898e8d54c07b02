import CudaToHip.FileSystem
import CudaToHip.Proofs.Path
import Mathlib.Tactic.SplitIfs

/-!
# Looking up and changing files

Where a path leads to is a matter of its components (`place_of_resolve?`), so two spellings of one
path never lead to different places (`eq_of_same`), and whether it leads anywhere is a matter of the
directories alone (`SameDirectories.resolve?`). The operations on files keep all directories, and
each is described by what it does at one place: `exists_of_createNew`, `write_eq`, `remove_eq`,
`rename_eq`, `readText?_eq`.

`Same`: two file systems with the same entry at every place, however the entries are kept.
-/

namespace CudaToHip.FileSystem

variable {fs gs hs : FileSystem} {path : Path} {place other : Place} {bytes : ByteArray}

/-! ## Where a path leads to -/

/-- The place that one component leads to. -/
def follow (place : Place) : Path.Component → Place
  | .root => []
  | .here => place
  | .up => place.dropLast
  | .name s => place ++ [s]

/-- Descending follows the components of the pieces. -/
theorem place_of_descend {pieces : List (List Char)} (h : fs.descend place pieces = .ok other) :
    other = (pieces.filterMap Path.component?).foldl follow place := by
  induction pieces generalizing place with
  | nil => exact (Except.ok.inj h).symm
  | cons piece pieces ih =>
    rw [descend] at h
    split at h
    · cases h
    rw [List.filterMap_cons]
    unfold Path.component?
    split at h
    · rename_i hidle
      rw [if_pos hidle]
      exact ih h
    rename_i hidle
    rw [if_neg hidle]
    split at h
    · rename_i hup
      rw [if_pos hup]
      exact ih h
    rename_i hup
    rw [if_neg hup]
    split at h
    · cases h
    · exact ih h

theorem resolve?_eq_ok_iff : fs.resolve? path = .ok place ↔
    pathError? path = none ∧
      fs.descend (fs.start path) (Path.pieces path.text.toList) = .ok place := by
  unfold resolve?
  split
  · rename_i e he
    rw [he]
    exact ⟨(nomatch ·), fun h => nomatch h.1⟩
  · rename_i he
    exact ⟨fun h => ⟨he, h⟩, fun h => h.2⟩

/-- Behind the front of a path, its components are those of its pieces. -/
theorem exists_of_components (path : Path) : ∃ head,
    path.components = head ++ (Path.pieces path.text.toList).filterMap Path.component? ∧
      (path.isAbsolute = true ∧ head = [.root] ∨
        path.isAbsolute = false ∧ (head = [.here] ∨ head = [])) := by
  unfold Path.components Path.isAbsolute
  cases hsplit : path.split with
  | mk front rest =>
    unfold Path.split at hsplit
    split at hsplit
    all_goals obtain ⟨rfl, rfl⟩ := Prod.mk.inj hsplit
    · rename_i htext
      rw [htext]
      exact ⟨[.root], rfl, Or.inl ⟨rfl, rfl⟩⟩
    · rename_i htext
      rw [htext]
      exact ⟨[.here], rfl, Or.inr ⟨rfl, Or.inl rfl⟩⟩
    · rename_i htext
      rw [htext]
      exact ⟨[.here], rfl, Or.inr ⟨rfl, Or.inl rfl⟩⟩
    · rename_i hroot _ _
      refine ⟨[], rfl, Or.inr ⟨?_, Or.inr rfl⟩⟩
      rw [beq_eq_false_iff_ne]
      intro hhead
      obtain ⟨rest, hrest⟩ := List.head?_eq_some_iff.mp hhead
      exact hroot rest hrest

/-- **A path leads where its components do**, from where relative paths start. -/
theorem place_of_resolve? (h : fs.resolve? path = .ok place) :
    place = path.components.foldl follow fs.base := by
  obtain ⟨head, hcomponents, hhead⟩ := exists_of_components path
  rw [place_of_descend (resolve?_eq_ok_iff.mp h).2, hcomponents, List.foldl_append]
  congr 1
  unfold start
  rcases hhead with ⟨habsolute, rfl⟩ | ⟨hrelative, rfl | rfl⟩
  · rw [habsolute]
    rfl
  · rw [hrelative]
    rfl
  · rw [hrelative]
    rfl

/-- Two spellings of one path lead to one place. -/
theorem eq_of_same {p q : Path} (h : p.same q = true) (hp : fs.resolve? p = .ok place)
    (hq : fs.resolve? q = .ok other) : place = other := by
  rw [place_of_resolve? hp, place_of_resolve? hq, Path.same_iff.mp h]

/-- A file is made where the path leads, unless slashes behind its name ask for a directory. -/
theorem fileResolve?_eq_ok_iff : fs.fileResolve? path = .ok place ↔
    fs.resolve? path = .ok place ∧
      Path.beforeSlashedName? (Path.pieces path.text.toList) = none := by
  unfold fileResolve?
  split
  · rename_i before _ hbefore
    rw [hbefore]
    refine ⟨fun h => ?_, fun h => nomatch h.2⟩
    split at h <;> cases h
  · rename_i hother
    refine ⟨fun h => ⟨h, ?_⟩, fun h => h.1⟩
    cases hbefore : Path.beforeSlashedName? (Path.pieces path.text.toList) with
    | none => rfl
    | some before => exact absurd hbefore (hother before (resolve?_eq_ok_iff.mp h).1)

/-! ## Directories -/

/-- The two file systems have the same directories. -/
structure SameDirectories (fs gs : FileSystem) : Prop where
  base : fs.base = gs.base
  isDirectory : ∀ place, fs.isDirectory place = gs.isDirectory place

namespace SameDirectories

theorem symm (h : SameDirectories fs gs) : SameDirectories gs fs :=
  ⟨h.base.symm, fun place => (h.isDirectory place).symm⟩

theorem descend {pieces : List (List Char)} (h : SameDirectories fs gs)
    (hd : fs.descend place pieces = .ok other) : gs.descend place pieces = .ok other := by
  induction pieces generalizing place with
  | nil => exact hd
  | cons piece pieces ih =>
    rw [FileSystem.descend] at hd ⊢
    rw [← h.isDirectory place]
    split_ifs at hd ⊢ with hdir hidle hup hlong
    · exact ih hd
    · exact ih hd
    · exact ih hd

/-- **Whether and where a path leads is a matter of the directories.** -/
theorem resolve? (h : SameDirectories fs gs) (hp : fs.resolve? path = .ok place) :
    gs.resolve? path = .ok place := by
  obtain ⟨herror, hd⟩ := resolve?_eq_ok_iff.mp hp
  have hstart : fs.start path = gs.start path := by
    unfold start
    rw [h.base]
  exact resolve?_eq_ok_iff.mpr ⟨herror, hstart ▸ h.descend hd⟩

theorem fileResolve? (h : SameDirectories fs gs) (hp : fs.fileResolve? path = .ok place) :
    gs.fileResolve? path = .ok place := by
  obtain ⟨hr, hname⟩ := fileResolve?_eq_ok_iff.mp hp
  exact fileResolve?_eq_ok_iff.mpr ⟨h.resolve? hr, hname⟩

end SameDirectories

theorem isDirectory_congr (h : fs.get? place = gs.get? place) :
    fs.isDirectory place = gs.isDirectory place := by
  unfold isDirectory
  rw [h]

/-- Where nothing but files changes, all directories stay. -/
theorem sameDirectories_of_get? (hbase : fs.base = gs.base)
    (h : ∀ place, fs.get? place = gs.get? place ∨
      fs.isDirectory place = false ∧ gs.get? place ≠ some .directory) :
    SameDirectories fs gs := by
  refine ⟨hbase, fun place => ?_⟩
  rcases h place with h | ⟨hfs, hgs⟩
  · exact isDirectory_congr h
  · rw [hfs]
    unfold isDirectory at hfs ⊢
    rw [Bool.or_eq_false_iff] at hfs
    rw [hfs.1, decide_eq_false hgs]
    rfl

/-! ## Entries -/

/-- The two file systems have the same entry at every place. -/
structure Same (fs gs : FileSystem) : Prop where
  base : fs.base = gs.base
  get? : ∀ place, fs.get? place = gs.get? place

namespace Same

theorem refl (fs : FileSystem) : Same fs fs := ⟨rfl, fun _ => rfl⟩

theorem symm (h : Same fs gs) : Same gs fs := ⟨h.base.symm, fun place => (h.get? place).symm⟩

theorem trans (hfg : Same fs gs) (hgh : Same gs hs) : Same fs hs :=
  ⟨hfg.base.trans hgh.base, fun place => (hfg.get? place).trans (hgh.get? place)⟩

theorem directories (h : Same fs gs) : SameDirectories fs gs :=
  ⟨h.base, fun place => isDirectory_congr (h.get? place)⟩

end Same

theorem base_put (fs : FileSystem) (place : Place) (e : Entry) : (fs.put place e).base = fs.base := by
  unfold put
  split <;> rfl

theorem base_erase (fs : FileSystem) (place : Place) : (fs.erase place).base = fs.base := rfl

/-- A file put where no directory stands changes no directory. -/
theorem sameDirectories_put (h : fs.isDirectory place = false) :
    SameDirectories fs (fs.put place (.file bytes)) := by
  refine sameDirectories_of_get? (base_put fs place _).symm fun other => ?_
  rw [get?_put]
  split
  · rename_i heq
    subst heq
    exact Or.inr ⟨h, by simp⟩
  · exact Or.inl rfl

/-- What was put at a place is what stands there, whatever was put there before. -/
theorem same_put_put (fs : FileSystem) (place : Place) (d e : Entry) :
    Same ((fs.put place d).put place e) (fs.put place e) := by
  refine ⟨by simp only [base_put], fun other => ?_⟩
  simp only [get?_put]
  split <;> rfl

theorem Same.put (h : Same fs gs) (place : Place) (e : Entry) :
    Same (fs.put place e) (gs.put place e) :=
  ⟨by simp only [base_put, h.base], fun other => by simp only [get?_put, h.get?]⟩

/-- What stands at a place put there again. -/
theorem same_put_self {e : Entry} (h : fs.get? place = some e) : Same (fs.put place e) fs := by
  refine ⟨base_put fs place e, fun other => ?_⟩
  rw [get?_put]
  split
  · rename_i heq
    rw [heq, h]
  · rfl

theorem Same.erase (h : Same fs gs) (place : Place) : Same (fs.erase place) (gs.erase place) :=
  ⟨h.base, fun other => by simp only [get?_erase, h.get?]⟩

/-- What is put at a free place and erased again leaves nothing behind. -/
theorem same_erase_put (h : fs.get? place = none) (e : Entry) :
    Same ((fs.put place e).erase place) fs := by
  refine ⟨base_put fs place e, fun other => ?_⟩
  rw [get?_erase, get?_put]
  split
  · rename_i heq
    rw [heq, h]
  · rfl

/-! ## Files at a path -/

/-- The path leads to a file with these bytes. -/
structure HoldsAt (fs : FileSystem) (path : Path) (place : Place) (bytes : ByteArray) : Prop where
  resolve : fs.resolve? path = .ok place
  notDirectory : fs.isDirectory place = false
  get : fs.get? place = some (.file bytes)

/-- The path leads to a place where a file can be made, as nothing stands there yet. -/
structure VacantAt (fs : FileSystem) (path : Path) (place : Place) : Prop where
  resolve : fs.fileResolve? path = .ok place
  notDirectory : fs.isDirectory place = false
  get : fs.get? place = none

theorem VacantAt.unique (h : fs.VacantAt path place) (h' : fs.VacantAt path other) :
    place = other := Except.ok.inj (h.resolve.symm.trans h'.resolve)

theorem HoldsAt.unique {bytes' : ByteArray} (h : fs.HoldsAt path place bytes)
    (h' : fs.HoldsAt path other bytes') : place = other :=
  Except.ok.inj (h.resolve.symm.trans h'.resolve)

/-- Where a file is replaced, all paths to files still lead to files. -/
theorem HoldsAt.put {target : Path} {old old' : ByteArray} (h : fs.HoldsAt path place old)
    (htarget : fs.HoldsAt target other old') (bytes : ByteArray) :
    ∃ new, (fs.put other (.file bytes)).HoldsAt path place new := by
  have hdirs : SameDirectories fs (fs.put other (.file bytes)) :=
    sameDirectories_put htarget.notDirectory
  have hresolve := hdirs.resolve? h.resolve
  have hfile := (hdirs.isDirectory place).symm.trans h.notDirectory
  by_cases hplace : place = other
  · exact ⟨bytes, hresolve, hfile, by rw [get?_put, if_pos hplace]⟩
  · exact ⟨old, hresolve, hfile, by rw [get?_put, if_neg hplace, h.get]⟩

/-- Where a file is replaced, what is free stays free, and nothing else becomes free. -/
theorem vacantAt_put_iff {free : Path} (h : fs.HoldsAt path place bytes) {bytes' : ByteArray} :
    (fs.put place (.file bytes')).VacantAt free other ↔ fs.VacantAt free other := by
  have hdirs : SameDirectories fs (fs.put place (.file bytes')) :=
    sameDirectories_put h.notDirectory
  constructor
  · intro hfree
    have hget := hfree.get
    rw [get?_put] at hget
    split at hget
    · cases hget
    · exact ⟨hdirs.symm.fileResolve? hfree.resolve,
        (hdirs.isDirectory other).trans hfree.notDirectory, hget⟩
  · intro hfree
    refine ⟨hdirs.fileResolve? hfree.resolve,
      (hdirs.isDirectory other).symm.trans hfree.notDirectory, ?_⟩
    rw [get?_put, if_neg, hfree.get]
    rintro rfl
    have hget := h.get
    rw [hfree.get] at hget
    cases hget

/-- A file put at a free place stands there. -/
theorem VacantAt.holdsAt_put (h : fs.VacantAt path place)
    (hsame : Same gs (fs.put place (.file bytes))) : gs.HoldsAt path place bytes := by
  have hdirs : SameDirectories fs (fs.put place (.file bytes)) := sameDirectories_put h.notDirectory
  have hresolve := hdirs.resolve? (fileResolve?_eq_ok_iff.mp h.resolve).1
  refine ⟨hsame.symm.directories.resolve? hresolve, ?_, ?_⟩
  · rw [hsame.directories.isDirectory, ← hdirs.isDirectory]
    exact h.notDirectory
  · rw [hsame.get?, get?_put, if_pos rfl]

theorem isDirectory_of_get? (h : fs.get? place = some .directory) :
    fs.isDirectory place = true := by
  unfold isDirectory
  rw [h, decide_eq_true rfl, Bool.or_true]

theorem HoldsAt.open? (h : fs.HoldsAt path place bytes) : fs.open? path = .ok (.file bytes) := by
  simp [FileSystem.open?, h.resolve, h.notDirectory, h.get, bind, Except.bind, pure, Except.pure]

theorem exists_of_open? {e : Entry} (h : fs.open? path = .ok e) : ∃ place,
    fs.resolve? path = .ok place ∧
      (fs.isDirectory place = true ∧ e = .directory ∨
        fs.isDirectory place = false ∧ fs.get? place = some e) := by
  simp only [open?, bind, Except.bind] at h
  split at h
  · cases h
  · rename_i place hplace
    refine ⟨place, hplace, ?_⟩
    by_cases hdir : fs.isDirectory place = true
    · rw [if_pos hdir] at h
      exact Or.inl ⟨hdir, (Except.ok.inj h).symm⟩
    · rw [if_neg hdir] at h
      refine Or.inr ⟨by simpa using hdir, ?_⟩
      split at h
      · rename_i e' he
        rw [he]
        exact congrArg some (Except.ok.inj h)
      · cases h

theorem exists_of_open?_file (h : fs.open? path = .ok (.file bytes)) :
    ∃ place, fs.HoldsAt path place bytes := by
  obtain ⟨place, hplace, ⟨-, he⟩ | ⟨hdir, hget⟩⟩ := exists_of_open? h
  · cases he
  · exact ⟨place, hplace, hdir, hget⟩

theorem open?_ne_directory (h : fs.open? path = .ok (.file bytes)) :
    fs.open? path ≠ .ok .directory := by
  rw [h]
  exact nofun

/-- Whether a path opens as a directory is a matter of the directories. -/
theorem SameDirectories.open? (h : SameDirectories fs gs)
    (hopen : fs.open? path = .ok .directory) : gs.open? path = .ok .directory := by
  obtain ⟨place, hplace, hdir⟩ := exists_of_open? hopen
  have hfs : fs.isDirectory place = true := by
    rcases hdir with ⟨hdir, -⟩ | ⟨hdir, hget⟩
    · exact hdir
    · exact isDirectory_of_get? hget
  have hgs : gs.isDirectory place = true := (h.isDirectory place).symm.trans hfs
  simp [FileSystem.open?, h.resolve? hplace, hgs, bind, Except.bind, pure, Except.pure]

theorem readText?_eq (h : fs.HoldsAt path place bytes) : fs.readText? path =
    match String.fromUTF8? bytes with
    | some text => .ok text
    | none => .error .notText := by
  simp only [readText?, read?, h.open?, bind, Except.bind, Entry.bytes?]
  cases String.fromUTF8? bytes <;> rfl

theorem fromUTF8?_toUTF8 (text : String) : String.fromUTF8? text.toUTF8 = some text := by
  unfold String.fromUTF8?
  split
  · rfl
  · rename_i h
    exact absurd text.isValidUTF8 h

theorem eq_toUTF8_of_fromUTF8? {text : String} (h : String.fromUTF8? bytes = some text) :
    bytes = text.toUTF8 := by
  unfold String.fromUTF8? at h
  split at h
  · obtain rfl := Option.some.inj h
    rfl
  · cases h

/-! ## Replacing a file -/

/-- A path whose last piece is empty leads to a directory. -/
theorem isDirectory_of_descend {pieces : List (List Char)}
    (h : fs.descend place (pieces ++ [[]]) = .ok other) : fs.isDirectory other = true := by
  induction pieces generalizing place with
  | nil =>
    rw [List.nil_append, descend] at h
    split at h
    · cases h
    · rename_i hdir
      obtain rfl : place = other := Except.ok.inj h
      simpa using hdir
  | cons piece pieces ih =>
    rw [List.cons_append, descend] at h
    split_ifs at h
    · exact ih h
    · exact ih h
    · exact ih h

/-- What a path leads to can be written, if it is a file. -/
theorem HoldsAt.fileResolve? (h : fs.HoldsAt path place bytes) :
    fs.fileResolve? path = .ok place := by
  refine fileResolve?_eq_ok_iff.mpr ⟨h.resolve, ?_⟩
  unfold Path.beforeSlashedName?
  rw [if_neg]
  intro hslashed
  obtain ⟨pieces, hpieces⟩ := List.getLast?_eq_some_iff.mp hslashed
  have hdescend := (resolve?_eq_ok_iff.mp h.resolve).2
  rw [hpieces] at hdescend
  exact Bool.false_ne_true (h.notDirectory.symm.trans (isDirectory_of_descend hdescend))

/-- Something stands at the same places in both file systems, and the same of it is directories. -/
structure SameShape (fs gs : FileSystem) : Prop extends SameDirectories fs gs where
  isSome : ∀ place, (fs.get? place).isSome = (gs.get? place).isSome

namespace SameShape

theorem refl (fs : FileSystem) : SameShape fs fs := ⟨⟨rfl, fun _ => rfl⟩, fun _ => rfl⟩

theorem trans (hfg : SameShape fs gs) (hgh : SameShape gs hs) : SameShape fs hs :=
  ⟨⟨hfg.base.trans hgh.base, fun place => (hfg.isDirectory place).trans (hgh.isDirectory place)⟩,
    fun place => (hfg.isSome place).trans (hgh.isSome place)⟩

theorem descend (h : SameShape fs gs) (place : Place) (pieces : List (List Char)) :
    fs.descend place pieces = gs.descend place pieces := by
  induction pieces generalizing place with
  | nil => rfl
  | cons piece pieces ih =>
    have hlookup : fs.lookupError place = gs.lookupError place := by
      unfold lookupError
      rw [h.isSome]
    simp only [FileSystem.descend, h.isDirectory, hlookup, ih]

/-- Every path leads to the same place, or fails for the same cause. -/
theorem resolve? (h : SameShape fs gs) (path : Path) : fs.resolve? path = gs.resolve? path := by
  have hstart : fs.start path = gs.start path := by
    unfold start
    rw [h.base]
  unfold FileSystem.resolve?
  rw [hstart]
  split
  · rfl
  · exact h.descend _ _

end SameShape

/-- A file exchanged for a file changes no shape. -/
theorem HoldsAt.sameShape_put (h : fs.HoldsAt path place bytes) (new : ByteArray) :
    SameShape fs (fs.put place (.file new)) := by
  refine ⟨sameDirectories_put h.notDirectory, fun other => ?_⟩
  rw [get?_put]
  split
  · rename_i hother
    rw [hother, h.get]
    rfl
  · rfl

/-- The path leads to the same entry in both file systems, or to none in both. -/
structure SameAt (fs gs : FileSystem) (path : Path) : Prop where
  resolve : fs.resolve? path = gs.resolve? path
  get : ∀ place, fs.resolve? path = .ok place → fs.get? place = gs.get? place

namespace SameAt

theorem refl (fs : FileSystem) (path : Path) : SameAt fs fs path := ⟨rfl, fun _ _ => rfl⟩

theorem symm (h : SameAt fs gs path) : SameAt gs fs path :=
  ⟨h.resolve.symm, fun place hplace => (h.get place (h.resolve.trans hplace)).symm⟩

theorem trans (hfg : SameAt fs gs path) (hgh : SameAt gs hs path) : SameAt fs hs path :=
  ⟨hfg.resolve.trans hgh.resolve, fun place hplace =>
    (hfg.get place hplace).trans (hgh.get place (hfg.resolve.symm.trans hplace))⟩

theorem holdsAt (h : SameAt fs gs path) (hfs : fs.HoldsAt path place bytes) :
    gs.HoldsAt path place bytes := by
  have hget := h.get place hfs.resolve
  exact ⟨h.resolve.symm.trans hfs.resolve, (isDirectory_congr hget).symm.trans hfs.notDirectory,
    hget.symm.trans hfs.get⟩

theorem readText? (h : SameAt fs gs path) : fs.readText? path = gs.readText? path := by
  have hopen : fs.open? path = gs.open? path := by
    unfold open?
    rw [← h.resolve]
    cases hplace : fs.resolve? path with
    | error e => rfl
    | ok place =>
      have hget := h.get place hplace
      simp only [bind, Except.bind, isDirectory_congr hget, hget]
  unfold FileSystem.readText? read?
  rw [hopen]

end SameAt

theorem Same.sameAt (h : Same fs gs) (path : Path) : SameAt fs gs path where
  resolve := by
    have hshape : SameShape fs gs := ⟨h.directories, fun place => by rw [h.get?]⟩
    exact hshape.resolve? path
  get place _ := h.get? place

/-- A text is read from a file that holds it. -/
theorem exists_of_readText? {text : String} (h : fs.readText? path = .ok text) :
    ∃ place, fs.HoldsAt path place text.toUTF8 := by
  simp only [readText?, read?, bind, Except.bind] at h
  cases hopen : fs.open? path with
  | error e => rw [hopen] at h; cases h
  | ok e =>
    rw [hopen] at h
    cases e with
    | directory => cases h
    | file bytes =>
      dsimp only [Entry.bytes?] at h
      split at h
      · rename_i found hfound
        obtain rfl : found = text := Except.ok.inj h
        exact eq_toUTF8_of_fromUTF8? hfound ▸ exists_of_open?_file hopen
      · cases h

/-! ## Operations -/

theorem exists_of_createNew (h : fs.createNew path = .ok gs) :
    ∃ place, fs.VacantAt path place ∧ gs = fs.put place (.file .empty) := by
  simp only [createNew, bind, Except.bind] at h
  split at h
  · cases h
  · rename_i place hplace
    split at h
    · cases h
    · rename_i hfree
      rw [Bool.or_eq_true, not_or] at hfree
      exact ⟨place, ⟨hplace, by simpa using hfree.1, by simpa using hfree.2⟩,
        (Except.ok.inj h).symm⟩

theorem write_eq (hplace : fs.fileResolve? path = .ok place) (hdir : fs.isDirectory place = false)
    (bytes : ByteArray) : fs.write path bytes = .ok (fs.put place (.file bytes)) := by
  simp [write, hplace, hdir, bind, Except.bind, pure, Except.pure]

theorem exists_of_write (h : fs.write path bytes = .ok gs) : ∃ place,
    fs.fileResolve? path = .ok place ∧ fs.isDirectory place = false ∧
      gs = fs.put place (.file bytes) := by
  simp only [write, bind, Except.bind] at h
  split at h
  · cases h
  · rename_i place hplace
    split at h
    · cases h
    · rename_i hdir
      exact ⟨place, hplace, by simpa using hdir, (Except.ok.inj h).symm⟩

theorem remove_eq (h : fs.HoldsAt path place bytes) : fs.remove path = .ok (fs.erase place) := by
  simp [remove, h.resolve, h.notDirectory, h.get, bind, Except.bind, pure, Except.pure]

/-- A file moved over another one, or to a free place. -/
theorem rename_eq {target : Path} (h : fs.HoldsAt path place bytes)
    (htarget : fs.resolve? target = .ok other) (hdir : fs.isDirectory other = false)
    (hne : place ≠ other) :
    fs.rename path target = .ok ((fs.put other (.file bytes)).erase place) := by
  simp [rename, h.resolve, htarget, h.get, hdir, hne, bind, Except.bind, pure, Except.pure]

end CudaToHip.FileSystem
