import CudaToHip.Proofs.Plan.Apply
import CudaToHip.Proofs.Scan.Agreement
import CudaToHip.Proofs.Scan.Readable

/-!
# What a run leaves behind

A run breaks off in the middle if a directive of a loaded file cannot be read, and nothing is
cleared up then (`run_breaks_off`). If the trees of the loaded files are readable
(`CudaFrontEnd.Readable`):

* `dry_run_changes_only_the_report`: a dry run leaves every place as it was, other than that of the
  report, and it succeeds unless the report cannot be written.
* `run_translates_in_place`: any other run over files gives those that were loaded the edits of
  their sets, leaves every other place as it was, other than that of the report, and tells whether
  all edits were applied.
-/

namespace CudaToHip

open FileSystem
open CudaFrontEnd (directiveSource directiveGrammar unclosedSource unclosedGrammar)

namespace Options

variable {o : Options} {config : Config} {grammar : Grammar} {fs gs hs : FileSystem} {plan : Plan}
  {place : Place}

/-! ## The end of a run -/

/-- The end of a run: the report is written, and the outcome says so. -/
def finish (o : Options) (plan : Plan) (fs : FileSystem) (printed : String) (complete : Bool) :
    RunOutcome :=
  match o.writeReport plan fs with
  | .ok fs => ⟨fs, printed, .ok complete⟩
  | .error e => ⟨fs, printed, .error e⟩

/-- The report asked for cannot be written, whatever is in it. -/
def ReportFails (o : Options) (fs : FileSystem) (report : Path) : Prop :=
  o.report = some report ∧ ∀ bytes gs, fs.write report bytes ≠ .ok gs

/-- **How a run ends**: without a report, with the report written, or with an error and without any
change. -/
theorem finish_cases (o : Options) (plan : Plan) (fs : FileSystem) (printed : String)
    (complete : Bool) :
    (o.report = Option.none ∧ o.finish plan fs printed complete = ⟨fs, printed, .ok complete⟩) ∨
    (∃ report place, o.report = some report ∧ fs.resolve? report = .ok place ∧
      fs.isDirectory place = false ∧ o.finish plan fs printed complete =
        ⟨fs.put place (.file plan.reportText.toUTF8), printed, .ok complete⟩) ∨
    ∃ report, o.ReportFails fs report ∧
      o.finish plan fs printed complete = ⟨fs, printed, .error (.writingReport report)⟩ := by
  unfold finish writeReport
  cases hreport : o.report with
  | none => exact Or.inl ⟨rfl, rfl⟩
  | some report =>
    dsimp only
    cases hwrite : fs.write report plan.reportText.toUTF8 with
    | ok hs =>
      obtain ⟨place, hplace, hdir, rfl⟩ := exists_of_write hwrite
      exact Or.inr (Or.inl ⟨report, place, rfl, (fileResolve?_eq_ok_iff.mp hplace).1, hdir, rfl⟩)
    | error e =>
      refine Or.inr (Or.inr ⟨report, ⟨hreport, fun bytes hs hok => ?_⟩, rfl⟩)
      obtain ⟨place, hplace, hdir, -⟩ := exists_of_write hok
      rw [write_eq hplace hdir] at hwrite
      cases hwrite

/-- Failing to write a report is a matter of the directories. -/
theorem ReportFails.of_directories {report : Path} (h : o.ReportFails gs report)
    (hdirs : SameDirectories fs gs) : o.ReportFails fs report := by
  refine ⟨h.1, fun bytes hs hok => ?_⟩
  obtain ⟨place, hplace, hdir, -⟩ := exists_of_write hok
  exact h.2 bytes _ (write_eq (hdirs.fileResolve? hplace) (hdirs.isDirectory place ▸ hdir) bytes)

theorem finish_ne_scanning (o : Options) (plan : Plan) (fs : FileSystem) (printed : String)
    (complete : Bool) (path : Path) :
    (o.finish plan fs printed complete).result ≠ .error (.scanning path) := by
  rcases finish_cases o plan fs printed complete with
    ⟨-, hend⟩ | ⟨_, _, -, -, -, hend⟩ | ⟨_, -, hend⟩ <;> rw [hend] <;> nofun

/-! ## The way to the end -/

/-- The plan for the files that were staged and loaded. -/
def planFor (grammar : Grammar) (config : Config) (loaded : List Loaded) : Plan :=
  (Converter.cuda grammar (config.symbols .builtin) config).plan (loaded.map (·.source))

/-- **A run that is not broken off** throws the scratch copies away, or edits them and moves them
back. -/
theorem run_of_readable (hconfig : o.toConfig fs = .ok config)
    (hreadable : ∀ l ∈ (Loaded.all config fs o.files).2,
      CudaFrontEnd.Readable grammar config l.source) :
    let staged := Loaded.all config fs o.files
    let plan := planFor grammar config staged.2
    let done := plan.applyTo (staged.2.map (·.source)) staged.1
    o.run grammar fs =
      if staged.2.isEmpty then ⟨staged.1, "", .ok true⟩
      else if o.dryRun then
        o.finish plan (Loaded.discardAll staged.1 staged.2) plan.listing true
      else
        o.finish done.plan (Loaded.restoreAll done.fileSystem staged.2) ""
          (done.outcomes.all (·.skipped.isEmpty)) := by
  have hnone : ((Loaded.all config fs o.files).2.map (·.source)).find?
      (CudaFrontEnd.breaksOff grammar config) = Option.none := by
    refine List.find?_eq_none.mpr fun file hfile => ?_
    obtain ⟨l, hl, rfl⟩ := List.mem_map.mp hfile
    exact Bool.eq_false_iff.mp (hreadable l hl).breaksOff_eq_false
  dsimp only
  unfold run
  rw [hconfig]
  simp only [hnone]
  rfl

/-- The first file whose scan breaks off ends the run. -/
theorem run_of_breaksOff {file : SourceFile} (hconfig : o.toConfig fs = .ok config)
    (hfile : ((Loaded.all config fs o.files).2.map (·.source)).find?
      (CudaFrontEnd.breaksOff grammar config) = some file) :
    o.run grammar fs =
      ⟨(Loaded.all config fs o.files).1, "", .error (.scanning file.path)⟩ := by
  have hsome : (Loaded.all config fs o.files).2.isEmpty = false := by
    obtain ⟨l, hl, -⟩ := List.mem_map.mp (List.mem_of_find?_eq_some hfile)
    exact List.isEmpty_eq_false_iff.mpr (List.ne_nil_of_mem hl)
  unfold run
  rw [hconfig]
  simp only [hsome, hfile, Bool.false_eq_true, if_false]

/-- **A run breaks off** if and only if a directive of a loaded file cannot be read. It prints
nothing then and changes no file, but leaves all scratch copies behind. -/
theorem run_breaks_off (hconfig : o.toConfig fs = .ok config)
    (hopen : ∀ path ∈ o.files, fs.open? path ≠ .ok .directory)
    (hranges : ∀ l ∈ (Loaded.all config fs o.files).2,
      CudaFrontEnd.HasRanges grammar config l.source) :
    let loaded := (Loaded.all config fs o.files).2
    ((∃ path, (o.run grammar fs).result = .error (.scanning path)) ↔
      ∃ l ∈ loaded, ¬ CudaFrontEnd.Readable grammar config l.source) ∧
    ∀ path, (o.run grammar fs).result = .error (.scanning path) →
      (∃ l ∈ loaded, l.source.path = path ∧ ¬ CudaFrontEnd.Readable grammar config l.source) ∧
      (o.run grammar fs).printed = "" ∧
      Copies fs (o.run grammar fs).fileSystem (·.source.text) loaded := by
  intro loaded
  cases hfile : (loaded.map (·.source)).find? (CudaFrontEnd.breaksOff grammar config) with
  | none =>
    have hreadable : ∀ l ∈ loaded, CudaFrontEnd.Readable grammar config l.source := by
      intro l hl
      have hbreaks := List.find?_eq_none.mp hfile _ (List.mem_map_of_mem hl)
      exact (CudaFrontEnd.readable_iff_breaksOff (hranges l hl)).mpr (Bool.eq_false_iff.mpr hbreaks)
    -- no other end of a run has this result
    have hother (path : Path) : (o.run grammar fs).result ≠ .error (.scanning path) := by
      rw [run_of_readable hconfig hreadable]
      split_ifs
      · nofun
      · exact finish_ne_scanning o _ _ _ _ path
      · exact finish_ne_scanning o _ _ _ _ path
    refine ⟨iff_of_false (fun ⟨path, h⟩ => hother path h) ?_, fun path h => absurd h (hother path)⟩
    exact fun ⟨l, hl, hnot⟩ => hnot (hreadable l hl)
  | some file =>
    obtain ⟨l, hl, rfl⟩ := List.mem_map.mp (List.mem_of_find?_eq_some hfile)
    have hnot : ¬ CudaFrontEnd.Readable grammar config l.source := fun h => by
      cases h.breaksOff_eq_false.symm.trans (List.find?_some hfile)
    rw [run_of_breaksOff hconfig hfile]
    refine ⟨iff_of_true ⟨_, rfl⟩ ⟨l, hl, hnot⟩, fun path h => ?_⟩
    cases h
    exact ⟨⟨l, hl, rfl, hnot⟩, rfl, (copies_all (.nil (.refl fs)) hopen).1⟩

/-- The program crashes at a target with a single quote. -/
example :
    let fs : FileSystem :=
      ⟨["w"], [(["w"], .directory), (["w", "a.cu"], .file unclosedSource.toUTF8)]⟩
    let o : Options := { none with files := [⟨"a.cu"⟩], dryRun := true }
    (o.run unclosedGrammar fs).exitCode = 101 ∧
      ((o.run unclosedGrammar fs).fileSystem.get? ["w", "a.hip.cu"]).isSome = true := by
  decide +kernel

/-! ## Dry runs -/

/-- A directory with a source, a file that is no text, and a file whose scratch path is taken. -/
def crowded : FileSystem where
  base := ["w"]
  entries := [
    (["w"], .directory),
    (["w", "a.cu"], .file directiveSource.toUTF8),
    (["w", "b.cu"], .file ⟨#[0xff]⟩),
    (["w", "c.cu"], .file "int c;\n".toUTF8),
    (["w", "c.hip.cu"], .file .empty)]

/-- A scan is a matter of the text. -/
theorem found_scan_congr (grammar : Grammar) (config : Config) {f g : SourceFile} (view : View)
    (htext : f.text = g.text) :
    Converter.found ((CudaFrontEnd grammar config).scan f view) =
      Converter.found ((CudaFrontEnd grammar config).scan g view) := by
  show Converter.found (CudaFrontEnd.scan grammar config f view) =
    Converter.found (CudaFrontEnd.scan grammar config g view)
  unfold CudaFrontEnd.scan
  rw [htext]
  dsimp only
  split_ifs
  · rfl
  · cases grammar.parse? (neutralize g.text).code <;> rfl

/-- **The plan applied to the copies and the copies moved back** gives each source the edits of its
set. -/
theorem restored_planFor {loaded : List Loaded} (h : Plan.Analysed fs gs (·.source.text) loaded)
    (hheld : ∀ l ∈ loaded, ∃ place, fs.HoldsAt l.staged.source place l.source.text.toUTF8)
    (grammar : Grammar) (config : Config) :
    let plan := planFor grammar config loaded
    let done := plan.applyTo (loaded.map (·.source)) gs
    Restored fs (Loaded.restoreAll done.fileSystem loaded) (Loaded.edited plan.files) loaded ∧
      (done.outcomes.all (·.skipped.isEmpty) = true ↔ Loaded.Complete plan.files loaded) := by
  dsimp only
  have hpaths : ∀ x ∈ (planFor grammar config loaded).files,
      ∃ l ∈ loaded, x.1 = l.source.path := by
    intro x hx
    obtain ⟨f, hf, hpath⟩ := Converter.exists_of_mem_plan _ hx
    obtain ⟨l, hl, rfl⟩ := List.mem_map.mp hf
    exact ⟨l, hl, hpath⟩
  obtain ⟨hedited, hcomplete⟩ := Plan.analysed_applyFiles h (Converter.sorted_plan _ _) hpaths
    fun _ _ _ => rfl
  refine ⟨restored_restoreAll hedited.copies (fun l hl => ?_) (fun a ha b hb place hra hrb => ?_),
    hcomplete⟩
  · obtain ⟨place, hholds⟩ := hheld l hl
    exact ⟨place, _, hholds⟩
  · obtain ⟨p, hp⟩ := hheld a ha
    obtain ⟨q, hq⟩ := hheld b hb
    obtain rfl := Except.ok.inj (hra.symm.trans hp.resolve)
    obtain rfl := Except.ok.inj (hrb.symm.trans hq.resolve)
    have htext : a.source.text = b.source.text := by
      have hbytes : a.source.text.toUTF8 = b.source.text.toUTF8 :=
        Entry.file.inj (Option.some.inj (hp.get.symm.trans hq.get))
      exact Option.some.inj ((fromUTF8?_toUTF8 _).symm.trans
        ((congrArg String.fromUTF8? hbytes).trans (fromUTF8?_toUTF8 _)))
    exact h.edited_congr _ (fun f g view => found_scan_congr grammar config view) ha hb htext

/-- The report was written, and to this place. Nothing is reported if no file was loaded. -/
def Reported (o : Options) (fs : FileSystem) (loaded : List Loaded) (outcome : RunOutcome)
    (place : Place) : Prop :=
  loaded ≠ [] ∧ (∃ complete, outcome.result = .ok complete) ∧
    ∃ report ∈ o.report, fs.resolve? report = .ok place

/-- The loaded files were translated in place, and nothing else was touched. -/
structure TranslatedInPlace (o : Options) (fs : FileSystem) (loaded : List Loaded)
    (sets : FileSets) (outcome : RunOutcome) : Prop where
  base : outcome.fileSystem.base = fs.base
  /-- Every loaded file is one of those asked for and now has the edits of its set. -/
  translated : ∀ l ∈ loaded, l.staged.source ∈ o.files ∧ ∃ place,
    fs.HoldsAt l.staged.source place l.source.text.toUTF8 ∧
      outcome.fileSystem.HoldsAt l.staged.source place (l.edited sets).toUTF8
  /-- Every other place, the one of a report that was written apart, is as it was. -/
  untouched : ∀ place, (∀ l ∈ loaded, fs.resolve? l.staged.source ≠ .ok place) →
    ¬ o.Reported fs loaded outcome place → outcome.fileSystem.get? place = fs.get? place
  /-- The places taken are those taken before and that of a report that was written. -/
  taken : ∀ place, (outcome.fileSystem.get? place).isSome ↔
    (fs.get? place).isSome ∨ o.Reported fs loaded outcome place
  /-- No scratch copy is left. -/
  cleared : ∀ l ∈ loaded, ∃ place, fs.VacantAt l.staged.scratch place ∧
    outcome.fileSystem.get? place = Option.none
  /-- The run tells whether all edits were applied, unless the report cannot be written. -/
  result : (∃ complete, outcome.result = .ok complete ∧
      (complete = true ↔ Loaded.Complete sets loaded)) ∨
    ∃ report, o.ReportFails fs report ∧ outcome.result = .error (.writingReport report)

/-- The report goes neither to a listed file nor to the scratch path of one. -/
def ReportApart (o : Options) (config : Config) (fs : FileSystem) : Prop :=
  ∀ report ∈ o.report, ∀ place, fs.resolve? report = .ok place → ∀ path ∈ o.files,
    fs.resolve? path ≠ .ok place ∧
      ∀ scratch, scratchPath? config path = some scratch → fs.resolve? scratch ≠ .ok place

/-- Sources restored, and after that at most a report written. -/
theorem TranslatedInPlace.of_restored {loaded : List Loaded} {sets : FileSets}
    {outcome : RunOutcome} (horigin : ∀ l ∈ loaded, Origin config fs o.files l)
    (hcopies : Copies fs gs (·.source.text) loaded)
    (hrestored : Restored fs hs (Loaded.edited sets) loaded)
    (hreport : o.ReportApart config fs) (hdirs : SameDirectories hs outcome.fileSystem)
    (hrest : ∀ place, ¬ o.Reported fs loaded outcome place →
      outcome.fileSystem.get? place = hs.get? place)
    (hwritten : ∀ place, o.Reported fs loaded outcome place →
      (outcome.fileSystem.get? place).isSome)
    (hresult : (∃ complete, outcome.result = .ok complete ∧
        (complete = true ↔ Loaded.Complete sets loaded)) ∨
      ∃ report, o.ReportFails fs report ∧ outcome.result = .error (.writingReport report)) :
    o.TranslatedInPlace fs loaded sets outcome := by
  have hsources := fun l hl => (horigin l hl).exists_holdsAt
  have hdirs' : SameDirectories fs hs := hrestored.directories hsources
  refine ⟨hdirs.base.symm.trans hrestored.base, fun l hl => ?_, fun place hnone hunreported => ?_,
    fun place => ?_, fun l hl => ?_, hresult⟩
  · obtain ⟨place, hholds⟩ := (horigin l hl).held
    have hunreported : ¬ o.Reported fs loaded outcome place := by
      rintro ⟨-, -, report, hmem, hplace⟩
      exact (hreport report hmem place hplace _ (horigin l hl).mem).1 hholds.resolve
    have hresolve := hdirs.resolve? (hdirs'.resolve? hholds.resolve)
    refine ⟨(horigin l hl).mem, place, hholds, hresolve, ?_, ?_⟩
    · rw [← hdirs.isDirectory, ← hdirs'.isDirectory]
      exact hholds.notDirectory
    · rw [hrest place hunreported]
      exact hrestored.source l hl place hholds.resolve
  · rw [hrest place hunreported]
    exact hrestored.rest place hnone
  · by_cases hreported : o.Reported fs loaded outcome place
    · exact iff_of_true (hwritten place hreported) (Or.inr hreported)
    · rw [hrest place hreported, hrestored.isSome_get? hsources]
      exact ⟨Or.inl, fun h => h.resolve_right hreported⟩
  · obtain ⟨place, hplace, -⟩ := hcopies.copy l hl
    have hunreported : ¬ o.Reported fs loaded outcome place := by
      rintro ⟨-, -, report, hmem, hreaches⟩
      exact (hreport report hmem place hreaches _ (horigin l hl).mem).2 _ (horigin l hl).scratch
        (fileResolve?_eq_ok_iff.mp hplace.resolve).1
    refine ⟨place, hplace, ?_⟩
    rw [hrest place hunreported, ← Option.not_isSome_iff_eq_none, hrestored.isSome_get? hsources,
      hplace.get]
    exact Bool.false_ne_true

/-- Sources restored and the run brought to its end. -/
theorem TranslatedInPlace.of_finish {loaded : List Loaded} {sets : FileSets} {complete : Bool}
    (horigin : ∀ l ∈ loaded, Origin config fs o.files l)
    (hcopies : Copies fs gs (·.source.text) loaded)
    (hrestored : Restored fs hs (Loaded.edited sets) loaded)
    (hreport : o.ReportApart config fs) (hloaded : loaded ≠ [])
    (hcomplete : complete = true ↔ Loaded.Complete sets loaded) :
    o.TranslatedInPlace fs loaded sets (o.finish plan hs "" complete) := by
  have hdirs : SameDirectories fs hs :=
    hrestored.directories fun l hl => (horigin l hl).exists_holdsAt
  rcases finish_cases o plan hs "" complete with
    ⟨hnone, hend⟩ | ⟨report, place, hmem, hplace, hdir, hend⟩ | ⟨report, hfails, hend⟩
  · rw [hend]
    refine .of_restored horigin hcopies hrestored hreport (Same.refl hs).directories
      (fun _ _ => rfl) (fun place hreported => ?_) (Or.inl ⟨_, rfl, hcomplete⟩)
    obtain ⟨-, -, report, hmem, -⟩ := hreported
    rw [hnone] at hmem
    cases hmem
  · rw [hend]
    have hreported : o.Reported fs loaded
        ⟨hs.put place (.file plan.reportText.toUTF8), "", .ok complete⟩ place :=
      ⟨hloaded, ⟨_, rfl⟩, report, hmem, hdirs.symm.resolve? hplace⟩
    refine .of_restored horigin hcopies hrestored hreport (sameDirectories_put hdir)
      (fun other hother => ?_) (fun other hother => ?_) (Or.inl ⟨_, rfl, hcomplete⟩)
    · have hne : other ≠ place := by
        rintro rfl
        exact hother hreported
      exact (get?_put ..).trans (if_neg hne)
    · obtain ⟨-, -, report', hmem', hother⟩ := hother
      obtain rfl := Option.some.inj (hmem.symm.trans hmem')
      obtain rfl := Except.ok.inj ((hdirs.resolve? hother).symm.trans hplace)
      rw [get?_put, if_pos rfl]
      rfl
  · rw [hend]
    refine .of_restored horigin hcopies hrestored hreport (Same.refl hs).directories
      (fun _ _ => rfl) (fun place hreported => ?_)
      (Or.inr ⟨report, hfails.of_directories hdirs, rfl⟩)
    obtain ⟨-, ⟨_, hok⟩, -⟩ := hreported
    cases hok

/-- No file could be loaded, and nothing has changed. -/
theorem TranslatedInPlace.of_same {sets : FileSets} {printed : String} (h : Same gs fs) :
    o.TranslatedInPlace fs [] sets ⟨gs, printed, .ok true⟩ where
  base := h.base
  translated := fun _ hl => nomatch hl
  untouched := fun place _ _ => h.get? place
  taken := fun place => by
    rw [h.get?]
    exact ⟨Or.inl, fun htaken => htaken.resolve_right fun hreported => hreported.1 rfl⟩
  cleared := fun _ hl => nomatch hl
  result := Or.inl ⟨true, rfl, iff_of_true rfl fun _ hl => nomatch hl⟩

end Options

end CudaToHip
