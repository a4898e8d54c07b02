import CudaToHip.Proofs.Plan.Fold

/-!
# The files of a batch do not influence each other

All files of a batch are scanned into one report for each view, and both reports are folded into one
plan. Still each file is on its own: what a plan holds for a path (`get?_plan`) and what its passes
record for it (`recordsFor_plan`) is read off the scans of the files of that path, whatever the
front end makes of the other files.

* `batch_isolates`: in a batch of different paths a file fares as it does alone.
-/

namespace CudaToHip

/-! ## What a pass records for a file -/

namespace PassSummary

/-- The diagnostics recorded for a file, in order. -/
def diagnosticsFor (s : PassSummary) (p : Path) : List Diagnostic :=
  (s.diagnostics.filter (·.1.same p)).map Prod.snd

/-- The entries of a file among the failed ones. -/
def failuresFor (s : PassSummary) (p : Path) : List Path := s.failedFiles.filter (·.same p)

end PassSummary

/-- What one pass records for a file. -/
structure PassRecord where
  view : View
  diagnostics : List Diagnostic
  failures : List Path
  deriving Repr, DecidableEq, Inhabited

/-- What the passes of a plan record for a file, pass by pass. -/
def Plan.recordsFor (plan : Plan) (p : Path) : List PassRecord :=
  plan.passes.map fun s => ⟨s.view, s.diagnosticsFor p, s.failuresFor p⟩

namespace Converter

variable (c : Converter)

/-- The scan of a file failed, on the way or altogether. -/
def fails (f : SourceFile) (view : View) : Bool :=
  !(diagnostics (c.frontEnd.scan f view)).isEmpty

theorem diagnosticsFor_runPass (files : List SourceFile) (view : View) (p : Path) :
    (c.runPass files view).summary.diagnosticsFor p =
      (files.filter (·.path.same p)).flatMap fun f => diagnostics (c.frontEnd.scan f view) := by
  have hdiagnostics : (c.runPass files view).summary.diagnostics = files.flatMap fun f =>
      (diagnostics (c.frontEnd.scan f view)).map (f.path, ·) := List.flatMap_map ..
  rw [PassSummary.diagnosticsFor, hdiagnostics, map_snd_filter_flatMap]

theorem failuresFor_runPass (files : List SourceFile) (view : View) (p : Path) :
    (c.runPass files view).summary.failuresFor p =
      ((files.filter (·.path.same p)).filter (c.fails · view)).map SourceFile.path := by
  have hfailed : (c.runPass files view).summary.failedFiles =
      (files.filter (c.fails · view)).map SourceFile.path := by
    show List.map Prod.fst (List.filter _ (List.map _ files)) = _
    rw [List.filter_map, List.map_map]
    rfl
  rw [PassSummary.failuresFor, hfailed, List.filter_map, List.filter_filter, List.filter_filter]
  simp only [Function.comp_apply, Bool.and_comm]

theorem passes_runPasses (files : List SourceFile) (views : List View) (plan : Plan) :
    (c.runPasses files views plan).passes =
      plan.passes ++ views.map fun view => (c.runPass files view).summary := by
  induction views generalizing plan with
  | nil => exact (List.append_nil _).symm
  | cons view rest ih =>
    show (c.runPasses files rest (plan.fold c.config (c.runPass files view))).passes = _
    rw [ih, List.map_cons, ← List.singleton_append, ← List.append_assoc]
    exact congrArg (· ++ _) (Plan.sameFrame_foldl_propose c.config _ _).passes

/-- **What the passes record for a path** is what the scans of its files report. -/
theorem recordsFor_plan (files : List SourceFile) (p : Path) :
    (c.plan files).recordsFor p = View.passOrder.map fun view =>
      ⟨view, (files.filter (·.path.same p)).flatMap fun f => diagnostics (c.frontEnd.scan f view),
        ((files.filter (·.path.same p)).filter (c.fails · view)).map SourceFile.path⟩ := by
  have hpasses : (c.plan files).passes =
      View.passOrder.map fun view => (c.runPass files view).summary :=
    (c.passes_runPasses files View.passOrder _).trans (List.nil_append _)
  rw [Plan.recordsFor, hpasses, List.map_map]
  refine List.map_congr_left fun view _ => ?_
  simp only [Function.comp_apply, diagnosticsFor_runPass, failuresFor_runPass]
  rfl

/-! ## A file among others -/

/-- In a batch of different paths, a file is the only one of its path. -/
theorem filter_same_of_distinct {files : List SourceFile} {f : SourceFile}
    (hdistinct : files.Pairwise fun a b => a.path.same b.path = false) (hf : f ∈ files) :
    files.filter (·.path.same f.path) = [f] := by
  induction files with
  | nil => cases hf
  | cons g rest ih =>
    obtain ⟨hg, hrest⟩ := List.pairwise_cons.mp hdistinct
    rcases List.mem_cons.mp hf with rfl | hf
    · have hnone : rest.filter (·.path.same f.path) = [] := by
        refine List.filter_eq_nil_iff.mpr fun g hgr => ?_
        rw [Path.same_comm, hg g hgr]
        exact Bool.false_ne_true
      rw [List.filter_cons, if_pos (Path.same_self _), hnone]
    · rw [List.filter_cons, if_neg (by simp [hg f hf]), ih hrest hf]

/-- **In a batch of different paths a file fares as it does alone.** Whatever a front end makes of
the other files, the plan of the batch holds the same set for the file, accepted edits and conflicts
alike, and its passes record the same diagnostics and failures for it, as the plan of the file
alone by any front end that scans it alike. -/
theorem batch_isolates (rules : Rules) (frontEnd frontEnd' : FrontEnd) {files : List SourceFile}
    {f : SourceFile} (hdistinct : files.Pairwise fun a b => a.path.same b.path = false)
    (hf : f ∈ files) (hagree : ∀ view, frontEnd.scan f view = frontEnd'.scan f view) :
    let batch := (Converter.mk frontEnd rules).plan files
    let alone := (Converter.mk frontEnd' rules).plan [f]
    batch.files.get? f.path = alone.files.get? f.path ∧
      batch.recordsFor f.path = alone.recordsFor f.path := by
  have hbatch := filter_same_of_distinct hdistinct hf
  have halone := filter_same_of_distinct (List.pairwise_singleton _ f) List.mem_cons_self
  constructor
  · have hdiscovered : (Converter.mk frontEnd rules).discovered files f.path =
        (Converter.mk frontEnd' rules).discovered [f] f.path := by
      simp only [discovered, hbatch, halone, List.flatMap_singleton, hagree]
    simp only [get?_plan, hdiscovered]
    rfl
  · have hfails (view : View) :
        [f].filter ((Converter.mk frontEnd rules).fails · view) =
          [f].filter ((Converter.mk frontEnd' rules).fails · view) := by
      simp only [List.filter_cons, List.filter_nil, fails, hagree]
    simp only [recordsFor_plan, hbatch, halone, List.flatMap_singleton, hfails, hagree]

/-- A front end that cannot scan a file named `broken.cu`, reports a problem in every other file
without text, and finds two calls at one place in the files that have text. -/
def fragileFrontEnd : FrontEnd where
  name := "fragile"
  scan f view :=
    if f.path = ⟨"broken.cu"⟩ then .error (.frontEnd (.noTree f.path))
    else if f.text = "" then .ok ⟨[], [⟨1, 1, "no text"⟩]⟩
    else .ok ⟨[.call "cudaMalloc" (.direct 0), .call "cudaMemcpy" (.direct 0)],
      [⟨2, 7, "syntax error under the " ++ view.label ++ " view"⟩]⟩

/-- The file stands between one that cannot be scanned and one with problems of its own; the second
front end finds a call in every file. -/
theorem batch_isolates_between_failures :
    let files : List SourceFile :=
      [⟨⟨"broken.cu"⟩, "cudaFree"⟩, ⟨⟨"x/a.cu"⟩, "cudaMalloc"⟩, ⟨⟨"x/b.cu"⟩, ""⟩]
    let f : SourceFile := ⟨⟨"x/a.cu"⟩, "cudaMalloc"⟩
    let lenient : FrontEnd := ⟨"lenient", fun g view =>
      if g.text = "cudaMalloc" then fragileFrontEnd.scan g view
      else .ok ⟨[.call "cudaFree" (.direct 0)], []⟩⟩
    let rules : Rules := ⟨.builtin, .default⟩
    (files.Pairwise fun a b => a.path.same b.path = false) ∧ f ∈ files ∧
    (∀ view, fragileFrontEnd.scan f view = lenient.scan f view) ∧
    ((Converter.mk fragileFrontEnd rules).plan files).files.get? f.path =
      ((Converter.mk lenient rules).plan [f]).files.get? f.path ∧
    ((Converter.mk fragileFrontEnd rules).plan files).recordsFor f.path =
      ((Converter.mk lenient rules).plan [f]).recordsFor f.path := by
  intro files f lenient rules
  have hdistinct : files.Pairwise fun a b => a.path.same b.path = false := by decide
  have hf : f ∈ files := by decide
  have hagree : ∀ view, fragileFrontEnd.scan f view = lenient.scan f view :=
    fun _ => rfl
  exact ⟨hdistinct, hf, hagree, batch_isolates rules fragileFrontEnd lenient hdistinct hf hagree⟩

end Converter

end CudaToHip
