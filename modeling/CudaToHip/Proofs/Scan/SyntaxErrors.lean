import CudaToHip.Proofs.Scan.Nested
import CudaToHip.Proofs.Token.Geometry
import CudaToHip.Proofs.Tree.Outermost
import Mathlib.Data.List.TakeWhile

/-!
# Broken files

The search for errors goes down only below nodes that report trouble, and a strict scan looks at the
tree only if the search came back with nothing. So what a strict scan makes of a broken file depends
on the flags of its tree.

* `SyntaxErrors.collected_of_flagged`: if all nodes above a bad one report trouble, the search finds
  the outermost bad nodes, as a search of the whole tree does.
* `SyntaxErrors.scan_ne_nil_iff`: of a tree that reports trouble there is a diagnostic exactly if
  the flags lead to a bad node.
* `CudaFrontEnd.diagnostics_of_flagged`: then the diagnostics are those of the outermost bad nodes,
  in both views, tolerant or not, and a strict scan finds the directives of a broken file.
* `CudaFrontEnd.strict_scan_of_trouble`: what a strict scan does if the root reports trouble,
  whatever the flags below it are. Where nothing bad is found, it goes on as if nothing were wrong;
  `CudaFrontEnd.hidden_error_is_searched` has a source where this is so.
-/

namespace CudaToHip

open CudaToHip.Tree

namespace SyntaxErrors

variable {source : String} {tree : Node} {s t : Site}

/-! ## What is wrong with a tree -/

/-- The node is an error or was put in by the parser. -/
def badNode (n : Node) : Bool := isBad (.root n)

/-- The bad sites with no bad node above them, in preorder. -/
def outermostBad (tree : Node) : List Site := (Site.root tree).all.filter (Site.isTopmost badNode)

/-- The bad sites that the search finds. -/
def collected (tree : Node) : List Site := ((Site.root tree).outermost isSettled).filter isBad

/-- A tree with a bad node reports trouble, and so does every node above the bad one. The bad node
itself need not. -/
def Flagged (tree : Node) : Prop :=
  ∀ s, (Site.root tree).Reaches s → isBad s = true →
    tree.label.hasError = true ∧ ∀ n ∈ s.up, n.label.hasError = true

instance (tree : Node) : Decidable (Flagged tree) :=
  inferInstanceAs (Decidable (∀ s, (Site.root tree).Reaches s → _))

/-- There is a bad node, and every node above it reports trouble. -/
def Announced (tree : Node) : Prop :=
  ∃ s, (Site.root tree).Reaches s ∧ isBad s = true ∧ ∀ n ∈ s.up, n.label.hasError = true

/-! ## What the search finds -/

theorem collected_eq_filter (tree : Node) : collected tree =
    (Site.root tree).all.filter fun s =>
      isBad s && s.up.all fun n => !badNode n && n.label.hasError := by
  have houter : (Site.root tree).outermost isSettled =
      (Site.root tree).all.filter (Site.isTopmost fun n => isSettled (.root n)) :=
    Site.outermost_eq_filter (q := fun n => isSettled (.root n)) rfl
  rw [collected, houter, List.filter_filter]
  refine List.filter_congr fun s _ => ?_
  cases hbad : isBad s with
  | false => rfl
  | true =>
    have hsettled : isSettled (.root s.node) = true := by
      show (isBad s || !s.node.label.hasError) = true
      rw [hbad, Bool.true_or]
    rw [Site.isTopmost, hsettled, List.not_any_eq_all_not]
    simp [isSettled, badNode, Site.root]

/-- A bad site that has only nodes above it that report trouble is found, or one above it is. -/
theorem exists_collected_of_reaches (h : (Site.root tree).Reaches t) (hbad : isBad t = true)
    (hup : ∀ n ∈ t.up, n.label.hasError = true) : ∃ s ∈ collected tree, s.Reaches t := by
  have hsettled : isSettled t = true := by rw [isSettled, hbad, Bool.true_or]
  obtain ⟨s, hs, hst⟩ := Site.exists_mem_outermost_of_reaches h hsettled
  refine ⟨s, List.mem_filter.mpr ⟨hs, ?_⟩, hst⟩
  rcases hst.eq_or_child with rfl | ⟨c, hc, hct⟩
  · exact hbad
  · -- the search does not end at a node that reports trouble unless it is bad
    have herror : s.node.label.hasError = true := hup _ (Site.node_mem_up hc hct)
    have hends := (Site.of_mem_outermost hs).2
    rwa [isSettled, herror, Bool.not_true, Bool.or_false] at hends

theorem collected_ne_nil_iff : collected tree ≠ [] ↔ Announced tree := by
  constructor
  · intro h
    obtain ⟨s, hs⟩ := List.exists_mem_of_ne_nil _ h
    rw [collected_eq_filter, List.mem_filter, Bool.and_eq_true, List.all_eq_true] at hs
    obtain ⟨hs, hbad, hup⟩ := hs
    exact ⟨s, Site.mem_all.mp hs, hbad, fun n hn => (Bool.and_eq_true_iff.mp (hup n hn)).2⟩
  · rintro ⟨t, ht, hbad, hup⟩
    obtain ⟨s, hs, -⟩ := exists_collected_of_reaches ht hbad hup
    exact List.ne_nil_of_mem hs

instance (tree : Node) : Decidable (Announced tree) :=
  decidable_of_iff (collected tree ≠ []) collected_ne_nil_iff

theorem scan_of_hasError (h : tree.label.hasError = true) :
    scan source tree = (collected tree).map (diagnostic source) := by
  rw [scan, if_pos h]
  rfl

/-- **When there is a diagnostic**: the flags lead to a bad node. -/
theorem scan_ne_nil_iff (h : tree.label.hasError = true) :
    scan source tree ≠ [] ↔ Announced tree := by
  rw [scan_of_hasError h, ne_eq, List.map_eq_nil_iff]
  exact collected_ne_nil_iff

/-! ## Flags that can be trusted -/

/-- The search of the whole tree finds the outermost bad sites. -/
theorem outermost_isBad (tree : Node) : (Site.root tree).outermost isBad = outermostBad tree :=
  Site.outermost_eq_filter (q := badNode) rfl

/-- **The search by the flags finds the outermost bad sites**, if the flags can be trusted. -/
theorem collected_of_flagged (h : Flagged tree) : collected tree = outermostBad tree := by
  rw [collected_eq_filter, outermostBad]
  refine List.filter_congr fun s hs => ?_
  rw [Site.isTopmost, List.not_any_eq_all_not]
  show _ = (isBad s && _)
  cases hbad : isBad s with
  | false => rfl
  | true =>
    have hup := (h s (Site.mem_all.mp hs) hbad).2
    rw [Bool.true_and, Bool.true_and]
    rw [Bool.eq_iff_iff, List.all_eq_true, List.all_eq_true]
    exact forall₂_congr fun n hn => by rw [hup n hn, Bool.and_true]

/-- Flags that can be trusted say that something is wrong with a tree that has something bad. -/
theorem hasError_of_mem (h : Flagged tree) (hs : s ∈ outermostBad tree) :
    tree.label.hasError = true := by
  obtain ⟨hs, htop⟩ := List.mem_filter.mp hs
  exact (h s (Site.mem_all.mp hs) (Bool.and_eq_true_iff.mp htop).1).1

theorem scan_of_flagged (h : Flagged tree) :
    scan source tree = (outermostBad tree).map (diagnostic source) := by
  by_cases herror : tree.label.hasError = true
  · rw [scan_of_hasError herror, collected_of_flagged h]
  · have hnone : outermostBad tree = [] :=
      List.eq_nil_iff_forall_not_mem.mpr fun s hs => herror (hasError_of_mem h hs)
    rw [scan, if_neg herror, hnone, List.map_nil]

end SyntaxErrors

namespace CudaFrontEnd

open Constructs

variable {grammar : Grammar} {config : Config} {file : SourceFile} {view : View} {source : String}
  {tree : Node}

/-! ## The layers of a scan -/

/-- The preprocessor's layer of a scan is what stands in front of all other matches. -/
theorem takeWhile_isDirective_found (config : Config) (view : View) (source : String)
    (tree : Node) :
    (scanTree config view source tree).found.takeWhile (·.isDirective) =
      Directives.scan source tree := by
  have hnone : (constructs config (·.visibleIn view) source tree).takeWhile (·.isDirective) = [] :=
    List.takeWhile_eq_nil_iff.mpr fun h hm =>
      have hfirst := isDirective_of_mem_constructs (List.get_mem _ ⟨0, h⟩)
      Bool.false_ne_true (hfirst.symm.trans hm)
  rw [found_scanTree, List.takeWhile_append_of_pos fun m hm => Directives.isDirective_of_mem_scan hm,
    hnone, List.append_nil]

/-- All matches of the preprocessor are in its layer. -/
theorem filter_isDirective_found (config : Config) (view : View) (source : String) (tree : Node) :
    (scanTree config view source tree).found.filter (·.isDirective) =
      Directives.scan source tree := by
  have hnone : (constructs config (·.visibleIn view) source tree).filter (·.isDirective) = [] :=
    List.filter_eq_nil_iff.mpr fun m hm => by simp [isDirective_of_mem_constructs hm]
  have hall : (Directives.scan source tree).filter (·.isDirective) = Directives.scan source tree :=
    List.filter_eq_self.mpr fun m hm => Directives.isDirective_of_mem_scan hm
  rw [found_scanTree, List.filter_append, hall, hnone, List.append_nil]

/-- A scan without diagnostics is the tolerant scan. -/
theorem scanTree_of_diagnostics_eq_nil (h : SyntaxErrors.scan source tree = []) :
    scanTree config view source tree =
      scanTree { config with tolerant := true } view source tree := by
  unfold scanTree
  simp only [h, List.isEmpty_nil, Bool.true_or, if_true]
  rfl

/-- A strict scan with diagnostics finds directives only. -/
theorem found_of_diagnostics_ne_nil (hstrict : config.tolerant = false)
    (h : SyntaxErrors.scan source tree ≠ []) :
    (scanTree config view source tree).found = Directives.scan source tree := by
  have hsearched : isSearched config source tree = false := by simp [isSearched, h, hstrict]
  rw [found_scanTree, constructs, if_neg (Bool.eq_false_iff.mp hsearched), List.append_nil]

/-! ## Scans of broken files -/

/-- **A strict scan of a tree that reports trouble** has a diagnostic and finds nothing but
directives exactly if the flags lead to a bad node. If they do it finds all directives, and if they
do not it is the tolerant scan, without a diagnostic. -/
theorem strict_scan_of_trouble (hsize : file.text.utf8ByteSize ≤ config.maxFileSize)
    (hparse : grammar.parse? (neutralize file.text).code = some tree)
    (hstrict : config.tolerant = false) (herror : tree.label.hasError = true) (view : View) :
    ∃ result, scan grammar config file view = .ok result ∧
      ((result.diagnostics ≠ [] ∧ ∀ m ∈ result.found, m.isDirective = true) ↔
        SyntaxErrors.Announced tree) ∧
      (SyntaxErrors.Announced tree → result.found = Directives.scan file.text tree) ∧
      (¬ SyntaxErrors.Announced tree → result.diagnostics = [] ∧
        scan grammar { config with tolerant := true } file view = .ok result) := by
  have hiff : SyntaxErrors.scan file.text tree ≠ [] ↔ SyntaxErrors.Announced tree :=
    SyntaxErrors.scan_ne_nil_iff herror
  have hfound (h : SyntaxErrors.Announced tree) :
      (scanTree config view file.text tree).found = Directives.scan file.text tree :=
    found_of_diagnostics_ne_nil hstrict (hiff.mpr h)
  refine ⟨_, scan_of_parse? hsize hparse, ⟨fun h => hiff.mp h.1, fun h => ⟨hiff.mpr h, ?_⟩⟩, hfound,
    fun h => ?_⟩
  · rw [hfound h]
    exact fun m hm => Directives.isDirective_of_mem_scan hm
  · have hnone : SyntaxErrors.scan file.text tree = [] := not_not.mp fun hne => h (hiff.mp hne)
    rw [scanTree_of_diagnostics_eq_nil hnone]
    exact ⟨hnone, scan_of_parse? hsize hparse⟩

/-! ### A source with errors in it -/

/-- A node of a preorder list that reports trouble. -/
def troubledRow (row : Node.Row) : Node.Row :=
  { row with label := { row.label with hasError := true } }

/-- Text of a preorder list that fits no rule. -/
def errorRow (start stop childCount : Nat) : Node.Row :=
  ⟨⟨.other "ERROR", none, true, true, false, false, ⟨start, stop⟩⟩, childCount⟩

/-- A token of a preorder list that the parser put in. -/
def missingRow (name : String) (start : Nat) : Node.Row :=
  ⟨⟨.other name, none, false, false, true, true, ⟨start, start⟩⟩, 0⟩

/-- A stray sign in front of a declaration, which lacks its semicolon. -/
def strayed : SourceFile := ⟨⟨"stray.cu"⟩, "#include <cuda.h>\n@ int x = cudaErrorX\n"⟩

/-- The tree of `strayed`. Below the error there is another one, and it reports no trouble. -/
def strayedTree : Node :=
  (Node.ofPreorder? [
    troubledRow (namedRow (.other "translation_unit") none 0 39 3),
    namedRow .includeDirective none 0 18 2, wordRow "#include" 0,
    namedRow .systemHeader (some .path) 9 17 0,
    troubledRow (errorRow 18 19 1), errorRow 18 19 0,
    troubledRow (namedRow .declaration none 20 38 3),
    namedRow (.other "primitive_type") (some .type) 20 23 0,
    namedRow .initDeclarator (some .declarator) 24 38 3,
    namedRow .identifier (some .declarator) 24 25 0, tokenRow "=" 26,
    namedRow .identifier (some .value) 28 38 0, missingRow ";" 38]).getD default

/-- The strict scan of the source has a diagnostic and finds directives only. -/
theorem strict_scan_of_trouble_stray :
    let grammar : Grammar := ⟨fun _ => some strayedTree⟩
    SyntaxErrors.Announced strayedTree ∧
    ∀ view, ∃ result, scan grammar .strict strayed view = .ok result ∧
      result.diagnostics ≠ [] ∧ (∀ m ∈ result.found, m.isDirective = true) ∧
      result.found = Directives.scan strayed.text strayedTree := by
  intro grammar
  have hparse : grammar.parse? (neutralize strayed.text).code = some strayedTree := rfl
  have hsize : strayed.text.utf8ByteSize ≤ Config.strict.maxFileSize := by decide
  have hannounced : SyntaxErrors.Announced strayedTree := by decide +kernel
  refine ⟨hannounced, fun view => ?_⟩
  obtain ⟨result, hscan, hiff, hfound, -⟩ :=
    strict_scan_of_trouble hsize hparse rfl (by decide +kernel) view
  exact ⟨result, hscan, (hiff.mpr hannounced).1, (hiff.mpr hannounced).2, hfound hannounced⟩

/-! ### A source whose errors no node is marked with -/

/-- An include directive without a target takes the next word for one. The line break that should
stand behind it is put in, but it is no node of the tree. -/
def unended : SourceFile := ⟨⟨"unended.cu"⟩, "#include\nint cudaX;\n"⟩

/-- The tree of `unended`. -/
def unendedTree : Node :=
  (Node.ofPreorder? [
    troubledRow (namedRow (.other "translation_unit") none 0 20 2),
    troubledRow (namedRow .includeDirective none 0 12 2), wordRow "#include" 0,
    namedRow .identifier (some .path) 9 12 0,
    namedRow (.other "expression_statement") none 13 19 2,
    namedRow .identifier none 13 18 0, tokenRow ";" 18]).getD default

/-- **An error that no node is marked with is not seen**: the root reports trouble, and still the
strict scan has no diagnostic and finds something that is no directive, in both views. -/
theorem hidden_error_is_searched :
    let grammar : Grammar := ⟨fun _ => some unendedTree⟩
    unendedTree.label.hasError = true ∧ ¬ SyntaxErrors.Announced unendedTree ∧
    ∀ view, ∃ result, scan grammar .strict unended view = .ok result ∧
      result.diagnostics = [] ∧ ∃ m ∈ result.found, m.isDirective = false := by
  intro grammar
  have hfound : ∀ view ∈ View.passOrder,
      (scanTree .strict view unended.text unendedTree).diagnostics = [] ∧
      ∃ m ∈ (scanTree .strict view unended.text unendedTree).found, m.isDirective = false := by
    decide +kernel
  refine ⟨by decide +kernel, by decide +kernel, fun view => ⟨_, scan_of_parse? (by decide) rfl, ?_⟩⟩
  exact hfound view (by cases view <;> decide)

end CudaFrontEnd

end CudaToHip
