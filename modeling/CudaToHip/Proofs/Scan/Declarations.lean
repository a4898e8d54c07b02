import CudaToHip.Proofs.Scan.Nested
import CudaToHip.Proofs.Tree.Outermost

/-!
# Declarations of a launched kernel

A launch is reported with the parameter lists of its kernel, which get one more parameter each. The
lists are collected over the whole tree, but the search ends at every definition and declaration: it
looks at their declarators and not into them. So it comes to the declarations that are *exposed*
(`Tree.Site.mem_outermost`), which no other declaration is above of.

* `CudaFrontEnd.exposed_declarations_are_found`: a launch has the lists of all exposed declarations
  of its kernel, in the order of the text and once each, and no others.
* `CudaFrontEnd.local_declaration_is_lost`: so the list of a prototype in a function body is not
  among them.
-/

namespace CudaToHip

open CudaToHip.Tree

namespace KernelDecl

variable {ctx : Constructs.Context} {source : String} {neutral : Neutralized} {s t : Site}
  {name : String} {list : Captured}

/-! ## The lists of a kernel -/

/-- The parameters of the kernel `name`, if the site declares it. -/
def listOf? (source : String) (neutral : Neutralized) (name : String) (s : Site) :
    Option Captured :=
  ((ofSite? source neutral s).filter (·.name = name)).map (·.params)

theorem listOf?_eq_some_iff :
    listOf? source neutral name s = some list ↔ Declares source neutral s name list := by
  unfold listOf?
  simp only [Option.map_eq_some_iff, Option.filter_eq_some_iff, decide_eq_true_eq,
    ofSite?_eq_some_iff]
  constructor
  · rintro ⟨k, ⟨h, rfl⟩, rfl⟩
    exact h
  · intro h
    exact ⟨⟨name, list⟩, ⟨h, rfl⟩, rfl⟩

/-- The lists of a kernel are those of the sites that declare it. -/
theorem lists_eq_filterMap (sites : List Site) :
    ((sites.filterMap (ofSite? source neutral)).filter (·.name = name)).map (·.params) =
      sites.filterMap (listOf? source neutral name) := by
  rw [List.filter_filterMap, List.map_filterMap]
  rfl

/-- Each list belongs to one of the sites with a list, in their order. -/
theorem forall₂_lists (sites : List Site) :
    List.Forall₂ (fun d list => Declares source neutral d name list)
      (sites.filter fun d => (listOf? source neutral name d).isSome)
      (sites.filterMap (listOf? source neutral name)) := by
  induction sites with
  | nil => exact .nil
  | cons d ds ih =>
    cases hlist : listOf? source neutral name d with
    | none => rwa [List.filter_cons_of_neg (by simp [hlist]), List.filterMap_cons_none hlist]
    | some list =>
      rw [List.filter_cons_of_pos (by simp [hlist]), List.filterMap_cons_some hlist]
      exact .cons (listOf?_eq_some_iff.mp hlist) ih

/-- The parameters stand in the declaration, behind the text in front of it. -/
theorem between_of_declares (hs : Constructs.Sound ctx s)
    (hn : ctx.neutral = neutralize ctx.source) (hd : isDeclaration s = true)
    (h : Declares ctx.source ctx.neutral s name list) :
    s.lead < list.span.start ∧ list.span.start ≤ list.span.stop ∧
      list.span.stop ≤ s.span.stop := by
  have hk : ofSite? ctx.source ctx.neutral s = some ⟨name, list⟩ := ofSite?_eq_some_iff.mpr h
  obtain ⟨params, hp⟩ := exists_of_ofSite? hs hn hd hk
  obtain ⟨hle, hin, -⟩ := hp.span_params hs
  have hin := Span.contains_iff.mp hin
  have houter := Span.contains_iff.mp (Site.contains_of_reaches hs.placed hp.reach)
  exact ⟨Nat.lt_of_lt_of_le hp.lead hin.1, hle, Nat.le_trans hin.2 houter.2⟩

end KernelDecl

namespace CudaFrontEnd

open Constructs

variable {config : Config} {source : String} {tree : Node} {view : View} {l : Launch}
  {nested : List Match}

/-- **Every exposed declaration of a launched kernel is found.** A launch is reported with the
parameter lists of the declarations `ds`, one list for each, in the order of the text. These are all
declarations of a kernel by the name of the called function that stand in no other definition or
declaration. -/
theorem exposed_declarations_are_found
    (hwf : ∀ t, (Site.root tree).Reaches t → WellFormed (context config source tree) t)
    (h : .launch l nested ∈ Match.withinAll (scanTree config view source tree).found) :
    ∃ s f ds, ((Site.root tree).Reaches s ∧ s.span = l.span ∧ s.child? .function = some f ∧
        l.callee = f.node.text source) ∧
      (∀ d, d ∈ ds ↔ ((Site.root tree).Exposed KernelDecl.isDeclaration d ∧
        KernelDecl.isDeclaration d = true) ∧
        ∃ list, KernelDecl.Declares source (neutralize source) d (f.node.baseName source) list) ∧
      ds.Pairwise Site.Before ∧
      List.Forall₂ (fun d list =>
        KernelDecl.Declares source (neutralize source) d (f.node.baseName source) list)
        ds l.paramLists ∧
      l.paramLists.Pairwise fun a b => a.span.stop < b.span.start := by
  have hsound : Sound (context config source tree) (.root tree) := hwf
  obtain ⟨s, f, args, lc, hs, hlaunch, rfl, -⟩ := exists_of_launch_mem h
  let sites := (Site.root tree).outermost KernelDecl.isDeclaration
  let listOf := KernelDecl.listOf? source (neutralize source) (f.node.baseName source)
  have hlists : ((context config source tree).launchOf s f args lc).paramLists =
      sites.filterMap listOf := KernelDecl.lists_eq_filterMap sites
  have hbefore : sites.Pairwise Site.Before := Site.outermost_before hsound.placed
  refine ⟨s, f, sites.filter fun d => (listOf d).isSome, ⟨hs, rfl, hlaunch.inFunction, rfl⟩,
    fun d => ?_, hbefore.filter _, ?_, ?_⟩
  · rw [List.mem_filter, Site.mem_outermost, Option.isSome_iff_exists]
    exact and_congr_right fun _ => exists_congr fun list => KernelDecl.listOf?_eq_some_iff
  · rw [hlists]
    exact KernelDecl.forall₂_lists sites
  · rw [hlists, List.pairwise_filterMap]
    refine hbefore.imp_of_mem fun {c d} hc hd hcd a ha b hb => ?_
    have between {d : Site} {list : Captured} (hd : d ∈ sites) (hlist : listOf d = some list) :=
      KernelDecl.between_of_declares (hsound.of_reaches (Site.of_mem_outermost hd).1) rfl
        (Site.of_mem_outermost hd).2 (KernelDecl.listOf?_eq_some_iff.mp hlist)
    exact Nat.lt_of_le_of_lt (between hc ha).2.2 (Nat.lt_of_le_of_lt hcd.1 (between hd hb).1)

/-! ### A definition at the top level and a prototype in a body -/

/-- The launch is one of the function with the parameter lists. -/
def launches (callee : String) (lists : List Captured) (l : Launch) (_ : List Match) : Bool :=
  l.callee = callee && l.paramLists = lists

theorem exists_of_launches {callee : String} {lists : List Captured} {ms : List Match}
    (h : ms.any (Match.isLaunchWith (launches callee lists)) = true) :
    ∃ l nested, .launch l nested ∈ ms ∧ l.callee = callee ∧ l.paramLists = lists := by
  obtain ⟨l, nested, hm, hwith⟩ := Match.any_isLaunchWith_iff.mp h
  obtain ⟨hcallee, hlists⟩ := Bool.and_eq_true_iff.mp hwith
  exact ⟨l, nested, hm, of_decide_eq_true hcallee, of_decide_eq_true hlists⟩

/-- The launch in a function of the host finds the kernel behind it. -/
theorem exposed_declarations_are_found_host_device :
    (∀ t, (Site.root hdTree).Reaches t → WellFormed (context .default hdSource hdTree) t) ∧
    ∃ l nested s f ds,
      .launch l nested ∈ Match.withinAll (scanTree .default .hostOnly hdSource hdTree).found ∧
      l.callee = "k" ∧ l.paramLists = [⟨⟨77, 82⟩, "int a"⟩] ∧
      ((Site.root hdTree).Reaches s ∧ s.span = l.span ∧ s.child? .function = some f ∧
        l.callee = f.node.text hdSource) ∧
      (∀ d, d ∈ ds ↔ ((Site.root hdTree).Exposed KernelDecl.isDeclaration d ∧
        KernelDecl.isDeclaration d = true) ∧
        ∃ list, KernelDecl.Declares hdSource (neutralize hdSource) d
          (f.node.baseName hdSource) list) ∧
      ds.Pairwise Site.Before ∧
      List.Forall₂ (fun d list =>
        KernelDecl.Declares hdSource (neutralize hdSource) d (f.node.baseName hdSource) list)
        ds l.paramLists ∧
      l.paramLists.Pairwise fun a b => a.span.stop < b.span.start := by
  have hwf : ∀ t, (Site.root hdTree).Reaches t →
      WellFormed (context .default hdSource hdTree) t := by decide +kernel
  have hlaunch : (Match.withinAll (scanTree .default .hostOnly hdSource hdTree).found).any
      (Match.isLaunchWith (launches "k" [⟨⟨77, 82⟩, "int a"⟩])) = true := by decide +kernel
  obtain ⟨l, nested, hmem, hcallee, hlists⟩ := exists_of_launches hlaunch
  obtain ⟨s, f, ds, h⟩ := exposed_declarations_are_found hwf hmem
  exact ⟨hwf, l, nested, s, f, ds, hmem, hcallee, hlists, h⟩

/-- A kernel is declared in the body that launches it. -/
def blockSource : String := "void f() \x7b __global__ void loc(int z); loc<<<1,1>>>(1); \x7d\n"

/-- The tree of `blockSource`. -/
def blockTree : Node :=
  (Node.ofPreorder? [
    namedRow (.other "translation_unit") none 0 58 1,
    namedRow .functionDefinition none 0 57 3,
    namedRow (.other "primitive_type") (some .type) 0 4 0,
    namedRow .functionDeclarator (some .declarator) 5 8 2,
    namedRow .identifier (some .declarator) 5 6 0,
    namedRow .parameterList (some .parameters) 6 8 2, tokenRow "(" 6, tokenRow ")" 7,
    namedRow (.other "compound_statement") (some .body) 9 57 4, tokenRow "\x7b" 9,
    namedRow .declaration none 22 38 3,
    namedRow (.other "primitive_type") (some .type) 22 26 0,
    namedRow .functionDeclarator (some .declarator) 27 37 2,
    namedRow .identifier (some .declarator) 27 30 0,
    namedRow .parameterList (some .parameters) 30 37 3, tokenRow "(" 30,
    namedRow .parameterDeclaration none 31 36 2,
    namedRow (.other "primitive_type") (some .type) 31 34 0,
    namedRow .identifier (some .declarator) 35 36 0, tokenRow ")" 36, tokenRow ";" 37,
    namedRow (.other "expression_statement") none 39 55 2,
    namedRow .callExpression none 39 54 2,
    namedRow .identifier (some .function) 39 42 0,
    namedRow .argumentList (some .arguments) 51 54 3, tokenRow "(" 51,
    namedRow (.other "number_literal") none 52 53 0, tokenRow ")" 53, tokenRow ";" 54,
    tokenRow "\x7d" 56]).getD default

/-- **A declaration in a body is lost**: the tree is regular, and a prototype of it declares the
kernel `loc` with the parameters at byte 31. But the launch of `loc` is reported with no parameter
list at all. -/
theorem local_declaration_is_lost :
    Regular .default blockSource blockTree ∧
    (∃ d, (Site.root blockTree).Reaches d ∧ KernelDecl.isDeclaration d = true ∧
      KernelDecl.Declares blockSource (neutralize blockSource) d "loc" ⟨⟨31, 36⟩, "int z"⟩) ∧
    ∃ l nested,
      .launch l nested ∈ Match.withinAll (scanTree .default .hostOnly blockSource blockTree).found ∧
      l.callee = "loc" ∧ l.paramLists = [] := by
  have hdeclares : ∃ d ∈ (Site.root blockTree).all, KernelDecl.isDeclaration d = true ∧
      KernelDecl.ofSite? blockSource (neutralize blockSource) d =
        some ⟨"loc", ⟨⟨31, 36⟩, "int z"⟩⟩ := by decide +kernel
  obtain ⟨d, hd, hkind, hk⟩ := hdeclares
  exact ⟨by decide +kernel,
    ⟨d, Site.mem_all.mp hd, hkind, KernelDecl.ofSite?_eq_some_iff.mp hk⟩,
    exists_of_launches (by decide +kernel)⟩

end CudaFrontEnd

end CudaToHip
