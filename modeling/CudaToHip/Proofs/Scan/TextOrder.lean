import CudaToHip.Proofs.Scan.Directives
import CudaToHip.Proofs.Scan.StepOrder
import CudaToHip.Proofs.Scan.Views

/-!
# The order of a scan

A scan reports the matches of directives first and those of the tree behind them, each in the order
of the text as far as the walk keeps to it.

* `found_in_text_order`: the matches of directives are in order. Those of the tree are, and so are
  those nested in any launch, apart from the pairs that `Overtakes` describes.
* `template_arguments_first`: such pairs occur. Of a call with template arguments the scan reports
  what stands in these before the call itself.
-/

namespace CudaToHip

open CudaToHip.Tree

/-! ## Trees in the order of the text -/

/-- The node stands on character boundaries of the source, and its children stand inside of it, in
the order of the text. -/
structure Arranged (source : String) (s : Site) : Prop where
  boundaries : (s.span.text? source).isSome
  inside : ∀ c ∈ s.children, s.span.contains c.span = true
  ordered : s.children.Pairwise Site.Precedes

theorem arranged_iff {source : String} {s : Site} : Arranged source s ↔
    (s.span.text? source).isSome ∧ (∀ c ∈ s.children, s.span.contains c.span = true) ∧
      s.children.Pairwise Site.Precedes :=
  ⟨fun h => ⟨h.boundaries, h.inside, h.ordered⟩, fun ⟨h₁, h₂, h₃⟩ => ⟨h₁, h₂, h₃⟩⟩

instance (source : String) (s : Site) : Decidable (Arranged source s) :=
  decidable_of_iff' _ arranged_iff

/-- Everything that is reached from the site is arranged. -/
def AllArranged (source : String) (s : Site) : Prop := ∀ t, s.Reaches t → Arranged source t

instance (source : String) (s : Site) : Decidable (AllArranged source s) :=
  inferInstanceAs (Decidable (∀ t, s.Reaches t → Arranged source t))

namespace AllArranged

variable {source : String} {s t : Site}

theorem placed (h : AllArranged source s) : Constructs.AllPlaced s := fun t ht =>
  ⟨(Text.slice?_isSome_iff.mp (h t ht).boundaries).1, (h t ht).inside, (h t ht).ordered⟩

theorem of_reaches (h : AllArranged source s) (ht : s.Reaches t) : AllArranged source t :=
  fun u hu => h u (hu.trans ht)

end AllArranged

/-! ## Matches in order -/

/-- The matches begin one behind the other, or at the same place. -/
def Match.Ordered (ms : List Match) : Prop := ms.Pairwise fun m n => m.offset ≤ n.offset

/-- The matches of tokens are in order if they come in the order of the tokens. -/
theorem Match.ordered_of_sublist {ts : List Token} {ms : List Match}
    (hts : ts.Pairwise fun a b => a.span.stop ≤ b.start)
    (h : (ms.map Match.offset).Sublist (ts.map Token.start)) : Match.Ordered ms := by
  have hstarts : (ts.map Token.start).Pairwise (· ≤ ·) := by
    refine List.pairwise_map.mpr (hts.imp fun {a b} hab => ?_)
    exact Nat.le_trans (Nat.le_add_right a.start _) hab
  exact List.pairwise_map.mp (hstarts.sublist h)

namespace Directives

variable {source : String} {s : Site} {m : Match} {tree : Node}

/-- The matches of a directive begin inside of it. -/
theorem inside_of_mem_ofSite (hs : AllArranged source s) (hm : m ∈ ofSite source s) :
    s.span.start ≤ m.offset ∧ m.offset ≤ s.span.stop := by
  have hchild {c : Site} {f : Field} (hc : s.child? f = some c) :
      s.span.start ≤ c.span.start ∧ c.span.start ≤ c.span.stop ∧ c.span.stop ≤ s.span.stop := by
    have hmem := Site.mem_children_of_child? hc
    have hin := Span.contains_iff.mp ((hs s .self).inside c hmem)
    exact ⟨hin.1, (hs.placed c (.of_mem_children hmem)).le, hin.2⟩
  rcases of_mem_ofSite hm with hm | hm
  · obtain ⟨path, text, hpath, -, -, rfl⟩ := exists_of_mem_ofInclude hm
    have hspan := hchild hpath
    refine ⟨hspan.1, ?_⟩
    show path.span.start ≤ s.span.stop
    omega
  · obtain ⟨name, value, t, -, hvalue, ht, rfl⟩ := exists_of_mem_ofDefine hm
    have hbounds := (hs value (.of_mem_children (Site.mem_children_of_child? hvalue))).boundaries
    have hin := Span.contains_iff.mp (contains_of_mem_tokenizeIn hbounds ht)
    have hlt := Lexer.start_lt_stop_of_mem_tokens ht
    have hspan := hchild hvalue
    constructor
    · show s.span.start ≤ t.span.start
      omega
    · show t.span.start ≤ s.span.stop
      omega

theorem ordered_ofDefine (source : String) (s : Site) : Match.Ordered (ofDefine source s) := by
  unfold ofDefine
  split
  · rename_i name value _ _
    dsimp only
    have htokens : (tokenizeIn source value.span).Pairwise fun a b => a.span.stop ≤ b.start :=
      Lexer.pairwise_tokens
    refine Match.ordered_of_sublist htokens ?_
    generalize tokenizeIn source value.span = ts
    induction ts with
    | nil => exact .slnil
    | cons t ts ih =>
      rw [List.filterMap_cons]
      split
      · exact .cons _ ih
      · rename_i m hm
        split at hm
        · obtain rfl := Option.some.inj hm
          exact .cons_cons _ ih
        · cases hm
  · exact .nil

/-- The matches of one directive are in order. -/
theorem ordered_ofSite (source : String) (s : Site) : Match.Ordered (ofSite source s) := by
  unfold ofSite
  split
  · -- an include directive has one target
    refine List.pairwise_of_forall_mem_list fun m hm n hn => ?_
    obtain ⟨path, _, hpath, -, -, rfl⟩ := exists_of_mem_ofInclude hm
    obtain ⟨path', _, hpath', -, -, rfl⟩ := exists_of_mem_ofInclude hn
    obtain rfl := Option.some.inj (hpath.symm.trans hpath')
    exact Nat.le_refl _
  · exact ordered_ofDefine source s
  · exact ordered_ofDefine source s
  · exact .nil

/-- **The matches of all directives are in order.** -/
theorem ordered_scan (hs : AllArranged source (.root tree)) : Match.Ordered (scan source tree) := by
  refine List.pairwise_flatMap.mpr ⟨fun d _ => ordered_ofSite source d, ?_⟩
  refine (Site.outermost_before hs.placed).imp_of_mem fun {c d} hc hd hcd m hm n hn => ?_
  have hmc := inside_of_mem_ofSite (hs.of_reaches (Site.of_mem_outermost hc).1) hm
  have hnd := inside_of_mem_ofSite (hs.of_reaches (Site.of_mem_outermost hd).1) hn
  have hbefore : c.span.stop ≤ d.span.start := hcd.2
  omega

end Directives

namespace Constructs

variable {ctx : Context} {s f args : Site} {config : LaunchConfig} {m : Match} {mode : Mode}
  {enters : ExecSpace → Bool}

/-! ## The matches of a launch -/

theorem offset_of_names {t : Token} (h : Names t m) : m.offset = t.start := by
  cases h <;> rfl

/-- What is found among tokens is found in their order. -/
theorem sublist_ofConfigTokens (last : Option Token) (ts : List Token) :
    ((ctx.ofConfigTokens last ts).map Match.offset).Sublist (ts.map Token.start) := by
  induction ts generalizing last with
  | nil => exact .slnil
  | cons t ts ih =>
    rw [Context.ofConfigTokens]
    split
    · exact .cons_cons _ (ih _)
    · split_ifs
      · exact .cons _ (ih _)
      · exact .cons_cons _ (ih _)
      · exact .cons_cons _ (ih _)
    · exact .cons _ (ih _)

/-- What is found in an argument of a configuration begins inside of it. -/
theorem between_of_mem_ofConfigTokens {arg : Captured} (harg : (arg.span.text? ctx.source).isSome)
    (h : m ∈ ctx.ofConfigTokens none (tokenizeIn ctx.source arg.span)) :
    arg.span.start ≤ m.offset ∧ m.offset < arg.span.stop := by
  obtain ⟨t, ht, hnames⟩ := names_of_mem_ofConfigTokens h
  have hin := Span.contains_iff.mp (contains_of_mem_tokenizeIn harg ht)
  have hlt := Lexer.start_lt_stop_of_mem_tokens ht
  have hstart : m.offset = t.span.start := offset_of_names hnames
  omega

/-- **What is found in a configuration is in order**, inside of the configuration. -/
theorem ordered_ofConfig (hconfig : config ∈ (neutralize ctx.source).launches) :
    Match.Ordered (ctx.ofConfig config) ∧
      ∀ m ∈ ctx.ofConfig config, m.offset ≤ config.span.stop := by
  obtain ⟨hinside, hrow⟩ := row_of_mem_launches hconfig
  have hbetween {arg : Captured} (harg : arg ∈ config.args) {m : Match}
      (hm : m ∈ ctx.ofConfigTokens none (tokenizeIn ctx.source arg.span)) :=
    between_of_mem_ofConfigTokens (text?_of_mem_args hconfig arg harg) hm
  constructor
  · refine List.pairwise_flatMap.mpr ⟨fun arg _ => ?_, hrow.imp_of_mem fun {a b} ha hb hab => ?_⟩
    · exact Match.ordered_of_sublist Lexer.pairwise_tokens (sublist_ofConfigTokens _ _)
    · intro m hm n hn
      have hma := hbetween ha hm
      have hnb := hbetween hb hn
      omega
  · intro m hm
    obtain ⟨arg, harg, hm⟩ := List.mem_flatMap.mp hm
    have hma := hbetween harg hm
    have hin := Span.contains_iff.mp (hinside arg harg)
    omega

/-- **What is nested in a launch is in turn**: its configuration stands in front of its
arguments. -/
theorem inTurn_nested (hn : ctx.neutral = neutralize ctx.source) (hs : AllPlaced s)
    (h : LaunchAt ctx s f args config) :
    (ctx.ofConfig config ++ walk ctx enters .code args).Pairwise (InTurn s) := by
  obtain ⟨hordered, hstop⟩ := @ordered_ofConfig ctx config (hn ▸ h.mem_launches)
  have hargs : AllPlaced args := hs.child h.mem_arguments
  refine List.pairwise_append.mpr ⟨hordered.imp Or.inl, ?_, fun m hm n hn => ?_⟩
  · exact (inTurn_walk hargs).imp fun h' => h'.of_reaches (.of_mem_children h.mem_arguments)
  · have hconfig := h.config_between
    have hmc := hstop m hm
    have hna := (standsIn_of_mem_walk hn).between hargs
    exact Or.inl (by omega)

/-- The nested matches of every launch are in turn, whatever depth it is found at. -/
theorem inTurn_of_launch_mem {l : Launch} {nested : List Match}
    (hn : ctx.neutral = neutralize ctx.source) (hs : AllPlaced s)
    (h : .launch l nested ∈ Match.withinAll (walk ctx enters mode s)) :
    nested.Pairwise (InTurn s) := by
  generalize hm : Match.launch l nested = m at h
  cases reported_walk h with
  | spelled ha hspells =>
    subst hm
    cases hspells with
    | coordinate _ hm =>
      obtain ⟨_, _, -, hm⟩ := exists_of_coordinate? hm
      cases hm
  | token _ _ _ hnames =>
    subst hm
    cases hnames
  | launch hc hlaunch =>
    obtain ⟨-, rfl⟩ := Match.launch.inj hm
    exact (inTurn_nested hn (hs.of_reaches hc) hlaunch).imp fun h => h.of_reaches hc

/-- No match of a walk comes from the preprocessor. -/
theorem isDirective_of_mem_walk (h : m ∈ walk ctx enters mode s) : m.isDirective = false := by
  cases reported_walk (Match.mem_withinAll.mpr ⟨m, h, m.mem_within_self⟩) with
  | spelled _ hspells =>
    cases hspells with
    | call | typeRef | literal => rfl
    | coordinate _ hm =>
      obtain ⟨_, _, -, rfl⟩ := exists_of_coordinate? hm
      rfl
  | token _ _ _ hnames => cases hnames <;> rfl
  | launch => rfl

end Constructs

namespace CudaFrontEnd

open Constructs

variable {config : Config} {source : String} {tree : Node} {view : View}

/-- No match of a visit comes from the preprocessor. -/
theorem isDirective_of_mem_constructs {enters : ExecSpace → Bool} {m : Match}
    (h : m ∈ constructs config enters source tree) : m.isDirective = false := by
  unfold constructs at h
  split at h
  · exact isDirective_of_mem_walk h
  · cases h

/-- What the visit of an arranged tree reports is in turn, and so is what is nested in a launch. -/
theorem inTurn_constructs {enters : ExecSpace → Bool} (h : AllArranged source (.root tree)) :
    (constructs config enters source tree).Pairwise (InTurn (.root tree)) ∧
      ∀ l nested, .launch l nested ∈ Match.withinAll (constructs config enters source tree) →
        nested.Pairwise (InTurn (.root tree)) := by
  unfold constructs
  split
  · refine ⟨inTurn_walk h.placed, fun l nested hmem => ?_⟩
    exact @inTurn_of_launch_mem (context config source tree) _ _ _ l nested rfl h.placed hmem
  · exact ⟨.nil, fun _ _ hmem => nomatch hmem⟩

/-- The layers of the matches of an arranged tree: those of directives are in order, all others are
in turn. -/
theorem inTurn_scanTree (h : AllArranged source (.root tree)) :
    (∀ m ∈ Directives.scan source tree, m.isDirective = true) ∧
    (∀ m ∈ constructs config (·.visibleIn view) source tree, m.isDirective = false) ∧
    ∀ ms, (ms = constructs config (·.visibleIn view) source tree ∨
        ∃ l, .launch l ms ∈ Match.withinAll (scanTree config view source tree).found) →
      ms.Pairwise (InTurn (.root tree)) := by
  obtain ⟨hturn, hnested⟩ := @inTurn_constructs config source tree (·.visibleIn view) h
  refine ⟨fun m hm => Directives.isDirective_of_mem_scan hm,
    fun m hm => isDirective_of_mem_constructs hm, ?_⟩
  rintro ms (rfl | ⟨l, hl⟩)
  · exact hturn
  · rw [found_scanTree, Match.withinAll_append] at hl
    rcases List.mem_append.mp hl with hl | hl
    · -- no launch stands in a directive
      rw [Directives.withinAll_scan] at hl
      cases Directives.isDirective_of_mem_scan hl
    · exact hnested l ms hl

/-- **The matches of a scan are in the order of the text, layer by layer**: first those of
directives, in order, then those of the tree. Of two matches of the tree, or of two that are nested
in one launch, the first begins no later than the second unless the second overtakes it: it is a
call by a name with template arguments, where the first stands, or it stands in the first default
value of a declaration, in front of a further declarator where the first stands, or the tree has
parts of a node in an order that the grammar does not write. -/
theorem found_in_text_order {grammar : Grammar} {config : Config} {file : SourceFile} {view : View}
    {result : Scan} (hscan : scan grammar config file view = .ok result)
    (htree : ∀ tree, grammar.parse? (neutralize file.text).code = some tree →
      AllArranged file.text (.root tree)) :
    ∃ directives constructs, result.found = directives ++ constructs ∧
      (∀ m ∈ directives, m.isDirective = true) ∧ (∀ m ∈ constructs, m.isDirective = false) ∧
      Match.Ordered directives ∧
      ∀ ms, (ms = constructs ∨ ∃ l, .launch l ms ∈ Match.withinAll result.found) →
        ms.Pairwise fun m n => m.offset ≤ n.offset ∨
          ∃ tree, grammar.parse? (neutralize file.text).code = some tree ∧
            Overtakes (.root tree) m n := by
  rcases cases_of_scan hscan with hnil | ⟨tree, hparse, rfl⟩
  · rw [hnil]
    refine ⟨[], [], rfl, by simp, by simp, .nil, ?_⟩
    rintro ms (rfl | ⟨l, hl⟩)
    · exact .nil
    · cases hl
  · have harranged := htree tree hparse
    obtain ⟨hdirective, hconstruct, hturn⟩ :=
      @inTurn_scanTree config file.text tree view harranged
    refine ⟨_, _, found_scanTree config view file.text tree, hdirective, hconstruct,
      Directives.ordered_scan harranged, fun ms hms => ?_⟩
    exact (hturn ms hms).imp fun h => h.imp_right fun h => ⟨tree, hparse, h⟩

/-- The host scan of a source with a launch, whose argument is found inside of it. -/
theorem found_in_text_order_launch :
    let file : SourceFile := ⟨⟨"hd.cu"⟩, hdSource⟩
    ∃ result, scan hdGrammar .default file .hostOnly = .ok result ∧
      (Match.withinAll result.found).map Match.offset = [32, 43] ∧
      ∃ directives constructs, result.found = directives ++ constructs ∧
        (∀ m ∈ directives, m.isDirective = true) ∧ (∀ m ∈ constructs, m.isDirective = false) ∧
        Match.Ordered directives ∧
        ∀ ms, (ms = constructs ∨ ∃ l, .launch l ms ∈ Match.withinAll result.found) →
          ms.Pairwise fun m n => m.offset ≤ n.offset ∨
            ∃ tree, hdGrammar.parse? (neutralize hdSource).code = some tree ∧
              Overtakes (.root tree) m n := by
  intro file
  have hparse : hdGrammar.parse? (neutralize hdSource).code = some hdTree := if_pos rfl
  have hscan : scan hdGrammar .default file .hostOnly =
      .ok (scanTree .default .hostOnly hdSource hdTree) := scan_of_parse? (by decide) hparse
  have harranged : AllArranged hdSource (.root hdTree) := by decide +kernel
  have htree : ∀ tree, hdGrammar.parse? (neutralize hdSource).code = some tree →
      AllArranged hdSource (.root tree) := by
    intro tree htree
    obtain rfl := Option.some.inj (hparse.symm.trans htree)
    exact harranged
  exact ⟨_, hscan, by decide +kernel, found_in_text_order hscan htree⟩

/-! ### Matches that overtake others -/

/-- A call with a template argument. -/
def templateSource : String := "int g1 = cudaMemcpyA<cudaStream_t>(a);\n"

/-- The tree of `templateSource`. -/
def templateTree : Node :=
  (Node.ofPreorder? [
    namedRow (.other "translation_unit") none 0 39 1,
    namedRow .declaration none 0 38 3,
    namedRow (.other "primitive_type") (some .type) 0 3 0,
    namedRow .initDeclarator (some .declarator) 4 37 3,
    namedRow .identifier (some .declarator) 4 6 0, tokenRow "=" 7,
    namedRow .callExpression (some .value) 9 37 2,
    namedRow .templateFunction (some .function) 9 34 2,
    namedRow .identifier (some .name) 9 20 0,
    namedRow (.other "template_argument_list") (some .arguments) 20 34 3, tokenRow "<" 20,
    namedRow .typeDescriptor none 21 33 1,
    namedRow .typeIdentifier (some .type) 21 33 0, tokenRow ">" 33,
    namedRow .argumentList (some .arguments) 34 37 3, tokenRow "(" 34,
    namedRow .identifier none 35 36 0, tokenRow ")" 36,
    tokenRow ";" 37]).getD default

/-- **Template arguments come before the call that they belong to**: the tree is arranged, and both
scans find the type at byte 21 first and the call at byte 9 after it. So the matches of the tree are
not in order. -/
theorem template_arguments_first :
    AllArranged templateSource (.root templateTree) ∧
    ∀ view, (scanTree .default view templateSource templateTree).found.map
        (fun m => (m.label, m.offset)) = [("type ref", 21), ("call", 9)] ∧
      (∀ m ∈ (scanTree .default view templateSource templateTree).found, m.isDirective = false) ∧
      ¬ Match.Ordered (scanTree .default view templateSource templateTree).found := by
  have hfound : ∀ view ∈ View.passOrder,
      (scanTree .default view templateSource templateTree).found.map
        (fun m => (m.label, m.offset)) = [("type ref", 21), ("call", 9)] ∧
      ((scanTree .default view templateSource templateTree).found.all fun m => !m.isDirective) =
        true := by decide +kernel
  refine ⟨by decide +kernel, fun view => ?_⟩
  obtain ⟨hpairs, hall⟩ := hfound view (by cases view <;> decide)
  refine ⟨hpairs, fun m hm => by simpa using List.all_eq_true.mp hall m hm, fun hordered => ?_⟩
  have hoffsets := congrArg (List.map Prod.snd) hpairs
  rw [List.map_map] at hoffsets
  have hpairwise := List.pairwise_map.mpr hordered
  have hoffsets : (scanTree .default view templateSource templateTree).found.map Match.offset =
      [21, 9] := hoffsets
  rw [hoffsets] at hpairwise
  exact absurd hpairwise (by decide)

/-- A member with a default value in front of another declarator. -/
def memberSource : String := "struct S \x7b int a = cudaA, b[cudaB]; \x7d;\n"

/-- The tree of `memberSource`. -/
def memberTree : Node :=
  (Node.ofPreorder? [
    namedRow (.other "translation_unit") none 0 39 2,
    namedRow (.other "struct_specifier") none 0 37 3, wordRow "struct" 0,
    namedRow .typeIdentifier (some .name) 7 8 0,
    namedRow .fieldList (some .body) 9 37 3, tokenRow "\x7b" 9,
    namedRow .fieldDeclaration none 11 35 7,
    namedRow (.other "primitive_type") (some .type) 11 14 0,
    namedRow (.other "field_identifier") (some .declarator) 15 16 0, tokenRow "=" 17,
    namedRow .identifier (some .defaultValue) 19 24 0, tokenRow "," 24,
    namedRow .arrayDeclarator (some .declarator) 26 34 4,
    namedRow (.other "field_identifier") (some .declarator) 26 27 0, tokenRow "[" 27,
    namedRow .identifier (some .size) 28 33 0, tokenRow "]" 33,
    tokenRow ";" 34,
    tokenRow "\x7d" 36,
    tokenRow ";" 37]).getD default

-- what stands in the second declarator comes before the default value in front of it
example : (scanTree .default .hostOnly memberSource memberTree).found.map Match.offset =
    [28, 19] := by decide +kernel

end CudaFrontEnd

end CudaToHip
