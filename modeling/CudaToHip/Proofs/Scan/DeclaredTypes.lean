import CudaToHip.Proofs.Scan.LeftOut

/-!
# Declared types

The type of a variable, a member, a parameter or the variable of a loop may be named by the source
API. A scan finds such a name once if it stands outside directives and in functions that the view
shows, unless the type is one that stays hidden: `Hidden` has the shapes of those.

* `Constructs.DeclaredInView`: what it takes for a name to stand in a declared type that a view
  shows, by directives and functions around it.
* `CudaFrontEnd.declared_types_in_view`: such a name is found exactly once, or it is hidden and not
  found at all.
* `CudaFrontEnd.ranges_and_parameters_hide_types`: the types of a loop and of a parameter that are
  not found.
-/

namespace CudaToHip

open CudaToHip.Tree

namespace Constructs

open Match (namesAt)

variable {ctx : Context} {enters : ExecSpace → Bool} {r s t u d : Site} {mode mode₀ : Mode}
  {kind : TypeRefKind} {byte : Nat} {m : Match} {view : View}

/-- The name `u` stands in the type of a variable, a member, a parameter or the variable of a loop
over a range. -/
structure DeclaresType (d u : Site) : Prop where
  declares : d.kind.isVariables = true ∨ d.kind.isParameter = true ∨ d.kind = .variadicParameter ∨
    d.kind = .rangeFor
  type : d.InRole .type u
  name : u.kind = .typeIdentifier

/-- **A declared type in view**: a name of the source API in the type that `d` declares, outside
directives, where the view shows every function in whose body or initializer list it lies. -/
structure DeclaredInView (ctx : Context) (view : View) (r d u : Site) : Prop where
  declared : r.Reaches d
  type : DeclaresType d u
  api : ctx.isApiName (u.node.text ctx.source) = true
  outside : ¬ InDirective r u
  visible : ∃ fs, r.Encloses fs u ∧
    ∀ f ∈ fs, (ExecSpace.ofSite ctx.neutral f).visibleIn view = true

/-- **What hides a name** in the type that `d` declares. -/
inductive Hidden (ctx : Context) (r d u : Site) : Prop
  /-- It stands in something that is left out, as the types of loops, the declarators of parameters
  and all lists of parameters but one are. -/
  | leftOut {s : Site} : r.Reaches s → s.Reaches u → ¬ InType r s → LeftOut ctx s u →
      Hidden ctx r d u
  /-- It is the type of a parameter pack and no part of another type. -/
  | pack : d.kind = .variadicParameter → ¬ InType r u → Hidden ctx r d u
  /-- The type is defined in place, and the name stands in the code of a member, where it is no part
  of another type, as after `new`. -/
  | member {l : Site} : d.InRole .type l → l.kind = .fieldList ∨ l.kind = .enumeratorList →
      l.Reaches u → ¬ InType r u → Hidden ctx r d u

theorem DeclaresType.reaches (h : DeclaresType d u) : d.Reaches u := h.type.reaches

/-- What stands in a type is a part of it, or stands in the members of a type defined in place. -/
theorem typeIn_or_exists_list (ht : Sound ctx t) (h : t.Reaches u) :
    TypeIn t u ∨ ∃ l, t.Reaches l ∧ (l.kind = .fieldList ∨ l.kind = .enumeratorList) ∧
      l.Reaches u := by
  induction h with
  | self => exact Or.inl .self
  | @child p c hp hc ih =>
    rcases ih with hin | ⟨l, hl, hk, hlp⟩
    · cases hpart : p.kind.isTypePart with
      | false => exact Or.inl (hin.child hpart hc)
      | true =>
        unfold Kind.isTypePart at hpart
        split at hpart
        case h_1 hk =>
          rw [Site.children, (ht p hp).tokens (by rw [hk]; rfl)] at hc
          cases hc
        case h_2 hk => exact Or.inr ⟨p, hp, Or.inl hk, .of_mem_children hc⟩
        case h_3 hk => exact Or.inr ⟨p, hp, Or.inr hk, .of_mem_children hc⟩
        case h_4 => cases hpart
    · exact Or.inr ⟨l, hl, hk, hlp.child hc⟩

/-- **A name that is no part of a type is hidden.** -/
theorem DeclaresType.hidden (h : DeclaresType d u) (hr : Sound ctx r) (hd : r.Reaches d)
    (hu : u.span.start < u.span.stop) (hnot : ¬ InType r u) : Hidden ctx r d u := by
  obtain ⟨t, ht, htu⟩ := h.type
  have hmem := Site.mem_children_of_child? ht
  have htr : r.Reaches t := hd.child hmem
  have of_inType (htype : InType r t) : Hidden ctx r d u := by
    rcases typeIn_or_exists_list (hr.of_reaches htr) htu with hin | ⟨l, hl, hk, hlu⟩
    · exact absurd (htype.typeIn hin) hnot
    · exact .member ⟨t, ht, hl⟩ hk hlu hnot
  have of_typeKind? (hkind : ∃ kind, d.typeKind? = some kind) : Hidden ctx r d u := by
    obtain ⟨kind, hkind⟩ := hkind
    exact of_inType ⟨d, t, hd, mem_types_of_typeKind? hkind ht, .self⟩
  rcases h.declares with hk | hk | hk | hk
  · refine of_typeKind? ?_
    rw [Site.typeKind?_of_isVariables hk]
    split_ifs <;> exact ⟨_, rfl⟩
  · exact of_typeKind? ⟨_, Site.typeKind?_of_isParameter hk⟩
  · exact .pack hk hnot
  · by_cases htype : InType r d
    · exact of_inType ((inType_child_iff hr hu hd hmem htu).mpr (Or.inr ⟨htype, by rw [hk]; rfl⟩))
    · have only {f : Field} (hf : d.InRole f u) : .type = f :=
        h.type.eq_of_inRole hr.placed hu hd hf
      exact .leftOut hd h.reaches htype
        (.loop hk (fun hright => nomatch only hright) fun hbody => nomatch only hbody)

/-! ## Where names are found -/

/-- **The name of a type that a walk comes to is found there**, exactly once. -/
theorem namesAt_of_typeIdentifier (hr : Sound ctx r) (hn : ctx.neutral = neutralize ctx.source)
    (hu : Visits ctx enters mode₀ r (.types kind) u) (hk : u.kind = .typeIdentifier)
    (hapi : ctx.isApiName (u.node.text ctx.source) = true) :
    namesAt u.span.start (walk ctx enters mode₀ r) =
      [.typeRef (u.node.text ctx.source) (.direct u.span.start) kind] := by
  refine namesAt_of_typeRef hr hn hu ?_ hapi
  rw [Context.steps, Context.typeSteps, hk]

/-- **Every name that a walk finds** is reported at a site that it visits, or stands in a launch
configuration. -/
theorem exists_of_namesAt_walk (h : m ∈ namesAt byte (walk ctx enters mode s)) :
    (∃ mode' a, Visits ctx enters mode s mode' a ∧ .found m ∈ ctx.steps mode' a) ∨
      ∃ config ∈ ctx.neutral.launches, m ∈ namesAt byte (ctx.ofConfig config) := by
  obtain ⟨hm, hname⟩ := Match.mem_namesAt.mp h
  obtain ⟨mode', a, ha, hfound⟩ := exists_visit_of_mem_walk hm
  cases hfound with
  | step hstep => exact Or.inl ⟨mode', a, ha, hstep⟩
  | launch => cases hname
  | config hlaunch hm => exact Or.inr ⟨_, hlaunch.mem_launches, Match.mem_namesAt.mpr ⟨hm, hname⟩⟩

/-- A site that spells a name is a token, and takes text. -/
theorem token_of_spells {b : Site} (hb : WellFormed ctx b) (h : Spells ctx b m)
    (hname : m.isNameAt byte = true) : b.span.start = byte ∧ b.span.start < b.span.stop ∧
      b.node.children = [] := by
  have hstart := (offset_of_spells h).symm.trans (Match.offset_of_isNameAt hname)
  cases h with
  | call hk hapi =>
    exact ⟨hstart, hb.start_lt_stop (ne_empty_of_isApiName hapi), hb.tokens (by rw [hk]; rfl)⟩
  | typeRef kind hk hapi =>
    refine ⟨hstart, hb.start_lt_stop (ne_empty_of_isApiName hapi), hb.tokens ?_⟩
    rcases hk with hk | hk <;> rw [hk] <;> rfl
  | literal => cases hname
  | coordinate _ hm =>
    obtain ⟨_, _, -, rfl⟩ := exists_of_coordinate? hm
    cases hname

/-- Two tokens that take text from the same byte on are the same. -/
theorem eq_of_tokens {a b : Site} (hr : Sound ctx r) (ha : r.Reaches a) (hb : r.Reaches b)
    (hla : a.node.children = []) (hlb : b.node.children = []) (hstart : a.span.start = b.span.start)
    (hta : a.span.start < a.span.stop) (htb : b.span.start < b.span.stop) : a = b := by
  rcases Site.reaches_or_apart hr.placed ha hb with hab | hba | hapart
  · exact (hab.eq_of_leaf hla).symm
  · exact hba.eq_of_leaf hlb
  · rcases hapart with h | h <;> omega

/-- **A name is found at the name of a type only if the walk comes to it**, as a type, or in a
launch configuration there. -/
theorem visits_of_namesAt (hr : Sound ctx r) (hn : ctx.neutral = neutralize ctx.source)
    (hu : r.Reaches u) (hk : u.kind = .typeIdentifier)
    (hapi : ctx.isApiName (u.node.text ctx.source) = true)
    (hm : m ∈ namesAt u.span.start (walk ctx enters mode₀ r)) :
    (∃ kind, Visits ctx enters mode₀ r (.types kind) u) ∨
      ∃ config ∈ ctx.neutral.launches,
        config.span.start ≤ u.span.start ∧ u.span.start < config.span.stop := by
  obtain ⟨-, hname⟩ := Match.mem_namesAt.mp hm
  rcases exists_of_namesAt_walk hm with ⟨mode, a, ha, hfound⟩ | ⟨config, hconfig, hm⟩
  · left
    have hleaf : u.node.children = [] := (hr u hu).tokens (by rw [hk]; rfl)
    have hlt := (hr u hu).start_lt_stop (ne_empty_of_isApiName hapi)
    have spelled {b : Site} (hb : r.Reaches b) (h : Spells ctx b m) : u = b := by
      obtain ⟨hstart, htext, htoken⟩ := token_of_spells (hr b hb) h hname
      exact eq_of_tokens hr hu hb hleaf htoken hstart.symm hlt htext
    cases possible_of_mem_steps hfound with
    | @callee f name _ _ hf hcallee hspells =>
      obtain ⟨hident, -, hin⟩ := exists_of_calleeName? hcallee
      have hfr : r.Reaches f := ha.reaches.child hf
      have hnr : r.Reaches name := by
        rcases hin with rfl | hin
        · exact hfr
        · exact hfr.child hin
      obtain rfl := spelled hnr hspells
      rw [hk] at hident
      cases hident
    | found hspells =>
      obtain rfl := spelled ha.reaches hspells
      cases mode with
      | types kind => exact ⟨kind, ha⟩
      | code =>
        rw [Context.steps, codeSteps_of_passes (by rw [Context.passes, hk]; rfl)] at hfound
        obtain ⟨_, _, h⟩ := List.mem_map.mp hfound
        cases h
      | declarator =>
        rw [Context.steps, Context.declaratorSteps, hk] at hfound
        cases hfound
  · obtain ⟨hm, -⟩ := Match.mem_namesAt.mp hm
    have hoffset := offset_of_mem_ofConfig hn hconfig hm
    rw [Match.offset_of_isNameAt hname] at hoffset
    exact Or.inr ⟨config, hconfig, hoffset⟩

end Constructs

namespace CudaFrontEnd

open Constructs

variable {config : Config} {source : String} {tree : Node} {view : View} {d u : Site} {byte : Nat}

/-- **Declared types in view are found exactly once, or hidden.** Let a name of the source API stand
in a declared type of a tree, outside directives and in functions that the view shows. If nothing
hides it, the visit of the tree finds the name once, as a reference to a type. If something hides
it, the visit does not find it; a name at the same byte comes from a launch configuration. -/
theorem declared_types_in_view
    (hwf : ∀ t, (Site.root tree).Reaches t → WellFormed (context config source tree) t)
    (h : DeclaredInView (context config source tree) view (.root tree) d u) :
    (¬ Hidden (context config source tree) (.root tree) d u →
      ∃ kind, Match.namesAt u.span.start (Constructs.scan (context config source tree) view tree) =
        [.typeRef (u.node.text source) (.direct u.span.start) kind]) ∧
    (Hidden (context config source tree) (.root tree) d u →
      ∀ m ∈ Match.namesAt u.span.start (Constructs.scan (context config source tree) view tree),
        ∃ launch ∈ (neutralize source).launches,
          launch.span.start ≤ u.span.start ∧ u.span.start < launch.span.stop) := by
  have hr : Sound (context config source tree) (.root tree) := hwf
  have hn : (context config source tree).neutral =
      neutralize (context config source tree).source := rfl
  have hu : (Site.root tree).Reaches u := h.type.reaches.trans h.declared
  have hlt : u.span.start < u.span.stop := (hr u hu).start_lt_stop (ne_empty_of_isApiName h.api)
  constructor
  · intro hshown
    obtain ⟨fs, hfs, hvisible⟩ := h.visible
    have hentered : Entered (context config source tree) (·.visibleIn view) (.root tree) u :=
      fun f c hf hc hgate hcu =>
        hvisible f (hfs.mem_of_isGate hr.placed hlt .self hf hc hgate hcu)
    obtain ⟨mode, hmode, hvisits⟩ := exists_visits_of_not_leftOut hr hlt h.outside hentered .self hu
      nofun fun t ht htu => or_iff_not_imp_left.mpr fun hnot hleft =>
        hshown (.leftOut ht htu hnot hleft)
    cases mode with
    | types kind => exact ⟨kind, namesAt_of_typeIdentifier hr hn hvisits h.type.name h.api⟩
    | declarator => exact absurd rfl hmode
    | code =>
      refine absurd (h.type.hidden hr h.declared hlt fun htype => ?_) hshown
      cases (inType_iff_of_visits hr hlt hvisits .self).mp htype
  · intro hhidden m hm
    rcases visits_of_namesAt hr hn hu h.type.name h.api hm with ⟨kind, hvisits⟩ | hlaunch
    · have htype := (inType_iff_of_visits hr hlt hvisits .self).mpr rfl
      cases hhidden with
      | leftOut hs hsu hnot hleft =>
        obtain ⟨-, habove⟩ := not_leftOut_of_visits hr hlt h.type.name .self hvisits
        exact ((habove _ hs hsu).elim hnot fun hshown => hshown hleft).elim
      | pack _ hnot => exact absurd htype hnot
      | member _ _ _ hnot => exact absurd htype hnot
    · exact hlaunch

/-! ### A function with declared types of each sort -/

/-- A parameter, a parameter that points to a function, and a loop over a range. -/
def typesSource : String :=
  "void f(cudaEvent_t e, void (*cb)(cudaError_t)) \x7b " ++
  "for (cudaStream_t s : e) \x7b cudaFree(s); \x7d \x7d\n"

/-- The tree of `typesSource`. -/
def typesTree : Node :=
  (Node.ofPreorder? [
    namedRow (.other "translation_unit") none 0 93 1,
    namedRow .functionDefinition none 0 92 3,
    namedRow (.other "primitive_type") (some .type) 0 4 0,
    namedRow .functionDeclarator (some .declarator) 5 46 2,
    namedRow .identifier (some .declarator) 5 6 0,
    namedRow .parameterList (some .parameters) 6 46 5, tokenRow "(" 6,
    namedRow .parameterDeclaration none 7 20 2,
    namedRow .typeIdentifier (some .type) 7 18 0,
    namedRow .identifier (some .declarator) 19 20 0, tokenRow "," 20,
    namedRow .parameterDeclaration none 22 45 2,
    namedRow (.other "primitive_type") (some .type) 22 26 0,
    namedRow .functionDeclarator (some .declarator) 27 45 2,
    namedRow .parenthesizedDeclarator (some .declarator) 27 32 3, tokenRow "(" 27,
    namedRow .pointerDeclarator none 28 31 2, tokenRow "*" 28,
    namedRow .identifier (some .declarator) 29 31 0, tokenRow ")" 31,
    namedRow .parameterList (some .parameters) 32 45 3, tokenRow "(" 32,
    namedRow .parameterDeclaration none 33 44 1,
    namedRow .typeIdentifier (some .type) 33 44 0, tokenRow ")" 44, tokenRow ")" 45,
    namedRow (.other "compound_statement") (some .body) 47 92 3, tokenRow "\x7b" 47,
    namedRow .rangeFor none 49 90 8, wordRow "for" 49, tokenRow "(" 53,
    namedRow .typeIdentifier (some .type) 54 66 0,
    namedRow .identifier (some .declarator) 67 68 0, tokenRow ":" 69,
    namedRow .identifier (some .right) 71 72 0, tokenRow ")" 72,
    namedRow (.other "compound_statement") (some .body) 74 90 3, tokenRow "\x7b" 74,
    namedRow (.other "expression_statement") none 76 88 2,
    namedRow .callExpression none 76 87 2,
    namedRow .identifier (some .function) 76 84 0,
    namedRow .argumentList (some .arguments) 84 87 3, tokenRow "(" 84,
    namedRow .identifier none 85 86 0, tokenRow ")" 86, tokenRow ";" 87, tokenRow "\x7d" 89,
    tokenRow "\x7d" 91]).getD default

/-- The site has the name of a type at the byte for its type. -/
def HasTypeAt (ctx : Context) (byte : Nat) (d : Site) : Prop :=
  (d.kind.isVariables = true ∨ d.kind.isParameter = true ∨ d.kind = .rangeFor) ∧
    ∃ u ∈ (d.child? .type).toList, u.kind = .typeIdentifier ∧ u.span.start = byte ∧
      ctx.isApiName (u.node.text ctx.source) = true

instance (ctx : Context) (byte : Nat) (d : Site) : Decidable (HasTypeAt ctx byte d) :=
  inferInstanceAs (Decidable (_ ∧ ∃ _ ∈ _, _ ∧ _ ∧ _))

/-- No site of `typesTree` is a directive. -/
theorem not_inDirective_typesTree : ¬ InDirective (.root typesTree) u := by
  have hnone : ∀ s, (Site.root typesTree).Reaches s → s.kind.isDirective = false ∧
      s.kind ≠ .definedOperator ∧ s.kind.isConditional = false := by decide +kernel
  rintro ⟨s, c, hs, -, -, hk⟩
  obtain ⟨hdirective, hdefined, hconditional⟩ := hnone s hs
  rcases hk with hk | hk | ⟨hk, -⟩
  · exact Bool.noConfusion (hdirective.symm.trans hk)
  · exact hdefined hk
  · exact Bool.noConfusion (hconditional.symm.trans hk)

/-- A declared type that a view shows, from the list of all sites with the functions around them. -/
theorem exists_of_mem_places {ctx : Context} {view : View} {p : Site → Prop}
    (h : ∃ place ∈ (Site.root typesTree).places,
      (∀ f ∈ place.1, (ExecSpace.ofSite ctx.neutral f).visibleIn view = true) ∧
        p place.2 ∧ HasTypeAt ctx byte place.2) :
    ∃ d u, p d ∧ DeclaredInView ctx view (.root typesTree) d u ∧ u.span.start = byte := by
  obtain ⟨⟨fs, d⟩, hplace, hvisible, hp, hd, u, hu, hk, hbyte, hapi⟩ := h
  have hu := Option.mem_toList.mp hu
  have hencloses := Site.mem_places.mp hplace
  have hdef : d.kind ≠ .functionDefinition := by
    intro hkind
    rw [hkind] at hd
    revert hd
    decide
  refine ⟨d, u, hp, ⟨hencloses.reaches, ⟨?_, ⟨u, hu, .self⟩, hk⟩, hapi, not_inDirective_typesTree,
    fs, ?_, hvisible⟩, hbyte⟩
  · rcases hd with hd | hd | hd
    · exact Or.inl hd
    · exact Or.inr (Or.inl hd)
    · exact Or.inr (Or.inr (Or.inr hd))
  · exact hencloses.child (Site.mem_children_of_child? hu) (Site.isGate_of_ne hdef u)

/-- The type of the first parameter is found. -/
theorem declared_types_in_view_parameter :
    let ctx := context .default typesSource typesTree
    (∀ t, (Site.root typesTree).Reaches t → WellFormed ctx t) ∧
    ∃ d u, DeclaredInView ctx .hostOnly (.root typesTree) d u ∧
      ¬ Hidden ctx (.root typesTree) d u ∧ u.span.start = 7 ∧
      ∃ kind, Match.namesAt 7 (Constructs.scan ctx .hostOnly typesTree) =
        [.typeRef (u.node.text typesSource) (.direct 7) kind] := by
  intro ctx
  have hwf : ∀ t, (Site.root typesTree).Reaches t → WellFormed ctx t := by decide +kernel
  obtain ⟨d, u, -, hview, hbyte⟩ : ∃ d u, d.kind.isParameter = true ∧
      DeclaredInView ctx .hostOnly (.root typesTree) d u ∧ u.span.start = 7 :=
    exists_of_mem_places (by decide +kernel)
  obtain ⟨hfound, hlost⟩ := @declared_types_in_view .default typesSource typesTree .hostOnly d u hwf
    hview
  rw [hbyte] at hfound hlost
  have hshown : ¬ Hidden ctx (.root typesTree) d u := by
    intro hhidden
    have hsome : (Match.namesAt 7 (Constructs.scan ctx .hostOnly typesTree)).isEmpty = false := by
      decide +kernel
    obtain ⟨m, hm⟩ := List.exists_mem_of_ne_nil _ (List.isEmpty_eq_false_iff.mp hsome)
    obtain ⟨launch, hlaunch, -⟩ := hlost hhidden m hm
    have hnone : (neutralize typesSource).launches.isEmpty = true := by decide +kernel
    rw [List.isEmpty_iff.mp hnone] at hlaunch
    cases hlaunch
  exact ⟨hwf, d, u, hview, hshown, hbyte, hfound hshown⟩

/-- **Loops and pointers to functions hide types**: the tree is regular, and the host view shows the
declared type of the loop, at byte 54, and that of the parameter in the declarator of a parameter,
at byte 33. The host scan finds neither. -/
theorem ranges_and_parameters_hide_types :
    let ctx := context .default typesSource typesTree
    let shown := DeclaredInView ctx .hostOnly (.root typesTree)
    Regular .default typesSource typesTree ∧
    (∃ d u, d.kind = .rangeFor ∧ shown d u ∧ u.span.start = 54) ∧
    (∃ d u, d.kind.isParameter = true ∧ shown d u ∧ u.span.start = 33) ∧
    Match.namesAt 54 (Constructs.scan ctx .hostOnly typesTree) = [] ∧
    Match.namesAt 33 (Constructs.scan ctx .hostOnly typesTree) = [] := by
  intro ctx shown
  have none {byte : Nat}
      (h : (Match.namesAt byte (Constructs.scan ctx .hostOnly typesTree)).isEmpty = true) :
      Match.namesAt byte (Constructs.scan ctx .hostOnly typesTree) = [] := List.isEmpty_iff.mp h
  exact ⟨by decide +kernel, exists_of_mem_places (by decide +kernel),
    exists_of_mem_places (by decide +kernel), none (by decide +kernel), none (by decide +kernel)⟩

end CudaFrontEnd

end CudaToHip
