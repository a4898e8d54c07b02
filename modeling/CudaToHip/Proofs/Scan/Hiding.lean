import CudaToHip.Proofs.Scan.Guarded
import CudaToHip.Proofs.Scan.Reported
import CudaToHip.Proofs.Scan.Views

/-!
# What a view hides

A view decides at function definitions only: it enters the body and the initializer lists of a
function if it sees the space that the function runs in. So a view hides what lies in functions that
it does not see, and changes nothing else.

* `encloses_of_mem_enclosed`: the functions that a walk enters on its way to a match are those that
  the match lies in.
* `view_hides_bodies`: every view shows the matches all of whose functions it sees, in the order of
  the walk that enters every body.
* `function_in_type_is_shown`: a function that is defined in a type, say in a lambda, is searched
  for names of types under every view.
-/

namespace CudaToHip

open CudaToHip.Tree

namespace Constructs

variable {ctx : Context} {s t : Site} {mode : Mode}

/-! ## What is found, and in which functions -/

/-- A match and the function definitions in whose bodies or initializer lists it was found,
outermost first. -/
structure Enclosed where
  functions : List Site
  found : Match

namespace Enclosed

/-- The same in the body or an initializer list of one more function. -/
def inside (s : Site) (x : Enclosed) : Enclosed := { x with functions := s :: x.functions }

/-- A match and all that it holds, in no function. -/
def ofMatches (ms : List Match) : List Enclosed := (Match.withinAll ms).map fun m => ⟨[], m.bare⟩

/-- The functions are all visible under the view. -/
def visibleIn (x : Enclosed) (neutral : Neutralized) (view : View) : Bool :=
  x.functions.all fun f => (ExecSpace.ofSite neutral f).visibleIn view

/-- The match with the spaces of the functions. -/
def trail (neutral : Neutralized) (x : Enclosed) : Trail :=
  ⟨x.functions.map (ExecSpace.ofSite neutral), x.found⟩

end Enclosed

/-- Everything that is found at and below a site, every body entered. A launch stands in front of
the matches that it holds. -/
def enclosed (ctx : Context) (mode : Mode) (s : Site) : List Enclosed :=
  (ctx.steps mode s).attach.flatMap fun ⟨step, h⟩ =>
    match step, h with
    | .found m, _ => Enclosed.ofMatches [m]
    | .go mode' t, _ => enclosed ctx mode' t
    | .enter _ t, _ => (enclosed ctx .code t).map (Enclosed.inside s)
    | .launch l config t, _ =>
      ⟨[], .launch l []⟩ :: Enclosed.ofMatches config ++ enclosed ctx .code t
termination_by sizeOf s.node
decreasing_by all_goals exact steps_below ctx mode s _ ‹_› _ rfl

/-- What is found by a step at the site `s`. -/
def followEnclosed (ctx : Context) (s : Site) : Step → List Enclosed
  | .found m => Enclosed.ofMatches [m]
  | .go mode t => enclosed ctx mode t
  | .enter _ t => (enclosed ctx .code t).map (Enclosed.inside s)
  | .launch l config t =>
    ⟨[], .launch l []⟩ :: Enclosed.ofMatches config ++ enclosed ctx .code t

theorem enclosed_eq (ctx : Context) (mode : Mode) (s : Site) :
    enclosed ctx mode s = (ctx.steps mode s).flatMap (followEnclosed ctx s) := by
  rw [enclosed, ← flatMap_attach _ (followEnclosed ctx s)]
  congr 1
  funext ⟨step, h⟩
  cases step <;> rfl

/-- The functions say more than the spaces of a trail. -/
theorem trails_eq_map_enclosed (ctx : Context) (mode : Mode) (s : Site) :
    trails ctx mode s = (enclosed ctx mode s).map (Enclosed.trail ctx.neutral) := by
  have hmatches (ms : List Match) :
      Trail.ofMatches ms = (Enclosed.ofMatches ms).map (Enclosed.trail ctx.neutral) := by
    rw [Trail.ofMatches, Enclosed.ofMatches, List.map_map]
    rfl
  induction hn : sizeOf s.node using Nat.strongRecOn generalizing s mode with
  | ind n ih =>
    subst hn
    rw [trails_eq, enclosed_eq, List.map_flatMap]
    refine List.flatMap_congr fun step hstep => ?_
    have below {t : Site} (ht : step.site? = some t) (mode' : Mode) :
        trails ctx mode' t = (enclosed ctx mode' t).map (Enclosed.trail ctx.neutral) :=
      ih _ (steps_below ctx mode s step hstep t ht) mode' t rfl
    cases step with
    | found m => exact hmatches [m]
    | go mode' t => exact below rfl mode'
    | enter space t =>
      rw [followTrails, followEnclosed, below rfl .code, space_of_enter_mem hstep, List.map_map,
        List.map_map]
      rfl
    | launch l config t =>
      rw [followTrails, followEnclosed, below rfl .code, hmatches config, List.cons_append,
        List.cons_append, List.map_cons, List.map_append]
      rfl

/-- The match was found at the site: it is spelled there, or the launch that is written there, or
it stands in the configuration of that launch. -/
inductive FoundAt (ctx : Context) (a : Site) : Match → Prop where
  | spelled {m : Match} (h : Spells ctx a m) : FoundAt ctx a m
  | launch {f args : Site} {config : LaunchConfig} (h : LaunchAt ctx a f args config) :
    FoundAt ctx a (.launch (ctx.launchOf a f args config) [])
  | config {f args : Site} {config : LaunchConfig} {m : Match} (h : LaunchAt ctx a f args config)
    (hm : m ∈ bareAll (ctx.ofConfig config)) : FoundAt ctx a m

theorem mem_ofMatches {ms : List Match} {x : Enclosed} (h : x ∈ Enclosed.ofMatches ms) :
    x.functions = [] ∧ x.found ∈ bareAll ms := by
  obtain ⟨m, hm, rfl⟩ := List.mem_map.mp h
  exact ⟨rfl, List.mem_map_of_mem hm⟩

theorem bareAll_of_spells {m : Match} {a : Site} (h : Spells ctx a m) : bareAll [m] = [m] := by
  have hbare : m.bare = m := by
    cases h with
    | call | typeRef | literal => rfl
    | coordinate hk hm =>
      obtain ⟨object, member, -, rfl⟩ := exists_of_coordinate? hm
      rfl
  rw [bareAll, Match.withinAll_singleton, within_of_spells h, List.map_singleton, hbare]

/-- **Everything that is found lies in the functions that it was found in**, and in no others. -/
theorem encloses_of_mem_enclosed {x : Enclosed} (hcode : ∀ u, s.Reaches u → u.FunctionsInCode)
    (hmode : mode.Suits s) (h : x ∈ enclosed ctx mode s) :
    ∃ a, s.Encloses x.functions a ∧ FoundAt ctx a x.found := by
  induction hn : sizeOf s.node using Nat.strongRecOn generalizing s mode x with
  | ind n ih =>
    subst hn
    rw [enclosed_eq] at h
    obtain ⟨step, hstep, hx⟩ := List.mem_flatMap.mp h
    -- what is found below a site that the walk is sent to
    have below (mode' : Mode) {t : Site} {fs : List Site} {y : Enclosed}
        (hsite : step.site? = some t) (ht : s.Encloses fs t) (hmode' : mode'.Suits t)
        (hy : y ∈ enclosed ctx mode' t) :
        ∃ a, s.Encloses (fs ++ y.functions) a ∧ FoundAt ctx a y.found := by
      obtain ⟨a, ha, hfound⟩ := ih _ (steps_below ctx mode s step hstep t hsite)
        (fun u hu => hcode u (hu.trans ht.reaches)) hmode' hy rfl
      exact ⟨a, ht.trans ha, hfound⟩
    cases guarded_of_mem_steps hcode hmode hstep with
    | @found a m ha hspells =>
      obtain ⟨hfunctions, hfound⟩ := mem_ofMatches hx
      rw [bareAll_of_spells hspells] at hfound
      rw [hfunctions, List.mem_singleton.mp hfound]
      exact ⟨a, ha, .spelled hspells⟩
    | go ht hmode' => exact below _ rfl ht hmode' hx
    | enter ht =>
      obtain ⟨y, hy, rfl⟩ := List.mem_map.mp hx
      exact below .code rfl ht trivial hy
    | @launch f args config hlaunch =>
      rw [followEnclosed, List.cons_append] at hx
      rcases List.mem_cons.mp hx with rfl | hx
      · exact ⟨s, .self, .launch hlaunch⟩
      rcases List.mem_append.mp hx with hx | hx
      · obtain ⟨hfunctions, hfound⟩ := mem_ofMatches hx
        rw [hfunctions]
        exact ⟨s, .self, .config hlaunch hfound⟩
      · have hargs : s.Encloses [] args :=
          Site.encloses_child (by rw [hlaunch.isCall]; nofun) hlaunch.mem_arguments
        exact below .code rfl hargs trivial hx

end Constructs

namespace CudaFrontEnd

open Constructs

/-- Everything that the visit of a tree finds if it enters every body. -/
def treeEnclosed (config : Config) (source : String) (tree : Node) : List Enclosed :=
  if isSearched config source tree then
    enclosed (context config source tree) .code (.root tree)
  else []

theorem treeTrails_eq_map (config : Config) (source : String) (tree : Node) :
    treeTrails config source tree =
      (treeEnclosed config source tree).map (Enclosed.trail (neutralize source)) := by
  unfold treeTrails treeEnclosed
  split
  · exact trails_eq_map_enclosed (context config source tree) .code (.root tree)
  · rfl

/-- The visit of a tree finds what lies in functions whose spaces it enters. -/
theorem bareAll_constructs_eq (config : Config) (enters : ExecSpace → Bool) (source : String)
    (tree : Node) :
    bareAll (constructs config enters source tree) =
      ((treeEnclosed config source tree).filter fun x =>
        x.functions.all fun f => enters (ExecSpace.ofSite (neutralize source) f)).map
          Enclosed.found := by
  rw [bareAll_constructs, treeTrails_eq_map, shown, List.filter_map, List.map_map]
  refine congrArg (List.map Enclosed.found) (List.filter_congr fun x _ => ?_)
  exact List.all_map

/-- **A view hides what lies in functions that it does not see, and nothing else.** In a tree with
no function in a type, the visit that enters every body finds matches that lie in the bodies and
initializer lists of certain function definitions. Under a view the visit finds those of them, in
the same order, for which all these functions are visible. What lies in no function is found under
every view. -/
theorem view_hides_bodies (config : Config) (source : String) (tree : Node)
    (hcode : ∀ s, (Site.root tree).Reaches s → s.FunctionsInCode) :
    let ctx := context config source tree
    let all := treeEnclosed config source tree
    bareAll (constructs config (fun _ => true) source tree) = all.map Enclosed.found ∧
    (∀ x ∈ all, ∃ a, (Site.root tree).Encloses x.functions a ∧ FoundAt ctx a x.found) ∧
    (∀ view, bareAll (constructs config (·.visibleIn view) source tree) =
      (all.filter (·.visibleIn ctx.neutral view)).map Enclosed.found) ∧
    ∀ view, (all.filter (·.visibleIn ctx.neutral view)).filter (·.functions.isEmpty) =
      all.filter (·.functions.isEmpty) := by
  intro ctx all
  refine ⟨?_, fun x hx => ?_, fun view => bareAll_constructs_eq config _ source tree,
    fun view => ?_⟩
  · rw [bareAll_constructs_eq]
    refine congrArg (List.map Enclosed.found) (List.filter_eq_self.mpr fun x _ => ?_)
    exact List.all_eq_true.mpr fun _ _ => rfl
  · have hx : x ∈ treeEnclosed config source tree := hx
    unfold treeEnclosed at hx
    split at hx
    · have hmode : Mode.Suits (.root tree) .code := trivial
      exact encloses_of_mem_enclosed hcode hmode hx
    · cases hx
  · rw [List.filter_filter]
    refine List.filter_congr fun x _ => ?_
    cases hfunctions : x.functions with
    | nil => simp [Enclosed.visibleIn, hfunctions]
    | cons f fs => simp

/-- In a host function with a class whose member runs on the device, both views hide the call in
the member: it lies in a body of the host and in one of the device. -/
theorem view_hides_bodies_local :
    let ctx := context .default localSource localTree
    let all := treeEnclosed .default localSource localTree
    (∀ s, (Site.root localTree).Reaches s → s.FunctionsInCode) ∧
    all.map (fun x => x.functions.map (ExecSpace.ofSite ctx.neutral)) = [[.host, .device]] ∧
    (∀ x ∈ all, ∃ a, (Site.root localTree).Encloses x.functions a ∧ FoundAt ctx a x.found) ∧
    ∀ view, bareAll (constructs .default (·.visibleIn view) localSource localTree) = [] := by
  intro ctx all
  have hcode : ∀ s, (Site.root localTree).Reaches s → s.FunctionsInCode := by decide +kernel
  have hspaces : all.map (fun x => x.functions.map (ExecSpace.ofSite ctx.neutral)) =
      [[.host, .device]] := by decide +kernel
  obtain ⟨-, hplaces, hviews, -⟩ := view_hides_bodies .default localSource localTree hcode
  refine ⟨hcode, hspaces, hplaces, fun view => ?_⟩
  rw [hviews view, List.map_eq_nil_iff, List.filter_eq_nil_iff]
  intro x hx hvisible
  have hx := List.mem_map_of_mem (f := fun x => x.functions.map (ExecSpace.ofSite ctx.neutral)) hx
  rw [hspaces, List.mem_singleton] at hx
  have hseen : (x.functions.map (ExecSpace.ofSite ctx.neutral)).all (·.visibleIn view) = true :=
    List.all_map.trans hvisible
  rw [hx] at hseen
  cases view <;> cases hseen

/-! ### A function in a type -/

/-- A lambda in a type, with a function of the device in it. -/
def typedSource : String :=
  "decltype([] \x7b __device__ void g() \x7b cudaStream_t s; \x7d \x7d) x;\n"

/-- The tree of `typedSource`. -/
def typedTree : Node :=
  (Node.ofPreorder? [
    namedRow (.other "translation_unit") none 0 60 1,
    namedRow .declaration none 0 59 3,
    namedRow (.other "decltype") (some .type) 0 56 4, wordRow "decltype" 0, tokenRow "(" 8,
    namedRow (.other "lambda_expression") none 9 55 2,
    namedRow (.other "lambda_capture_specifier") (some (.other "captures")) 9 11 2,
    tokenRow "[" 9, tokenRow "]" 10,
    namedRow (.other "compound_statement") (some .body) 12 55 3, tokenRow "\x7b" 12,
    namedRow .functionDefinition none 25 53 3,
    namedRow (.other "primitive_type") (some .type) 25 29 0,
    namedRow .functionDeclarator (some .declarator) 30 33 2,
    namedRow .identifier (some .declarator) 30 31 0,
    namedRow .parameterList (some .parameters) 31 33 2, tokenRow "(" 31, tokenRow ")" 32,
    namedRow (.other "compound_statement") (some .body) 34 53 3, tokenRow "\x7b" 34,
    namedRow .declaration none 36 51 3,
    namedRow .typeIdentifier (some .type) 36 48 0,
    namedRow .identifier (some .declarator) 49 50 0, tokenRow ";" 50,
    tokenRow "\x7d" 52,
    tokenRow "\x7d" 54,
    tokenRow ")" 55,
    namedRow .identifier (some .declarator) 57 58 0, tokenRow ";" 58]).getD default

/-- The name, the location and the kind of a reference to a type. -/
def typeRefAt? : Match → Option (String × SourceLoc × TypeRefKind)
  | .typeRef name loc kind => some (name, loc, kind)
  | _ => none

/-- **A function in a type is not hidden**: the tree is regular, the name of a type at byte 36 lies
in the body of a function of the device, and the host view reports it too. -/
theorem function_in_type_is_shown :
    let ctx := context .default typedSource typedTree
    let m : Match := .typeRef "cudaStream_t" (.direct 36) .structVariable
    Regular .default typedSource typedTree ∧
    (∃ fs a, (Site.root typedTree).Encloses fs a ∧
      fs.map (ExecSpace.ofSite ctx.neutral) = [.device] ∧ Spells ctx a m) ∧
    ∀ view, m ∈ constructs .default (·.visibleIn view) typedSource typedTree := by
  intro ctx m
  refine ⟨by decide +kernel, ?_, ?_⟩
  · have hplace : ∃ p ∈ (Site.root typedTree).places,
        p.1.map (ExecSpace.ofSite ctx.neutral) = [.device] ∧ p.2.kind = .typeIdentifier ∧
          p.2.node.text ctx.source = "cudaStream_t" ∧ p.2.span.start = 36 := by decide +kernel
    obtain ⟨⟨fs, a⟩, hp, hspaces, hk, htext, hstart⟩ := hplace
    refine ⟨fs, a, Site.mem_places.mp hp, hspaces, ?_⟩
    have hapi : ctx.isApiName (a.node.text ctx.source) = true := by
      rw [htext]
      decide +kernel
    have hspells : Spells ctx a (.typeRef (a.node.text ctx.source) (.direct a.span.start)
        .structVariable) := .typeRef .structVariable (Or.inr hk) hapi
    rwa [htext, hstart] at hspells
  · have hviews : ∀ view ∈ View.passOrder,
        ∃ n ∈ constructs .default (·.visibleIn view) typedSource typedTree,
          typeRefAt? n = some ("cudaStream_t", .direct 36, .structVariable) := by decide +kernel
    intro view
    obtain ⟨n, hn, hread⟩ := hviews view (by cases view <;> decide)
    cases n with
    | typeRef name loc kind =>
      cases hread
      exact hn
    | _ => cases hread

end CudaFrontEnd

end CudaToHip
