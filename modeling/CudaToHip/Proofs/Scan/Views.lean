import CudaToHip.Proofs.Match
import CudaToHip.Proofs.Scan.Agreement

/-!
# What the two views show

A walk that enters every body passes through the bodies of functions on its way to a match; their
execution spaces, outermost first, are the match's *trail*. A walk that enters only some spaces
finds what has all the spaces of its trail among them (`bare_walk`), so one list of trails says
what each view shows.

* `views_show_unmixed`: each view shows the trails visible in it, nothing else and in order, and a
  trail is visible in one of the views unless it is *mixed*: it passes through a body of the host
  and through one of the device or a kernel.
* `local_member_is_lost`: mixed trails occur. What a `__device__` member of a class calls that is
  local to a function of the host is in neither scan.
-/

namespace CudaToHip

open CudaToHip.Tree

namespace Constructs

/-! ## Trails -/

/-- A match and the spaces of the bodies that it stands in, outermost first. -/
structure Trail where
  spaces : List ExecSpace
  found : Match

namespace Trail

/-- The trail that starts with the body of one more function. -/
def through (space : ExecSpace) (t : Trail) : Trail := { t with spaces := space :: t.spaces }

/-- Every body on the trail may be entered. -/
def passes (enters : ExecSpace → Bool) (t : Trail) : Bool := t.spaces.all enters

/-- All bodies on the trail are seen under the view. -/
def visibleIn (t : Trail) (view : View) : Bool := t.passes (·.visibleIn view)

/-- The trail passes through a body of the host and through one of the device or a kernel. -/
def Mixed (t : Trail) : Prop :=
  .host ∈ t.spaces ∧ (.device ∈ t.spaces ∨ .kernel ∈ t.spaces)

/-- A match and all that it holds, where no body is entered. -/
def ofMatches (ms : List Match) : List Trail := (Match.withinAll ms).map fun m => ⟨[], m.bare⟩

end Trail

/-- The trails at and below a site, every body entered. A launch stands in front of the matches that
it holds. -/
def trails (ctx : Context) (mode : Mode) (s : Site) : List Trail :=
  (ctx.steps mode s).attach.flatMap fun ⟨step, h⟩ =>
    match step, h with
    | .found m, _ => Trail.ofMatches [m]
    | .go mode' t, _ => trails ctx mode' t
    | .enter space t, _ => (trails ctx .code t).map (Trail.through space)
    | .launch l config t, _ => ⟨[], .launch l []⟩ :: Trail.ofMatches config ++ trails ctx .code t
termination_by sizeOf s.node
decreasing_by all_goals exact steps_below ctx mode s _ ‹_› _ rfl

variable {ctx : Context} {s : Site} {mode : Mode} {enters : ExecSpace → Bool} {space : ExecSpace}
  {ts us : List Trail} {ms : List Match}

/-- The trails that a step leads to. -/
def followTrails (ctx : Context) : Step → List Trail
  | .found m => Trail.ofMatches [m]
  | .go mode t => trails ctx mode t
  | .enter space t => (trails ctx .code t).map (Trail.through space)
  | .launch l config t => ⟨[], .launch l []⟩ :: Trail.ofMatches config ++ trails ctx .code t

theorem trails_eq (ctx : Context) (mode : Mode) (s : Site) :
    trails ctx mode s = (ctx.steps mode s).flatMap (followTrails ctx) := by
  rw [trails, ← flatMap_attach _ (followTrails ctx)]
  congr 1
  funext ⟨step, h⟩
  cases step <;> rfl

/-! ## What a walk finds of the trails -/

/-- The matches and all that they hold, each alone. -/
def bareAll (ms : List Match) : List Match := (Match.withinAll ms).map Match.bare

/-- The matches at the ends of the trails that may be followed. -/
def shown (enters : ExecSpace → Bool) (ts : List Trail) : List Match :=
  (ts.filter (·.passes enters)).map Trail.found

theorem shown_append (enters : ExecSpace → Bool) (ts us : List Trail) :
    shown enters (ts ++ us) = shown enters ts ++ shown enters us := by
  simp only [shown, List.filter_append, List.map_append]

theorem shown_flatMap {α : Type} (enters : ExecSpace → Bool) (xs : List α) (f : α → List Trail) :
    shown enters (xs.flatMap f) = xs.flatMap fun x => shown enters (f x) := by
  simp only [shown, List.filter_flatMap, List.map_flatMap]

/-- Trails through no body are all shown. -/
theorem shown_ofMatches (enters : ExecSpace → Bool) (ms : List Match) :
    shown enters (Trail.ofMatches ms) = bareAll ms := by
  have hall : (Trail.ofMatches ms).filter (·.passes enters) = Trail.ofMatches ms := by
    refine List.filter_eq_self.mpr fun t ht => ?_
    obtain ⟨m, -, rfl⟩ := List.mem_map.mp ht
    rfl
  rw [shown, hall, Trail.ofMatches, List.map_map]
  rfl

/-- Trails that start with a body are shown if it may be entered. -/
theorem shown_through (enters : ExecSpace → Bool) (space : ExecSpace) (ts : List Trail) :
    shown enters (ts.map (Trail.through space)) = if enters space then shown enters ts else [] := by
  have hpasses (t : Trail) :
      (t.through space).passes enters = (enters space && t.passes enters) := rfl
  rw [shown, List.filter_map, List.map_map]
  by_cases h : enters space = true
  · rw [if_pos h, shown]
    simp only [Function.comp_def, hpasses, h, Bool.true_and]
    rfl
  · rw [if_neg h]
    simp [Function.comp_def, hpasses, h]

/-- **A walk finds the trails that it may follow**, each in its place. -/
theorem bare_walk (ctx : Context) (enters : ExecSpace → Bool) (mode : Mode) (s : Site) :
    bareAll (walk ctx enters mode s) = shown enters (trails ctx mode s) := by
  induction hn : sizeOf s.node using Nat.strongRecOn generalizing s mode with
  | ind n ih =>
    subst hn
    have below {step : Step} {t : Site} (hstep : step ∈ ctx.steps mode s)
        (ht : step.site? = some t) (mode' : Mode) :
        bareAll (walk ctx enters mode' t) = shown enters (trails ctx mode' t) :=
      ih _ (steps_below ctx mode s step hstep t ht) mode' t rfl
    rw [walk_eq, trails_eq, shown_flatMap, bareAll, Match.withinAll_flatMap, List.map_flatMap]
    refine List.flatMap_congr fun step hstep => ?_
    cases step with
    | found m => exact (shown_ofMatches enters [m]).symm
    | go mode' t => exact below hstep rfl mode'
    | enter space t =>
      rw [followTrails, shown_through, follow_enter, ← below hstep rfl .code]
      by_cases h : enters space = true
      · rw [if_pos h, if_pos h]
        rfl
      · rw [if_neg h, if_neg h]
        rfl
    | launch l config t =>
      have hhead : shown enters [⟨[], .launch l []⟩] = [.launch l []] := rfl
      rw [followTrails, List.cons_append, ← List.singleton_append, shown_append, shown_append,
        hhead, shown_ofMatches, ← below hstep rfl .code, follow, Match.withinAll_singleton,
        Match.within, Match.withinAll_append, List.map_cons, List.map_append]
      rfl

/-! ## Two views -/

theorem visibleIn_host_iff : space.visibleIn .hostOnly = true ↔ space ≠ .device ∧ space ≠ .kernel := by
  cases space <;> decide

theorem visibleIn_device_iff : space.visibleIn .deviceOnly = true ↔ space ≠ .host := by
  cases space <;> decide

/-- **A trail is visible in one of the views unless it is mixed.** -/
theorem Trail.exists_visibleIn_iff {t : Trail} : (∃ view, t.visibleIn view = true) ↔ ¬ t.Mixed := by
  have hhost : t.visibleIn .hostOnly = true ↔ .device ∉ t.spaces ∧ .kernel ∉ t.spaces := by
    simp only [visibleIn, passes, List.all_eq_true, visibleIn_host_iff]
    constructor
    · intro h
      exact ⟨fun hd => (h _ hd).1 rfl, fun hk => (h _ hk).2 rfl⟩
    · rintro ⟨hd, hk⟩ space hs
      exact ⟨fun h => hd (h ▸ hs), fun h => hk (h ▸ hs)⟩
  have hdevice : t.visibleIn .deviceOnly = true ↔ .host ∉ t.spaces := by
    simp only [visibleIn, passes, List.all_eq_true, visibleIn_device_iff]
    constructor
    · intro h hh
      exact h _ hh rfl
    · intro hh space hs h
      exact hh (h ▸ hs)
  constructor
  · rintro ⟨view, hview⟩ ⟨hh, hdk⟩
    cases view with
    | hostOnly =>
      obtain ⟨hd, hk⟩ := hhost.mp hview
      exact hdk.elim hd hk
    | deviceOnly => exact hdevice.mp hview hh
  · intro hmixed
    by_cases hh : .host ∈ t.spaces
    · refine ⟨.hostOnly, hhost.mpr ⟨fun hd => ?_, fun hk => ?_⟩⟩
      · exact hmixed ⟨hh, Or.inl hd⟩
      · exact hmixed ⟨hh, Or.inr hk⟩
    · exact ⟨.deviceOnly, hdevice.mpr hh⟩

end Constructs

namespace CudaFrontEnd

open Constructs

/-- The tree is searched: it has no errors, or they are tolerated. -/
def isSearched (config : Config) (source : String) (tree : Node) : Bool :=
  (SyntaxErrors.scan source tree).isEmpty || config.tolerant

/-- The constructs that the visit of a tree reports if it goes into the bodies of the given
spaces. -/
def constructs (config : Config) (enters : ExecSpace → Bool) (source : String) (tree : Node) :
    List Match :=
  if isSearched config source tree then
    walk (context config source tree) enters .code (.root tree)
  else []

/-- The trails of a tree that is searched. -/
def treeTrails (config : Config) (source : String) (tree : Node) : List Trail :=
  if isSearched config source tree then trails (context config source tree) .code (.root tree)
  else []

theorem found_scanTree (config : Config) (view : View) (source : String) (tree : Node) :
    (scanTree config view source tree).found =
      Directives.scan source tree ++ constructs config (·.visibleIn view) source tree := rfl

/-- The scan of a file that is not too large is the scan of its tree. -/
theorem scan_of_parse? {grammar : Grammar} {config : Config} {file : SourceFile} {view : View}
    {tree : Node} (hsize : file.text.utf8ByteSize ≤ config.maxFileSize)
    (hparse : grammar.parse? (neutralize file.text).code = some tree) :
    scan grammar config file view = .ok (scanTree config view file.text tree) := by
  unfold scan
  dsimp only
  rw [if_neg (Nat.not_lt.mpr hsize), hparse]

/-- A scan finds nothing, because the file is too large, or it is the scan of a tree. -/
theorem cases_of_scan {grammar : Grammar} {config : Config} {file : SourceFile} {view : View}
    {result : Scan} (h : scan grammar config file view = .ok result) :
    result.found = [] ∨ ∃ tree, grammar.parse? (neutralize file.text).code = some tree ∧
      result = scanTree config view file.text tree := by
  unfold scan at h
  dsimp only at h
  split at h
  · obtain rfl := Except.ok.inj h
    exact Or.inl rfl
  · split at h
    · cases h
    · rename_i tree hparse
      exact Or.inr ⟨tree, hparse, (Except.ok.inj h).symm⟩

theorem bareAll_constructs (config : Config) (enters : ExecSpace → Bool) (source : String)
    (tree : Node) :
    bareAll (constructs config enters source tree) =
      shown enters (treeTrails config source tree) := by
  unfold constructs treeTrails
  by_cases h : isSearched config source tree = true
  · rw [if_pos h, if_pos h]
    exact bare_walk _ enters .code _
  · rw [if_neg h, if_neg h]
    rfl

/-- **The views show everything that is not mixed.** The visit of a tree that enters every body
reports the ends of the trails. Behind the matches of directives, each view shows those trails that
are visible in it, whole and in this order. So what has no mixed trail is found by the host scan or
by the device scan, at the same place and with all its names, and a mixed trail is followed by
neither. -/
theorem views_show_unmixed (config : Config) (source : String) (tree : Node) :
    bareAll (constructs config (fun _ => true) source tree) =
      (treeTrails config source tree).map Trail.found ∧
    (∀ view, bareAll (scanTree config view source tree).found =
      bareAll (Directives.scan source tree) ++
        ((treeTrails config source tree).filter (·.visibleIn view)).map Trail.found) ∧
    ∀ t ∈ treeTrails config source tree,
      (¬ t.Mixed → ∃ view, t.found ∈ bareAll (scanTree config view source tree).found) ∧
      (t.Mixed → ∀ view, t.visibleIn view = false) := by
  have hviews (view : View) : bareAll (scanTree config view source tree).found =
      bareAll (Directives.scan source tree) ++
        ((treeTrails config source tree).filter (·.visibleIn view)).map Trail.found := by
    rw [found_scanTree, bareAll, Match.withinAll_append, List.map_append]
    exact congrArg _ (bareAll_constructs config _ source tree)
  refine ⟨?_, hviews, fun t ht => ⟨fun hmixed => ?_, fun hmixed view => ?_⟩⟩
  · rw [bareAll_constructs]
    have hall : (treeTrails config source tree).filter (·.passes fun _ => true) =
        treeTrails config source tree :=
      List.filter_eq_self.mpr fun t _ => List.all_eq_true.mpr fun _ _ => rfl
    rw [shown, hall]
  · obtain ⟨view, hview⟩ := Trail.exists_visibleIn_iff.mpr hmixed
    refine ⟨view, ?_⟩
    rw [hviews]
    exact List.mem_append_right _ (List.mem_map_of_mem (List.mem_filter.mpr ⟨ht, hview⟩))
  · by_contra hview
    exact Trail.exists_visibleIn_iff.mp ⟨view, by simpa using hview⟩ hmixed

/-! ### A member that neither view shows -/

/-- A function of the host with a class of its own, whose member runs on the device. -/
def localSource : String :=
  "void f() \x7b struct S \x7b __device__ void g() \x7b cudaFree(p); \x7d \x7d s; \x7d\n"

/-- The tree of `localSource`. -/
def localTree : Node :=
  (Node.ofPreorder? [
    namedRow (.other "translation_unit") none 0 66 1,
    namedRow .functionDefinition none 0 65 3,
    namedRow (.other "primitive_type") (some .type) 0 4 0,
    namedRow .functionDeclarator (some .declarator) 5 8 2,
    namedRow .identifier (some .declarator) 5 6 0,
    namedRow .parameterList (some .parameters) 6 8 2, tokenRow "(" 6, tokenRow ")" 7,
    namedRow (.other "compound_statement") (some .body) 9 65 3, tokenRow "\x7b" 9,
    namedRow .declaration none 11 63 3,
    namedRow (.other "struct_specifier") (some .type) 11 60 3, wordRow "struct" 11,
    namedRow .typeIdentifier (some .name) 18 19 0,
    namedRow .fieldList (some .body) 20 60 3, tokenRow "\x7b" 20,
    namedRow .functionDefinition none 33 58 3,
    namedRow (.other "primitive_type") (some .type) 33 37 0,
    namedRow .functionDeclarator (some .declarator) 38 41 2,
    namedRow (.other "field_identifier") (some .declarator) 38 39 0,
    namedRow .parameterList (some .parameters) 39 41 2, tokenRow "(" 39, tokenRow ")" 40,
    namedRow (.other "compound_statement") (some .body) 42 58 3, tokenRow "\x7b" 42,
    namedRow (.other "expression_statement") none 44 56 2,
    namedRow .callExpression none 44 55 2,
    namedRow .identifier (some .function) 44 52 0,
    namedRow .argumentList (some .arguments) 52 55 3, tokenRow "(" 52,
    namedRow .identifier none 53 54 0, tokenRow ")" 54,
    tokenRow ";" 55,
    tokenRow "\x7d" 57,
    tokenRow "\x7d" 59,
    namedRow .identifier (some .declarator) 61 62 0, tokenRow ";" 62,
    tokenRow "\x7d" 64]).getD default

/-- The name and the location of a call. -/
def calleeAt? : Match → Option (String × SourceLoc)
  | .call callee loc => some (callee, loc)
  | _ => none

theorem eq_call_of_calleeAt? {m : Match} {callee : String} {loc : SourceLoc}
    (h : calleeAt? m = some (callee, loc)) : m = .call callee loc := by
  cases m with
  | call c l =>
    obtain ⟨rfl, rfl⟩ := Prod.mk.inj (Option.some.inj h)
    rfl
  | _ => cases h

/-- **A device member of a class that is local to a host function is lost**: the tree is regular,
the visit that enters every body reports the call in it, and neither scan finds anything. -/
theorem local_member_is_lost :
    Regular .default localSource localTree ∧
    .call "cudaFree" (.direct 44) ∈
      constructs .default (fun _ => true) localSource localTree ∧
    ∀ view, (scanTree .default view localSource localTree).found = [] := by
  refine ⟨by decide +kernel, ?_, ?_⟩
  · have hcall : ∃ m ∈ constructs .default (fun _ => true) localSource localTree,
        calleeAt? m = some ("cudaFree", .direct 44) := by decide +kernel
    obtain ⟨m, hm, hcallee⟩ := hcall
    exact eq_call_of_calleeAt? hcallee ▸ hm
  · have hviews : ∀ view ∈ View.passOrder,
        (scanTree .default view localSource localTree).found.isEmpty = true := by decide +kernel
    intro view
    refine List.isEmpty_iff.mp (hviews view ?_)
    cases view <;> decide

end CudaFrontEnd

end CudaToHip
