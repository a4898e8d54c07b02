import CudaToHip.Proofs.Scan.Visits

/-!
# Names in template arguments

A function may be called with template arguments: `f<cudaError_t>(x)`. A call without a launch
configuration goes on in these; a launch, `f<cudaError_t><<<1, 1>>>(x)`, goes on in its
configuration and its arguments only, and takes the function as a text.

* `Constructs.TemplateArguments`, `Constructs.ArgumentName`: what the template arguments of a
  function are, and the names in them.
* `Constructs.Visits.templateArguments`, `Constructs.Visits.codeIn`: what a walk comes to from a
  plain call, and from its template arguments.
* `CudaFrontEnd.names_in_template_arguments`: every name among the template arguments is found
  exactly once in a plain call, and in a launch not at all.
* `CudaFrontEnd.launch_hides_template_arguments`: the same call with a configuration.
-/

namespace CudaToHip

open CudaToHip.Tree

/-! ## Template arguments -/

namespace Tree.Kind

def templateMethod : Kind := .other "template_method"

/-- In code, a walk goes on in all children of such a node, whatever it looks like. -/
def isPassed : Kind → Bool
  | .includeDirective | .defineDirective | .functionDefineDirective | .definedOperator | .comment
  | .ifDirective | .ifdefDirective | .elifDirective | .elifdefDirective | .functionDefinition
  | .declaration | .fieldDeclaration | .parameterDeclaration | .optionalParameterDeclaration
  | .enumerator | .rangeFor | .callExpression | .fieldExpression | .identifier | .typeDescriptor
  | .stringLiteral | .rawStringLiteral => false
  | _ => true

end Tree.Kind

namespace Constructs

open Match (namesAt)

variable {ctx : Context} {enters : ExecSpace → Bool} {r s t u f a args : Site}
  {config : LaunchConfig} {mode mode₀ mode' : Mode} {kind : TypeRefKind}

/-- The template arguments `a` of a called function: its own, or those of the last part of its
name, of the member that it is, or of what stands in parentheses. -/
inductive TemplateArguments (source : String) : Site → Site → Prop
  | own {f a : Site} : f.kind = .templateFunction ∨ f.kind = .templateMethod →
      f.child? .arguments = some a → (a.node.text source).toList.head? = some '<' →
      TemplateArguments source f a
  | name {f g a : Site} : f.kind = .qualifiedIdentifier → f.child? .name = some g →
      TemplateArguments source g a → TemplateArguments source f a
  | member {f g a : Site} : f.kind = .fieldExpression → f.child? (.other "field") = some g →
      TemplateArguments source g a → TemplateArguments source f a
  | inner {f g a : Site} {name : String} : f.kind = .other name → g ∈ f.children →
      TemplateArguments source g a → TemplateArguments source f a

theorem TemplateArguments.reaches {source : String} (h : TemplateArguments source f a) :
    f.Reaches a := by
  induction h with
  | own _ ha _ => exact .of_mem_children (Site.mem_children_of_child? ha)
  | name _ hg _ ih | member _ hg _ ih =>
    exact ih.trans (.of_mem_children (Site.mem_children_of_child? hg))
  | inner _ hg _ ih => exact ih.trans (.of_mem_children hg)

/-- A walk goes on in all children of the site: its kind says so, or it is a member access that
reads as no coordinate. -/
def Context.passes (ctx : Context) (s : Site) : Bool :=
  s.kind.isPassed || (s.kind = .fieldExpression && !ctx.readsCoordinate s)

/-- The second site is code in the first: no type, no declaration, no part of a literal and of a
launch stands between. -/
inductive CodeIn (ctx : Context) (s : Site) : Site → Prop
  | self : CodeIn ctx s s
  | child {t c : Site} : CodeIn ctx s t → ctx.passes t = true → c ∈ t.children → CodeIn ctx s c
  | templateArguments {t f c : Site} : CodeIn ctx s t → t.kind = .callExpression →
      ctx.isLaunch t = false → t.child? .function = some f → TemplateArguments ctx.source f c →
      CodeIn ctx s c
  | arguments {t c : Site} : CodeIn ctx s t → t.kind = .callExpression →
      ctx.isLaunch t = false → t.child? .arguments = some c → CodeIn ctx s c

/-- The second site is a part of the first, which is a type. -/
inductive TypeIn (s : Site) : Site → Prop
  | self : TypeIn s s
  | child {t c : Site} : TypeIn s t → t.kind.isTypePart = false → c ∈ t.children → TypeIn s c

/-- A name `u` among the template arguments `a`, and the kind of reference that it is: a constant in
an expression, or the name of a type in a type. -/
inductive ArgumentName (ctx : Context) (a : Site) : Site → TypeRefKind → Prop
  | constant {u : Site} : CodeIn ctx a u → u.kind = .identifier →
      ArgumentName ctx a u .enumConstant
  | type {d c u : Site} : CodeIn ctx a d → d.kind = .typeDescriptor → c ∈ d.children →
      TypeIn c u → u.kind = .typeIdentifier → ArgumentName ctx a u .typeExpression

theorem CodeIn.reaches (h : CodeIn ctx s t) : s.Reaches t := by
  induction h with
  | self => exact .self
  | child _ _ hc ih => exact ih.child hc
  | templateArguments _ _ _ hf ha ih =>
    exact (ha.reaches.trans (.of_mem_children (Site.mem_children_of_child? hf))).trans ih
  | arguments _ _ _ hc ih => exact ih.child (Site.mem_children_of_child? hc)

theorem TypeIn.reaches (h : TypeIn s t) : s.Reaches t := by
  induction h with
  | self => exact .self
  | child _ _ hc ih => exact ih.child hc

theorem ArgumentName.reaches (h : ArgumentName ctx a u kind) : a.Reaches u := by
  cases h with
  | constant hu => exact hu.reaches
  | type hd _ hc hu => exact (hu.reaches.trans (.of_mem_children hc)).trans hd.reaches

/-! ## A site with a template argument list in it reads as no coordinate -/

/-- The text of a site holds the text of every site below it. -/
theorem text_infix_of_reaches (hs : Sound ctx s) (h : s.Reaches t) :
    (t.node.text ctx.source).toList <:+: (s.node.text ctx.source).toList := by
  have hin := Span.contains_iff.mp (Site.contains_of_reaches hs.placed h)
  obtain ⟨hst, hstart, hstop⟩ := Text.slice?_isSome_iff.mp hs.self.boundaries
  obtain ⟨htt, htstart, htstop⟩ := Text.slice?_isSome_iff.mp (hs t h).boundaries
  have hleft := Text.slice?_eq_between hin.1 hstart htstart
  have hself := Text.slice?_eq_between htt htstart htstop
  have hright := Text.slice?_eq_between hin.2 htstop hstop
  have hwhole := Text.slice?_join hleft (Text.slice?_join hself hright)
  have htext : t.node.text ctx.source = Text.between ctx.source t.span.start t.span.stop := rfl
  have hstext : s.node.text ctx.source = Text.between ctx.source s.span.start s.span.stop := rfl
  rw [htext, hstext, Text.between_of_slice? hwhole, String.toList_append, String.toList_append]
  exact ⟨_, _, List.append_assoc ..⟩

theorem not_mem_of_coordinate? {m : Match} (h : ctx.coordinate? s = some m) :
    '<' ∉ (s.node.text ctx.source).toList := by
  unfold Context.coordinate? at h
  dsimp only at h
  split at h
  · rename_i member hdrop
    rw [Option.ite_none_right_eq_some] at h
    obtain ⟨⟨hobject, hmember⟩, -⟩ := h
    have hchars : ∀ object ∈ coordinateObjects, '<' ∉ object.toList := by decide
    have hobject := hchars _ (List.contains_iff_mem.mp hobject)
    rw [String.toList_ofList] at hobject
    have hmember : '<' ≠ member := by
      rintro rfl
      exact absurd hmember (by decide)
    rw [← List.takeWhile_append_dropWhile (p := fun c => decide (c ≠ '.'))
      (l := (s.node.text ctx.source).toList), hdrop]
    simp only [List.mem_append, List.mem_cons, List.not_mem_nil, or_false, not_or]
    exact ⟨hobject, by decide, hmember⟩
  · cases h

theorem TemplateArguments.mem_text (h : TemplateArguments ctx.source f a) :
    '<' ∈ (a.node.text ctx.source).toList := by
  induction h with
  | own _ _ hhead => exact List.mem_of_mem_head? hhead
  | name _ _ _ ih | member _ _ _ ih | inner _ _ _ ih => exact ih

/-! ## What is visited from a call -/

theorem codeSteps_of_passes (h : ctx.passes s = true) :
    ctx.codeSteps s = Context.goAll .code s.children := by
  unfold Context.passes at h
  unfold Context.codeSteps
  split
  case h_23 => rfl
  case h_18 =>
    rename_i hk
    rw [Context.readsCoordinate, hk] at h
    split
    · rename_i m hm
      rw [hm] at h
      cases h
    · rfl
  all_goals
    rename_i hk
    rw [hk] at h
    cases h

/-- A walk that goes on in all children visits each of them. -/
theorem Visits.child (h : Visits ctx enters mode₀ r mode s)
    (hsteps : ctx.steps mode s = Context.goAll mode' s.children) (ht : t ∈ s.children) :
    Visits ctx enters mode₀ r mode' t := by
  have hstep : .go mode' t ∈ ctx.steps mode s := by
    rw [hsteps]
    exact List.mem_map_of_mem ht
  exact h.step hstep rfl

theorem Visits.passes (h : Visits ctx enters mode₀ r .code s) (hs : ctx.passes s = true)
    (ht : t ∈ s.children) : Visits ctx enters mode₀ r .code t :=
  h.child (codeSteps_of_passes hs) ht

theorem Visits.typeIn (h : Visits ctx enters mode₀ r (.types kind) s) (ht : TypeIn s t) :
    Visits ctx enters mode₀ r (.types kind) t := by
  induction ht with
  | self => exact h
  | child _ hpart hc ih => exact ih.child (typeSteps_of_not_isTypePart hpart) hc

/-- **From a called function a walk comes to its template arguments.** -/
theorem TemplateArguments.visits (ha : TemplateArguments ctx.source f a)
    (hf : Visits ctx enters mode₀ r .code f) (hs : Sound ctx f) :
    Visits ctx enters mode₀ r .code a := by
  induction ha with
  | @own f a hk ha _ =>
    refine hf.passes ?_ (Site.mem_children_of_child? ha)
    rcases hk with hk | hk <;> rw [Context.passes, hk] <;> rfl
  | @name f g a hk hg _ ih =>
    have hmem := Site.mem_children_of_child? hg
    refine ih (hf.passes ?_ hmem) (hs.of_reaches (.of_mem_children hmem))
    rw [Context.passes, hk]
    rfl
  | @member f g a hk hg ha ih =>
    have hmem := Site.mem_children_of_child? hg
    refine ih (hf.passes ?_ hmem) (hs.of_reaches (.of_mem_children hmem))
    have hnone : ctx.coordinate? f = none := by
      refine Option.eq_none_iff_forall_ne_some.mpr fun m hm => not_mem_of_coordinate? hm ?_
      have hreach : f.Reaches a := ha.reaches.trans (.of_mem_children hmem)
      exact (text_infix_of_reaches hs hreach).subset ha.mem_text
    rw [Context.passes, Context.readsCoordinate, hk, hnone]
    rfl
  | @inner f g a name hk hg _ ih =>
    refine ih (hf.passes ?_ hg) (hs.of_reaches (.of_mem_children hg))
    rw [Context.passes, hk]
    rfl

/-- A call that is no launch is a plain one, if it has a function and arguments. -/
theorem callSteps_of_not_isLaunch (hk : s.kind = .callExpression) (hs : ctx.isLaunch s = false)
    (hf : s.child? .function = some f) : ctx.callSteps s =
      match s.child? .arguments with
      | some args => ctx.plainCallSteps f args
      | none => Context.goAll .code s.children := by
  unfold Context.isLaunch at hs
  unfold Context.callSteps
  rw [hf] at hs ⊢
  cases hargs : s.child? .arguments with
  | none => rfl
  | some args =>
    rw [hargs] at hs
    have hnone : ctx.neutral.launchIn? ⟨f.span.stop, args.span.start⟩ = none := by
      simpa [hk] using hs
    dsimp only
    rw [hnone]

/-- The template arguments of a function with a name of its own stand in the function. -/
theorem child?_arguments_of_calleeName? {name : Site} (hname : Context.calleeName? f = some name)
    (ha : TemplateArguments ctx.source f a) : f.child? .arguments = some a := by
  unfold Context.calleeName? at hname
  cases ha with
  | own _ ha _ => exact ha
  | @name _ g _ hk hg ha =>
    -- the last part of the name is an identifier, which has no template arguments
    rw [hk] at hname
    dsimp only at hname
    rw [hg] at hname
    obtain ⟨hg, hkind⟩ := Option.filter_eq_some_iff.mp hname
    obtain rfl := Option.some.inj hg
    have hkind : g.kind = .identifier := of_decide_eq_true hkind
    cases ha with
    | own h _ _ => rcases h with h | h <;> rw [hkind] at h <;> cases h
    | name h _ _ | member h _ _ | inner h _ _ =>
      rw [hkind] at h
      cases h
  | member hk _ _ | inner hk _ _ =>
    rw [hk] at hname
    cases hname

/-- **A plain call goes on in the template arguments of its function.** -/
theorem Visits.templateArguments (h : Visits ctx enters mode₀ r .code s) (hs : Sound ctx s)
    (hk : s.kind = .callExpression) (hlaunch : ctx.isLaunch s = false)
    (hf : s.child? .function = some f) (ha : TemplateArguments ctx.source f a) :
    Visits ctx enters mode₀ r .code a := by
  have hmem := Site.mem_children_of_child? hf
  have hsound : Sound ctx f := hs.of_reaches (.of_mem_children hmem)
  have hsteps : ctx.steps .code s = ctx.callSteps s := by
    rw [Context.steps, Context.codeSteps, hk]
  rw [callSteps_of_not_isLaunch hk hlaunch hf] at hsteps
  cases hargs : s.child? .arguments with
  | none =>
    rw [hargs] at hsteps
    exact ha.visits (h.child hsteps hmem) hsound
  | some args =>
    rw [hargs] at hsteps
    dsimp only at hsteps
    unfold Context.plainCallSteps at hsteps
    cases hname : Context.calleeName? f with
    | none =>
      have hstep : .go .code f ∈ ctx.steps .code s := by
        rw [hsteps, hname]
        exact List.mem_append_left _ (List.mem_singleton_self _)
      exact ha.visits (h.step hstep rfl) hsound
    | some name =>
      have hgo : Context.goTo .code f .arguments = [.go .code a] := by
        rw [Context.goTo, child?_arguments_of_calleeName? hname ha]
        rfl
      have hstep : .go .code a ∈ ctx.steps .code s := by
        rw [hsteps, hname]
        dsimp only
        rw [hgo]
        exact List.mem_append_left _ (List.mem_append_left _ (List.mem_singleton_self _))
      exact h.step hstep rfl

/-- A plain call goes on in its arguments. -/
theorem Visits.callArguments (h : Visits ctx enters mode₀ r .code s)
    (hk : s.kind = .callExpression) (hlaunch : ctx.isLaunch s = false)
    (ha : s.child? .arguments = some a) : Visits ctx enters mode₀ r .code a := by
  have hsteps : ctx.steps .code s = ctx.callSteps s := by
    rw [Context.steps, Context.codeSteps, hk]
  cases hf : s.child? .function with
  | none =>
    refine h.child ?_ (Site.mem_children_of_child? ha)
    rw [hsteps, Context.callSteps, hf]
  | some f =>
    rw [callSteps_of_not_isLaunch hk hlaunch hf, ha] at hsteps
    have hstep : .go .code a ∈ ctx.steps .code s := by
      rw [hsteps]
      exact List.mem_append_right _ (List.mem_singleton_self _)
    exact h.step hstep rfl

/-- A walk comes to the code in a site that it visits. -/
theorem Visits.codeIn (h : Visits ctx enters mode₀ r .code s) (hs : Sound ctx s)
    (ht : CodeIn ctx s t) : Visits ctx enters mode₀ r .code t := by
  induction ht with
  | self => exact h
  | child _ hpasses hc ih => exact ih.passes hpasses hc
  | templateArguments ht hk hlaunch hf ha ih =>
    exact ih.templateArguments (hs.of_reaches ht.reaches) hk hlaunch hf ha
  | arguments _ hk hlaunch hc ih => exact ih.callArguments hk hlaunch hc

/-! ## Names among template arguments -/

/-- **A name that a walk comes to is found there** and nothing else is, as the reference that the walk
reports. -/
theorem namesAt_of_typeRef (hr : Sound ctx r) (hn : ctx.neutral = neutralize ctx.source)
    (hu : Visits ctx enters mode₀ r mode u)
    (hsteps : ctx.steps mode u =
      (ctx.typeRef (u.node.text ctx.source) u.span.start kind).map .found)
    (hapi : ctx.isApiName (u.node.text ctx.source) = true) :
    namesAt u.span.start (walk ctx enters mode₀ r) =
      [.typeRef (u.node.text ctx.source) (.direct u.span.start) kind] := by
  have hlt : u.span.start < u.span.stop :=
    (hr u hu.reaches).start_lt_stop (ne_empty_of_isApiName hapi)
  rw [namesAt_of_visits hr hn hu ⟨Nat.le_refl _, hlt⟩, walk_eq, hsteps, Context.typeRef,
    if_pos hapi]
  simp [follow, namesAt, Match.withinAll_singleton, Match.within, Match.isNameAt,
    SourceLoc.effective, SourceLoc.direct]

/-- **A name among visited template arguments is found there**, as the reference that it is. -/
theorem namesAt_of_argumentName (hr : Sound ctx r) (hn : ctx.neutral = neutralize ctx.source)
    (ha : Visits ctx enters mode₀ r .code a) (hu : ArgumentName ctx a u kind)
    (hapi : ctx.isApiName (u.node.text ctx.source) = true) :
    namesAt u.span.start (walk ctx enters mode₀ r) =
      [.typeRef (u.node.text ctx.source) (.direct u.span.start) kind] := by
  have hsound : Sound ctx a := hr.of_reaches ha.reaches
  cases hu with
  | constant hu hk =>
    refine namesAt_of_typeRef hr hn (ha.codeIn hsound hu) ?_ hapi
    rw [Context.steps, Context.codeSteps, hk]
  | @type d c _ hd hk hc hu hku =>
    have hdvisits := ha.codeIn hsound hd
    have hsteps : ctx.steps .code d = Context.goAll (.types .typeExpression) d.children := by
      rw [Context.steps, Context.codeSteps, hk]
    refine namesAt_of_typeRef hr hn ((hdvisits.child hsteps hc).typeIn hu) ?_ hapi
    rw [Context.steps, Context.typeSteps, hku]

/-- A walk takes a launch in one step. -/
theorem LaunchAt.steps_eq (h : LaunchAt ctx s f args config) : ctx.steps .code s =
    [.launch (ctx.launchOf s f args config) (ctx.ofConfig config) args] := by
  rw [Context.steps, Context.codeSteps, h.isCall]
  dsimp only
  rw [Context.callSteps, h.inFunction, h.inArguments]
  dsimp only
  rw [h.between]

/-- **A launch finds nothing in its function.** -/
theorem namesAt_of_launch {byte : Nat} (hs : Sound ctx s) (hn : ctx.neutral = neutralize ctx.source)
    (h : LaunchAt ctx s f args config) (hbyte : byte < f.span.stop) :
    namesAt byte (walk ctx enters .code s) = [] := by
  have hbetween := h.config_between
  have hle := lt_of_mem_launches (hn ▸ h.mem_launches)
  have hargs : namesAt byte (walk ctx enters .code args) = [] := by
    refine List.eq_nil_iff_forall_not_mem.mpr fun m hm => ?_
    have hin := between_of_namesAt_walk (hs.of_reaches (.of_mem_children h.mem_arguments)) hn hm
    omega
  rw [walk_eq, h.steps_eq, List.flatMap_singleton, follow, Match.namesAt_launch, Match.namesAt_append,
    namesAt_ofConfig hn h.mem_launches (by omega), hargs, List.append_nil]

/-- A launch has a function, arguments and a configuration. -/
theorem exists_launchAt (h : ctx.isLaunch s = true) :
    ∃ f args config, LaunchAt ctx s f args config := by
  unfold Context.isLaunch at h
  obtain ⟨hk, h⟩ := Bool.and_eq_true_iff.mp h
  split at h
  · rename_i f args hf hargs
    obtain ⟨config, hconfig⟩ := Option.isSome_iff_exists.mp h
    exact ⟨f, args, config, of_decide_eq_true hk, hf, hargs, hconfig⟩
  · cases h

end Constructs

namespace CudaFrontEnd

open Constructs

variable {config : Config} {source : String} {tree : Node} {view : View} {s f a u : Site}
  {kind : TypeRefKind} {byte : Nat}

/-- Names are found in the tree only, not in directives. -/
theorem namesAt_scanTree (hsearch : isSearched config source tree = true) :
    Match.namesAt byte (scanTree config view source tree).found =
      Match.namesAt byte
        (walk (context config source tree) (·.visibleIn view) .code (.root tree)) := by
  have hnone : Match.namesAt byte (Directives.scan source tree) = [] := by
    refine List.eq_nil_iff_forall_not_mem.mpr fun m hm => ?_
    obtain ⟨hm, hname⟩ := Match.mem_namesAt.mp hm
    rw [Directives.withinAll_scan] at hm
    have hdirective := Directives.isDirective_of_mem_scan hm
    cases m with
    | inclusion | macroIdentifier => cases hname
    | _ => cases hdirective
  rw [found_scanTree, Match.namesAt_append, hnone, List.nil_append, constructs, if_pos hsearch]

/-- **Names among template arguments.** Let a scan come to a call, and let a name of the source API
stand among the template arguments of the called function. If the call is no launch the name is
found there, exactly once. If it is one the name is not found. -/
theorem names_in_template_arguments
    (hwf : ∀ t, (Site.root tree).Reaches t → WellFormed (context config source tree) t)
    (hsearch : isSearched config source tree = true)
    (hs : Visits (context config source tree) (·.visibleIn view) .code (.root tree) .code s)
    (hk : s.kind = .callExpression) (hf : s.child? .function = some f)
    (ha : TemplateArguments source f a) (hu : ArgumentName (context config source tree) a u kind)
    (hapi : (context config source tree).isApiName (u.node.text source) = true) :
    Match.namesAt u.span.start (scanTree config view source tree).found =
      if (context config source tree).isLaunch s then []
      else [.typeRef (u.node.text source) (.direct u.span.start) kind] := by
  have hn : (context config source tree).neutral =
      neutralize (context config source tree).source := rfl
  have hsound : Sound (context config source tree) s := Sound.of_reaches hwf hs.reaches
  rw [namesAt_scanTree hsearch]
  split
  · rename_i hlaunch
    obtain ⟨f', args, config', h⟩ := exists_launchAt hlaunch
    obtain rfl : f = f' := Option.some.inj (hf.symm.trans h.inFunction)
    -- the name stands in the function, in front of the configuration
    have hfu : f.Reaches u := hu.reaches.trans ha.reaches
    have hfsound := hsound.of_reaches (.of_mem_children h.mem_function)
    have hfin := Span.contains_iff.mp (Site.contains_of_reaches hfsound.placed hfu)
    have hsin := Span.contains_iff.mp (hsound.self.inside f h.mem_function)
    have hlt := (hfsound u hfu).start_lt_stop (ne_empty_of_isApiName hapi)
    rw [namesAt_of_visits hwf hn hs (by omega), namesAt_of_launch hsound hn h (by omega)]
  · rename_i hlaunch
    exact namesAt_of_argumentName hwf hn
      (hs.templateArguments hsound hk (Bool.eq_false_iff.mpr hlaunch) hf ha) hu hapi

/-! ### A call with and without a configuration -/

/-- A launch of a function with template arguments. -/
def templateLaunch : String := "void f() \x7b k<cudaError_t, cudaSuccess><<<1,1>>>(a); \x7d\n"

/-- The same call without a configuration. -/
def templateCall : String := "void f() \x7b k<cudaError_t, cudaSuccess>         (a); \x7d\n"

/-- The tree of both, as both read the same without configurations. -/
def templateCallTree : Node :=
  (Node.ofPreorder? [
    namedRow (.other "translation_unit") none 0 54 1,
    namedRow .functionDefinition none 0 53 3,
    namedRow (.other "primitive_type") (some .type) 0 4 0,
    namedRow .functionDeclarator (some .declarator) 5 8 2,
    namedRow .identifier (some .declarator) 5 6 0,
    namedRow .parameterList (some .parameters) 6 8 2, tokenRow "(" 6, tokenRow ")" 7,
    namedRow (.other "compound_statement") (some .body) 9 53 3, tokenRow "\x7b" 9,
    namedRow (.other "expression_statement") none 11 51 2,
    namedRow .callExpression none 11 50 2,
    namedRow .templateFunction (some .function) 11 38 2,
    namedRow .identifier (some .name) 11 12 0,
    namedRow (.other "template_argument_list") (some .arguments) 12 38 5, tokenRow "<" 12,
    namedRow .typeDescriptor none 13 24 1,
    namedRow .typeIdentifier (some .type) 13 24 0, tokenRow "," 24,
    namedRow .typeDescriptor none 26 37 1,
    namedRow .typeIdentifier (some .type) 26 37 0, tokenRow ">" 37,
    namedRow .argumentList (some .arguments) 47 50 3, tokenRow "(" 47,
    namedRow .identifier none 48 49 0, tokenRow ")" 49,
    tokenRow ";" 50,
    tokenRow "\x7d" 52]).getD default

/-- The template arguments of the function have the name of a type at a byte. -/
def HasTypeArgument (ctx : Context) (f : Site) (byte : Nat) : Prop :=
  f.kind = .templateFunction ∧ ∃ a ∈ (f.child? .arguments).toList,
    (a.node.text ctx.source).toList.head? = some '<' ∧ ctx.passes a = true ∧
    ∃ d ∈ a.children, d.kind = .typeDescriptor ∧
    ∃ u ∈ d.children, u.kind = .typeIdentifier ∧ u.span.start = byte ∧
      ctx.isApiName (u.node.text ctx.source) = true

instance (ctx : Context) (f : Site) (byte : Nat) : Decidable (HasTypeArgument ctx f byte) :=
  inferInstanceAs (Decidable (_ ∧ ∃ _ ∈ _, _ ∧ _ ∧ ∃ _ ∈ _, _ ∧ ∃ _ ∈ _, _ ∧ _ ∧ _))

theorem exists_of_hasTypeArgument {ctx : Context} (h : HasTypeArgument ctx f byte) :
    ∃ a u, TemplateArguments ctx.source f a ∧ ArgumentName ctx a u .typeExpression ∧
      u.span.start = byte ∧ ctx.isApiName (u.node.text ctx.source) = true := by
  obtain ⟨hkf, a, ha, hhead, hpasses, d, hd, hkd, u, hu, hku, hbyte, hapi⟩ := h
  exact ⟨a, u, .own (.inl hkf) (Option.mem_toList.mp ha) hhead,
    .type (.child .self hpasses hd) hkd hu .self hku, hbyte, hapi⟩

/-- The type among the template arguments of a plain call. -/
theorem names_in_template_arguments_call :
    let ctx := context .default templateCall templateCallTree
    (∀ t, (Site.root templateCallTree).Reaches t → WellFormed ctx t) ∧
    ∃ u : Site, u.span.start = 13 ∧ ctx.isApiName (u.node.text templateCall) = true ∧
      Match.namesAt 13 (scanTree .default .hostOnly templateCall templateCallTree).found =
        [.typeRef (u.node.text templateCall) (.direct 13) .typeExpression] := by
  intro ctx
  have hwf : ∀ t, (Site.root templateCallTree).Reaches t → WellFormed ctx t := by decide +kernel
  have hcall : ∃ visit ∈ visited ctx (·.visibleIn .hostOnly) .code (.root templateCallTree),
      visit.1 = .code ∧ visit.2.kind = .callExpression ∧ ctx.isLaunch visit.2 = false ∧
      ∃ f ∈ (visit.2.child? .function).toList, HasTypeArgument ctx f 13 := by decide +kernel
  obtain ⟨⟨mode, s⟩, hvisit, rfl, hk, hlaunch, f, hf, harg⟩ := hcall
  have hs := visits_of_mem_visited hvisit
  have hf := Option.mem_toList.mp hf
  obtain ⟨a, u, ha, hu, hbyte, hapi⟩ := exists_of_hasTypeArgument harg
  have hnames := names_in_template_arguments hwf (by decide +kernel) hs hk hf ha hu hapi
  rw [hlaunch, hbyte] at hnames
  exact ⟨hwf, u, hbyte, hapi, hnames⟩

/-- **A launch hides the names among template arguments**: the tree is regular and the scan comes to
the launch, but it finds nothing in it, not even the type at byte 13. -/
theorem launch_hides_template_arguments :
    let ctx := context .default templateLaunch templateCallTree
    Regular .default templateLaunch templateCallTree ∧
    (∃ s f a u, Visits ctx (·.visibleIn .hostOnly) .code (.root templateCallTree) .code s ∧
      s.kind = .callExpression ∧ ctx.isLaunch s = true ∧ s.child? .function = some f ∧
      TemplateArguments templateLaunch f a ∧ ArgumentName ctx a u .typeExpression ∧
      u.span.start = 13 ∧ ctx.isApiName (u.node.text templateLaunch) = true) ∧
    (Match.withinAll (scanTree .default .hostOnly templateLaunch templateCallTree).found).map
      Match.label = ["kernel launch"] ∧
    Match.namesAt 13 (scanTree .default .hostOnly templateLaunch templateCallTree).found = [] := by
  intro ctx
  refine ⟨by decide +kernel, ?_, by decide +kernel, ?_⟩
  · have hlaunch : ∃ visit ∈ visited ctx (·.visibleIn .hostOnly) .code (.root templateCallTree),
        visit.1 = .code ∧ visit.2.kind = .callExpression ∧ ctx.isLaunch visit.2 = true ∧
        ∃ f ∈ (visit.2.child? .function).toList, HasTypeArgument ctx f 13 := by decide +kernel
    obtain ⟨⟨mode, s⟩, hvisit, rfl, hk, hlaunch, f, hf, harg⟩ := hlaunch
    obtain ⟨a, u, harg⟩ := exists_of_hasTypeArgument harg
    exact ⟨s, f, a, u, visits_of_mem_visited hvisit, hk, hlaunch, Option.mem_toList.mp hf, harg⟩
  · have hempty : (Match.namesAt 13
        (scanTree .default .hostOnly templateLaunch templateCallTree).found).isEmpty = true := by
      decide +kernel
    exact List.isEmpty_iff.mp hempty

end CudaFrontEnd

end CudaToHip
