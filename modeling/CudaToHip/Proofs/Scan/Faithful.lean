import CudaToHip.Proofs.Scan.Reported
import CudaToHip.Proofs.Scan.Views

/-!
# Matches point at the text they name

Slicing the source where a match was found gives what the match says that it found there
(`Match.Faithful`): a name, a literal, an object with its member, the target of an include with its
delimiters, or the arguments and parameter lists of a launch. So an edit takes out a name that the
symbol table has, or a literal with the marker in it, and puts in what belongs there
(`Rules.Hits`).

* `found_points_at_its_text`: this holds of every match of a scan, at any depth, and of every edit
  for it, as long as an include is read from a text between its delimiters.
* `wide_include_keeps_quote`: a header named by a literal with encoding letters is not; its
  target begins with the quote.
-/

namespace CudaToHip

open CudaToHip.Tree

/-! ## What is promised about a match -/

/-- The text stands in the source at the span. -/
def Captured.Reads (source : String) (c : Captured) : Prop := c.span.text? source = some c.text

/-- The name stands in the source at the location. -/
def SourceLoc.Reads (source : String) (loc : SourceLoc) (name : String) : Prop :=
  (loc.span name.utf8ByteSize).text? source = some name

/-- All text that a launch has taken from the source. -/
def Launch.captured (l : Launch) : List Captured :=
  l.paramLists ++ (l.configArgs.filterMap fun
    | .written arg _ => some arg
    | .defaulted => none) ++ l.launchArgs

namespace Directives

/-- The target of an include directive with its delimiters. -/
def delimit (angled : Bool) (target : String) : String :=
  if angled then "<" ++ target ++ ">" else "\"" ++ target ++ "\""

theorem inner_delimit (angled : Bool) (target : String) : inner (delimit angled target) = target := by
  unfold delimit inner
  cases angled
  all_goals
    simp only [Bool.false_eq_true, if_true, if_false, String.toList_append]
    exact (congrArg String.ofList List.dropLast_concat).trans (String.ofList_toList)

end Directives

namespace Match

/-- The source has at the place of the match what the match names. The member of a coordinate is
named with `stem` in front, which the source does not have. -/
def Faithful (source stem : String) : Match → Prop
  | .call name loc | .typeRef name loc _ => loc.Reads source name
  | .builtin base member loc => ∃ object plain, base = some object ∧ member = stem ++ plain ∧
    loc.Reads source (object ++ "." ++ plain)
  | .stringLiteral text span | .macroIdentifier text _ span _ => span.text? source = some text
  | .inclusion target angled span _ =>
    span.text? source = some (Directives.delimit angled target)
  | .launch l _ => (l.span.text? source).isSome ∧ ∀ c ∈ l.captured, c.Reads source

/-- If the match is an include, it was read from a text between its delimiters. -/
def Delimited (source : String) : Match → Prop
  | .inclusion _ angled span _ =>
    ∃ name, span.text? source = some (Directives.delimit angled name)
  | _ => True

/-- The match is an include of a quoted header. -/
def Quoted : Match → Prop
  | .inclusion _ angled _ _ => angled = false
  | _ => False

end Match

/-! ## What is promised about an edit -/

/-- What an edit of this origin puts in the place of a text. -/
def EditOrigin.Exchanges (rules : Rules) (old new : String) : EditOrigin → Prop
  | .callRename | .typeRename | .builtinAccess | .macroIdentifier =>
    rules.symbols.lookup old = some new
  | .stringLiteral => rules.config.stringMarker.replaceIn old = some new
  | .inclusion => ∃ name target, rules.symbols.lookup name = some target ∧
    old = "<" ++ name ++ ">" ∧ new = "<" ++ target ++ ">"
  | .kernelLaunch | .kernelParameters => True

namespace Rules

variable {rules : Rules} {source : String} {e : Edit} {loc : SourceLoc} {name : String}

/-- The span of the edit is a range of the source, and the edit puts in what belongs in the place of
the text there. -/
def Hits (rules : Rules) (source : String) (e : Edit) : Prop :=
  ∃ old, e.span.text? source = some old ∧ e.origin.Exchanges rules old e.newText

theorem hits_of_rename? {origin : EditOrigin} (h : loc.Reads source name)
    (he : rename? rules.symbols name loc origin = some e)
    (horigin : ∀ new, rules.symbols.lookup name = some new → origin.Exchanges rules name new) :
    rules.Hits source e := by
  obtain ⟨target, hlookup, rfl⟩ := Option.map_eq_some_iff.mp he
  exact ⟨name, h, horigin target hlookup⟩

theorem hits_of_editInclude? {target : String} {angled main : Bool} {span : Span}
    (h : span.text? source = some (Directives.delimit angled target))
    (he : rules.editInclude? target angled span main = some e) : rules.Hits source e := by
  unfold editInclude? at he
  split at he
  · rename_i hmain
    obtain ⟨t, hlookup, rfl⟩ := Option.map_eq_some_iff.mp he
    rw [Bool.and_eq_true] at hmain
    rw [hmain.2] at h
    exact ⟨_, h, target, t, hlookup, rfl, rfl⟩
  · cases he

/-- Quoted headers are left alone. -/
theorem editsFor_of_quoted {m : Match} (h : m.Quoted) : rules.editsFor m = [] := by
  cases m with
  | inclusion target angled span main =>
    obtain rfl : angled = false := h
    show (rules.editInclude? target false span main).toList = []
    rw [editInclude?, Bool.and_false]
    rfl
  | _ => exact h.elim

theorem hits_of_editMacroName? {main : Bool} {span : Span} (h : span.text? source = some name)
    (he : rules.editMacroName? name span main = some e) : rules.Hits source e := by
  unfold editMacroName? at he
  split at he
  · obtain ⟨t, hlookup, rfl⟩ := Option.map_eq_some_iff.mp he
    exact ⟨name, h, hlookup⟩
  · cases he

/-- The edits of a launch's own text: its parameters and the call that takes its place. -/
theorem hits_of_launch {l : Launch} {nested : List Edit} (hspan : (l.span.text? source).isSome)
    (hcaptured : ∀ c ∈ l.captured, c.Reads source)
    (hnested : ∀ e ∈ nested, rules.Hits source e)
    (he : e ∈ LaunchRule.edits rules.config.launch l nested) : rules.Hits source e := by
  rcases LaunchRule.mem_edits he with ⟨params, hparams, rfl⟩ | rfl | ⟨he, -⟩
  · have hreads : params.Reads source :=
      hcaptured params (List.mem_append_left _ (List.mem_append_left _ hparams))
    unfold LaunchRule.parameterEdit
    split
    · exact ⟨_, hreads, trivial⟩
    · obtain ⟨-, hstart, -⟩ := Text.slice?_isSome_iff.mp (Option.isSome_of_eq_some hreads)
      exact ⟨_, Text.slice?_eq_between (Nat.le_refl _) hstart hstart, trivial⟩
  · obtain ⟨old, hold⟩ := Option.isSome_iff_exists.mp hspan
    exact ⟨old, hold, trivial⟩
  · exact hnested e he

mutual

/-- **The edits of a faithful match hit**, if what the match holds is faithful too. -/
theorem hits_of_editsFor (m : Match)
    (h : ∀ n ∈ m.within, n.Faithful source rules.config.builtinMemberStem) :
    ∀ e ∈ rules.editsFor m, rules.Hits source e := by
  intro e he
  have hm := h m m.mem_within_self
  cases m with
  | call name loc => exact hits_of_rename? hm (Option.mem_toList.mp he) fun _ h => h
  | typeRef name loc kind => exact hits_of_rename? hm (Option.mem_toList.mp he) fun _ h => h
  | builtin base member loc =>
    obtain ⟨object, plain, rfl, rfl, hreads⟩ := hm
    have he : rename? rules.symbols (object ++ "." ++ plainMember rules.config.builtinMemberStem
        (rules.config.builtinMemberStem ++ plain)) loc .builtinAccess = some e :=
      Option.mem_toList.mp he
    rw [plainMember_append] at he
    exact hits_of_rename? hreads he fun _ h => h
  | stringLiteral text span =>
    obtain ⟨new, hnew, rfl⟩ := Option.map_eq_some_iff.mp (Option.mem_toList.mp he)
    exact ⟨text, hm, hnew⟩
  | inclusion target angled span main => exact hits_of_editInclude? hm (Option.mem_toList.mp he)
  | macroIdentifier name macroName span main =>
    exact hits_of_editMacroName? hm (Option.mem_toList.mp he)
  | launch l nested =>
    have hnested : ∀ e ∈ rules.editsForAll nested, rules.Hits source e :=
      hits_of_editsForAll nested fun n hn => h n (List.mem_cons_of_mem _ hn)
    rw [editsFor] at he
    exact hits_of_launch hm.1 hm.2 hnested he

theorem hits_of_editsForAll (ms : List Match)
    (h : ∀ n ∈ Match.withinAll ms, n.Faithful source rules.config.builtinMemberStem) :
    ∀ e ∈ rules.editsForAll ms, rules.Hits source e := by
  intro e he
  cases ms with
  | nil => cases he
  | cons m ms =>
    rw [Match.withinAll] at h
    rw [editsForAll] at he
    rcases List.mem_append.mp he with he | he
    · exact hits_of_editsFor m (fun n hn => h n (List.mem_append_left _ hn)) e he
    · exact hits_of_editsForAll ms (fun n hn => h n (List.mem_append_right _ hn)) e he

end

end Rules

/-! ## Trees that can be read -/

/-- What a scan needs of a node to point at its text: the node stands on character boundaries, its
children stand in order, and the parameters of a function begin with a parenthesis. -/
structure Readable (source : String) (s : Site) : Prop where
  boundaries : (s.span.text? source).isSome
  ordered : s.children.Pairwise Site.Precedes
  parenthesis : s.kind = .functionDeclarator → ∀ p ∈ s.child? .parameters,
    (p.node.text source).toList.head? = some '('

theorem readable_iff {source : String} {s : Site} : Readable source s ↔
    (s.span.text? source).isSome ∧ s.children.Pairwise Site.Precedes ∧
    (s.kind = .functionDeclarator → ∀ p ∈ s.child? .parameters,
      (p.node.text source).toList.head? = some '(') :=
  ⟨fun h => ⟨h.boundaries, h.ordered, h.parenthesis⟩, fun ⟨h₁, h₂, h₃⟩ => ⟨h₁, h₂, h₃⟩⟩

instance (source : String) (s : Site) : Decidable (Readable source s) :=
  decidable_of_iff' _ readable_iff

namespace Readable

variable {source : String} {s : Site}

theorem text? (h : Readable source s) : s.span.text? source = some (s.node.text source) := by
  obtain ⟨t, ht⟩ := Option.isSome_iff_exists.mp h.boundaries
  have htext : s.node.text source = t := by
    show (s.span.text? source).getD "" = t
    rw [ht, Option.getD_some]
  rw [htext, ht]

/-- The text of a node stands where the node begins. -/
theorem reads (h : Readable source s) :
    (SourceLoc.direct s.span.start).Reads source (s.node.text source) := by
  have hspan : (SourceLoc.direct s.span.start).span (s.node.text source).utf8ByteSize = s.span := by
    show Span.ofLength s.span.start _ = s.span
    rw [Span.ofLength, ← Text.utf8ByteSize_of_slice? h.text?]
  rw [SourceLoc.Reads, hspan]
  exact h.text?

theorem le (h : Readable source s) : s.span.start ≤ s.span.stop :=
  (Text.slice?_isSome_iff.mp h.boundaries).1

end Readable

/-- Everything that is reached from the site can be read. -/
def AllReadable (source : String) (s : Site) : Prop := ∀ t, s.Reaches t → Readable source t

instance (source : String) (s : Site) : Decidable (AllReadable source s) :=
  inferInstanceAs (Decidable (∀ t, s.Reaches t → Readable source t))

namespace AllReadable

variable {source : String} {s t : Site}

theorem self (h : AllReadable source s) : Readable source s := h s .self

theorem of_reaches (h : AllReadable source s) (ht : s.Reaches t) : AllReadable source t :=
  fun u hu => h u (hu.trans ht)

end AllReadable

/-! ## The text of parameter lists -/

namespace KernelDecl

variable {source : String} {params : Site} {k : KernelDecl}

/-- The text behind an opening parenthesis begins on a boundary. -/
theorem isBoundary_of_parenthesis (h : Readable source params)
    (hopen : (params.node.text source).toList.head? = some '(') :
    Text.IsBoundary source (params.span.start + 1) := by
  obtain ⟨u, v, hsource, hstart, -⟩ := Text.slice?_eq_some_iff.mp h.text?
  obtain ⟨rest, hrest⟩ := List.head?_eq_some_iff.mp hopen
  have htext : params.node.text source = "(" ++ String.ofList rest := by
    rw [← String.toList_inj, hrest]
    simp
  refine ⟨u ++ "(", String.ofList rest ++ v, ?_, ?_⟩
  · rw [hsource, htext]
    simp only [String.append_assoc]
  · rw [String.utf8ByteSize_append, hstart]
    rfl

theorem text?_isSome_paramsOf (h : AllReadable source params)
    (hopen : (params.node.text source).toList.head? = some '(') :
    ((paramsOf source params).span.text? source).isSome := by
  have hreadable {c : Site} (hc : c ∈ named params) : Readable source c :=
    h c (.of_mem_children (mem_children_of_mem_named hc))
  have hordered : (named params).Pairwise Site.Precedes :=
    h.self.ordered.sublist (List.filter_sublist.trans List.filter_sublist)
  cases hfirst : (named params).head? with
  | none =>
    rw [span_paramsOf_of_none hfirst]
    have hbound := isBoundary_of_parenthesis h.self hopen
    exact Text.slice?_isSome_iff.mpr ⟨Nat.le_refl _, hbound, hbound⟩
  | some first =>
    have hf : first ∈ named params := List.mem_of_head? hfirst
    obtain ⟨last, hlast⟩ := Option.isSome_iff_exists.mp
      (List.getLast?_isSome.mpr (List.ne_nil_of_mem hf))
    rw [span_paramsOf hfirst hlast]
    have hl : last ∈ named params := List.mem_of_getLast? hlast
    have hbetween := Site.between_of_pairwise (fun c hc => (hreadable hc).le) hordered hfirst
      hlast hf
    obtain ⟨hle, hstart, -⟩ := Text.slice?_isSome_iff.mp (hreadable hf).boundaries
    obtain ⟨-, -, hstop⟩ := Text.slice?_isSome_iff.mp (hreadable hl).boundaries
    exact Text.slice?_isSome_iff.mpr ⟨Nat.le_trans hle hbetween.2, hstart, hstop⟩

theorem reads_paramsOf (h : AllReadable source params)
    (hopen : (params.node.text source).toList.head? = some '(') :
    (paramsOf source params).Reads source := by
  obtain ⟨t, ht⟩ := Option.isSome_iff_exists.mp (text?_isSome_paramsOf h hopen)
  have htext : (paramsOf source params).text = t := by
    show ((paramsOf source params).span.text? source).getD "" = t
    rw [ht, Option.getD_some]
  rw [Captured.Reads, htext, ht]

/-- **The parameters of a kernel have the text of the source.** -/
theorem reads_of_mem_scan {tree : Node} {neutral : Neutralized}
    (h : AllReadable source (.root tree)) (hk : k ∈ scan source neutral tree) :
    k.params.Reads source := by
  obtain ⟨s, hs, hsite⟩ := List.mem_filterMap.mp hk
  obtain ⟨d, params, hdecl, -, hparams, hk⟩ := params_of_ofSite? hsite
  obtain ⟨c, hc, -, hcd, hkind, -⟩ := Site.exists_of_functionDeclarator? hdecl
  have hsd : s.Reaches d := hcd.trans (.of_mem_children hc)
  have hd : AllReadable source d := h.of_reaches (hsd.trans (Site.of_mem_outermost hs).1)
  have hp : AllReadable source params :=
    hd.of_reaches (.of_mem_children (Site.mem_children_of_child? hparams))
  rw [hk]
  exact reads_paramsOf hp (hd.self.parenthesis hkind params hparams)

end KernelDecl

/-! ## The matches of a scan -/

namespace Constructs

variable {ctx : Context} {s a : Site} {m : Match}

theorem faithful_of_spells (ha : Readable ctx.source a) (h : Spells ctx a m) :
    m.Faithful ctx.source ctx.memberStem := by
  cases h with
  | call hk hapi => exact ha.reads
  | typeRef kind hk hapi => exact ha.reads
  | coordinate hk hm =>
    obtain ⟨object, plain, htext, rfl⟩ := exists_of_coordinate? hm
    exact ⟨object, plain, rfl, rfl, htext ▸ ha.reads⟩
  | literal hk => exact ha.text?

theorem faithful_of_names {t : Token} {range : Span} {stem : String}
    (hr : (range.text? ctx.source).isSome) (ht : t ∈ tokenizeIn ctx.source range)
    (h : Names t m) : m.Faithful ctx.source stem := by
  have htext := text?_of_mem_tokenizeIn hr ht
  cases h <;> exact htext

/-- All text of a launch is text of the source. -/
theorem reads_of_mem_captured {f args : Site} {config : LaunchConfig} {c : Captured}
    (hn : ctx.neutral = neutralize ctx.source) (hk : ∀ k ∈ ctx.kernels, k.params.Reads ctx.source)
    (hs : AllReadable ctx.source s) (h : LaunchAt ctx s f args config)
    (hc : c ∈ (ctx.launchOf s f args config).captured) : c.Reads ctx.source := by
  rcases List.mem_append.mp hc with hc | hc
  · rcases List.mem_append.mp hc with hc | hc
    · obtain ⟨k, hmem, rfl⟩ := exists_of_mem_paramLists hc
      exact hk k hmem
    · -- an argument of the configuration that is written
      obtain ⟨arg, harg, hwritten⟩ := List.mem_filterMap.mp hc
      obtain ⟨i, -, rfl⟩ := List.mem_map.mp harg
      cases hget : config.args[i]? with
      | none =>
        rw [hget] at hwritten
        cases hwritten
      | some written =>
        rw [hget] at hwritten
        obtain rfl := Option.some.inj hwritten
        exact text?_eq_of_mem_args (hn ▸ h.mem_launches) written (List.mem_of_getElem? hget)
  · obtain ⟨a, ha, rfl⟩ := List.mem_map.mp hc
    have hchild : a ∈ args.children :=
      Site.mem_children_of_mem_namedChildren (List.mem_of_mem_filter ha)
    exact (hs a ((Site.Reaches.of_mem_children hchild).trans
      (.of_mem_children h.mem_arguments))).text?

/-- **Wherever a match of a walk comes from, it points at its text.** -/
theorem faithful_of_reported (hn : ctx.neutral = neutralize ctx.source)
    (hk : ∀ k ∈ ctx.kernels, k.params.Reads ctx.source) (hs : AllReadable ctx.source s)
    (h : Reported ctx s m) : m.Faithful ctx.source ctx.memberStem := by
  cases h with
  | spelled ha hspells => exact faithful_of_spells (hs _ ha) hspells
  | token hconfig harg ht hnames =>
    exact faithful_of_names (text?_of_mem_args (hn ▸ hconfig) _ harg) ht hnames
  | launch hc hlaunch =>
    have hreadable := hs.of_reaches hc
    exact ⟨hreadable.self.boundaries, fun c hmem =>
      reads_of_mem_captured hn hk hreadable hlaunch hmem⟩

end Constructs

namespace Directives

variable {source : String} {tree : Node} {m : Match}

/-- A match in a directive points at its text if it is delimited. -/
theorem faithful_of_mem_scan (stem : String) (h : AllReadable source (.root tree))
    (hm : m ∈ scan source tree) (hdelimited : m.Delimited source) : m.Faithful source stem := by
  obtain ⟨d, hd, hm⟩ := List.mem_flatMap.mp hm
  have hreadable := h.of_reaches (Site.of_mem_outermost hd).1
  rcases of_mem_ofSite hm with hm | hm
  · obtain ⟨path, text, -, htext, -, rfl⟩ := exists_of_mem_ofInclude hm
    obtain ⟨name, hname⟩ := hdelimited
    obtain rfl := Option.some.inj (htext.symm.trans hname)
    show path.span.text? source = _
    rw [inner_delimit, hname]
  · obtain ⟨name, value, t, -, hvalue, ht, rfl⟩ := exists_of_mem_ofDefine hm
    have hr := (hreadable value (.of_mem_children (Site.mem_children_of_child? hvalue))).boundaries
    exact text?_of_mem_tokenizeIn hr ht

end Directives

namespace CudaFrontEnd

open Constructs

variable {config : Config} {source : String} {tree : Node} {view : View} {m : Match}

/-- What the visit of a readable tree reports points at its text. -/
theorem faithful_of_mem_constructs {enters : ExecSpace → Bool}
    (h : AllReadable source (.root tree))
    (hm : m ∈ Match.withinAll (constructs config enters source tree)) :
    m.Faithful source config.builtinMemberStem := by
  unfold constructs at hm
  split at hm
  · exact @faithful_of_reported (context config source tree) (.root tree) m rfl
      (fun _ hk => KernelDecl.reads_of_mem_scan h hk) h (reported_walk hm)
  · cases hm

theorem faithful_of_mem_scanTree (h : AllReadable source (.root tree))
    (hm : m ∈ Match.withinAll (scanTree config view source tree).found)
    (hdelimited : m.Delimited source) :
    ∀ n ∈ m.within, n.Faithful source config.builtinMemberStem := by
  rw [found_scanTree, Match.withinAll_append] at hm
  intro n hn
  rcases List.mem_append.mp hm with hm | hm
  · rw [Directives.withinAll_scan] at hm
    rw [Match.within_of_isDirective (Directives.isDirective_of_mem_scan hm)] at hn
    obtain rfl := List.mem_singleton.mp hn
    exact Directives.faithful_of_mem_scan config.builtinMemberStem h hm hdelimited
  · exact faithful_of_mem_constructs h (Match.mem_withinAll_trans _ hm hn)

/-- **Every match of a scan points at the text it names**, launches and what they hold included, as
long as an include was read from a text between its delimiters. So every edit is within the source
and on character boundaries; it exchanges a name of the symbol table for its target, or a literal
for the literal with the marker exchanged. There are no edits for a quoted include, however it was
read. -/
theorem found_points_at_its_text {grammar : Grammar} {config : Config} {file : SourceFile}
    {view : View} {result : Scan} (hscan : scan grammar config file view = .ok result)
    (htree : ∀ tree, grammar.parse? (neutralize file.text).code = some tree →
      AllReadable file.text (.root tree))
    (symbols : SymbolTable) :
    ∀ m ∈ Match.withinAll result.found,
      (m.Delimited file.text → m.Faithful file.text config.builtinMemberStem) ∧
      (m.Quoted ∨ m.Delimited file.text →
        ∀ e ∈ Rules.editsFor ⟨symbols, config⟩ m, Rules.Hits ⟨symbols, config⟩ file.text e) := by
  intro m hm
  have hwithin (hdelimited : m.Delimited file.text) :
      ∀ n ∈ m.within, n.Faithful file.text config.builtinMemberStem := by
    unfold scan at hscan
    dsimp only at hscan
    split at hscan
    · obtain rfl := Except.ok.inj hscan
      cases hm
    · split at hscan
      · cases hscan
      · rename_i tree hparse
        obtain rfl := Except.ok.inj hscan
        exact faithful_of_mem_scanTree (htree tree hparse) hm hdelimited
  refine ⟨fun hdelimited => hwithin hdelimited m m.mem_within_self, fun h e he => ?_⟩
  rcases h with hquoted | hdelimited
  · rw [Rules.editsFor_of_quoted hquoted] at he
    cases he
  · exact @Rules.hits_of_editsFor ⟨symbols, config⟩ file.text m (hwithin hdelimited) e he

/-- The host scan of a source with a launch, whose argument is found inside of it. -/
theorem found_points_at_its_text_launch :
    let file : SourceFile := ⟨⟨"hd.cu"⟩, hdSource⟩
    ∃ result, scan hdGrammar .default file .hostOnly = .ok result ∧
      (Match.withinAll result.found).length = 2 ∧
      ∀ m ∈ Match.withinAll result.found,
        (m.Delimited hdSource → m.Faithful hdSource Config.default.builtinMemberStem) ∧
        (m.Quoted ∨ m.Delimited hdSource → ∀ e ∈ Rules.editsFor ⟨.builtin, .default⟩ m,
          Rules.Hits ⟨.builtin, .default⟩ hdSource e) := by
  intro file
  have hparse : hdGrammar.parse? (neutralize hdSource).code = some hdTree := if_pos rfl
  have hsize : ¬ hdSource.utf8ByteSize > Config.default.maxFileSize := by decide
  have hscan : scan hdGrammar .default file .hostOnly =
      .ok (scanTree .default .hostOnly hdSource hdTree) := by
    unfold scan
    dsimp only
    rw [if_neg hsize, hparse]
  have hreadable : AllReadable hdSource (.root hdTree) := by decide +kernel
  have htree : ∀ tree, hdGrammar.parse? (neutralize hdSource).code = some tree →
      AllReadable hdSource (.root tree) := by
    intro tree htree
    obtain rfl := Option.some.inj (hparse.symm.trans htree)
    exact hreadable
  exact ⟨_, hscan, by decide +kernel, found_points_at_its_text hscan htree .builtin⟩

/-! ### A header named by a literal with encoding letters -/

/-- An include directive whose target is a wide literal. -/
def wideSource : String := "#include L\"x.h\"\n"

/-- The tree of `wideSource`. -/
def wideTree : Node :=
  (Node.ofPreorder? [
    namedRow (.other "translation_unit") none 0 16 1,
    namedRow .includeDirective none 0 16 2, wordRow "#include" 0,
    namedRow .stringLiteral (some .path) 9 15 3, wordRow "L\"" 9,
    namedRow (.other "string_content") none 11 14 0, tokenRow "\"" 14]).getD default

/-- The target and the span of an include. -/
def inclusionAt? : Match → Option (String × Bool × Span × Bool)
  | .inclusion target angled span main => some (target, angled, span, main)
  | _ => none

theorem eq_inclusion_of_inclusionAt? {m : Match} {target : String} {angled main : Bool}
    {span : Span} (h : inclusionAt? m = some (target, angled, span, main)) :
    m = .inclusion target angled span main := by
  cases m with
  | inclusion t a sp b =>
    simp only [inclusionAt?, Option.some.injEq, Prod.mk.injEq] at h
    obtain ⟨rfl, rfl, rfl, rfl⟩ := h
    rfl
  | _ => cases h

/-- **The target of a wide include begins with its quote**: the tree is readable, and the target
found by both scans, put between quotes, is not the text that the include was read from. -/
theorem wide_include_keeps_quote :
    AllReadable wideSource (.root wideTree) ∧
    ∀ view, ∃ m ∈ (scanTree .default view wideSource wideTree).found,
      m = .inclusion "\"x.h" false ⟨9, 15⟩ true ∧
      Span.text? ⟨9, 15⟩ wideSource = some "L\"x.h\"" ∧
      ¬ m.Faithful wideSource Config.default.builtinMemberStem := by
  have hfound : ∀ view ∈ View.passOrder, ∃ m ∈ (scanTree .default view wideSource wideTree).found,
      inclusionAt? m = some ("\"x.h", false, ⟨9, 15⟩, true) := by decide +kernel
  have htext : Span.text? ⟨9, 15⟩ wideSource = some "L\"x.h\"" := by decide +kernel
  refine ⟨by decide +kernel, fun view => ?_⟩
  obtain ⟨m, hm, hinclusion⟩ := hfound view (by cases view <;> decide)
  obtain rfl := eq_inclusion_of_inclusionAt? hinclusion
  refine ⟨_, hm, rfl, htext, fun hfaithful => ?_⟩
  have hsame := Option.some.inj (htext.symm.trans hfaithful)
  exact absurd hsame (by decide)

end CudaFrontEnd

end CudaToHip
