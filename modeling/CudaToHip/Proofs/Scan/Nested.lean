import CudaToHip.Proofs.Scan.Visits

/-!
# What a launch holds

A launch that a scan reports is written at a call of the tree. It holds first what the tokens of its
configuration are read as, and behind it what the walk finds in its arguments
(`CudaFrontEnd.exists_of_launch_mem`).

* `Constructs.ReadAs`: what one token is read as, by the tokens next to it. A string is a literal, a
  name of the source API that is no member is a call or a constant. Nothing else is read off a
  token.
* `CudaFrontEnd.configuration_is_read_by_token`: what a launch holds of its configuration are
  exactly these readings, in the order of the text and once each.
* `CudaFrontEnd.configuration_hides_coordinates`: so a coordinate is found in an argument in
  parentheses, and not in an argument of the configuration.
-/

namespace CudaToHip

open CudaToHip.Tree

namespace Constructs

variable {ctx : Context} {s : Site} {config : LaunchConfig} {m : Match} {mode : Mode}
  {enters : ExecSpace → Bool} {t : Token} {last : Option Token} {ts : List Token} {l : Launch}
  {nested : List Match}

/-! ## Launches of a walk -/

theorem not_spells_launch : ¬ Spells ctx s (.launch l nested) := by
  intro h
  cases h with
  | coordinate _ hm =>
    obtain ⟨_, _, -, hm⟩ := exists_of_coordinate? hm
    cases hm

/-- No launch is read off a token. -/
theorem not_mem_ofConfig_launch :
    .launch l nested ∉ Match.withinAll (ctx.ofConfig config) := by
  intro h
  obtain ⟨n, hn, hm⟩ := Match.mem_withinAll.mp h
  obtain ⟨arg, -, hn⟩ := List.mem_flatMap.mp hn
  obtain ⟨t, -, hnames⟩ := names_of_mem_ofConfigTokens hn
  rw [within_of_names hnames] at hm
  obtain rfl := List.mem_singleton.mp hm
  cases hnames

/-- **Every launch that a walk finds is written at a call**, whatever depth it is found at. It holds
what is found in its configuration and then what the walk finds in its arguments. -/
theorem exists_of_launch_mem_walk
    (h : .launch l nested ∈ Match.withinAll (walk ctx enters mode s)) :
    ∃ c f args config, s.Reaches c ∧ LaunchAt ctx c f args config ∧
      l = ctx.launchOf c f args config ∧
      nested = ctx.ofConfig config ++ walk ctx enters .code args := by
  obtain ⟨mode', c, hc, hfound⟩ := exists_visit_of_mem_walk h
  cases hfound with
  | step hstep =>
    cases from_of_mem_steps hstep with
    | found _ hspells => exact absurd hspells not_spells_launch
  | launch hlaunch => exact ⟨c, _, _, _, hc.reaches, hlaunch, rfl, rfl⟩
  | config _ hm => exact absurd hm not_mem_ofConfig_launch

/-! ## Tokens of a configuration -/

/-- What a token of a configuration is read as, by the tokens in front of it and behind it. -/
inductive ReadAs (ctx : Context) (last : Option Token) (t : Token) (next : Option Token) :
    Match → Prop where
  /-- A string is a literal. -/
  | literal (hk : t.kind = .string) : ReadAs ctx last t next (.stringLiteral t.text t.span)
  /-- A name of the source API with a parenthesis behind it is a call, unless it is a member. -/
  | call (hk : t.kind = .identifier) (hapi : ctx.isApiName t.text = true)
    (hfree : last.any (·.isPunctIn [".", "->"]) = false)
    (hnext : next.any (·.isPunct "(") = true) :
    ReadAs ctx last t next (.call t.text (.direct t.start))
  /-- Any other such name is a constant. -/
  | constant (hk : t.kind = .identifier) (hapi : ctx.isApiName t.text = true)
    (hfree : last.any (·.isPunctIn [".", "->"]) = false)
    (hnext : next.any (·.isPunct "(") = false) :
    ReadAs ctx last t next (.typeRef t.text (.direct t.start) .enumConstant)

/-- The first of some tokens is read, and then the others, each behind the one in front of it. -/
theorem mem_ofConfigTokens_cons : m ∈ ctx.ofConfigTokens last (t :: ts) ↔
    ReadAs ctx last t ts.head? m ∨ m ∈ ctx.ofConfigTokens (some t) ts := by
  rw [Context.ofConfigTokens, List.mem_append]
  refine or_congr_left ⟨fun h => ?_, fun h => ?_⟩
  · split at h
    · rename_i hk
      obtain rfl := List.mem_singleton.mp h
      exact .literal hk
    · rename_i hk
      split_ifs at h with hnot hcalled
      · cases h
      all_goals
        obtain rfl := List.mem_singleton.mp h
        simp only [Bool.or_eq_true, Bool.not_eq_true', not_or, Bool.not_eq_true,
          Bool.not_eq_false] at hnot
      · exact .call hk hnot.2 hnot.1 hcalled
      · exact .constant hk hnot.2 hnot.1 (Bool.eq_false_iff.mpr hcalled)
    · cases h
  · cases h with
    | literal hk => simp [hk]
    | call hk hapi hfree hnext => simp [hk, hapi, hfree, hnext]
    | constant hk hapi hfree hnext => simp [hk, hapi, hfree, hnext]

/-- **What is found among tokens** are the readings of the tokens. -/
theorem mem_ofConfigTokens : m ∈ ctx.ofConfigTokens last ts ↔
    ∃ front t behind, ts = front ++ t :: behind ∧
      ReadAs ctx (front.getLast?.or last) t behind.head? m := by
  induction ts generalizing last with
  | nil => simp [Context.ofConfigTokens]
  | cons t ts ih =>
    -- the token in front of all others stands in front of what had none
    have hlast (front : List Token) :
        ((t :: front).getLast?).or last = front.getLast?.or (some t) := by
      rw [List.getLast?_cons, Option.some_or, Option.or_some]
    rw [mem_ofConfigTokens_cons, ih]
    constructor
    · rintro (h | ⟨front, u, behind, rfl, h⟩)
      · exact ⟨[], t, ts, rfl, h⟩
      · exact ⟨t :: front, u, behind, rfl, hlast front ▸ h⟩
    · rintro ⟨front, u, behind, hsplit, h⟩
      rcases List.cons_eq_append_iff.mp hsplit with ⟨rfl, heq⟩ | ⟨front, rfl, rfl⟩
      · obtain ⟨rfl, rfl⟩ := List.cons.inj heq
        exact Or.inl h
      · exact Or.inr ⟨front, u, behind, rfl, hlast front ▸ h⟩

/-! ## Arguments of a configuration -/

/-- An argument that a launch has as written is one of its configuration. -/
theorem mem_args_of_mem_configArgs {arg : Captured} {type : String}
    (h : .written arg type ∈ Context.configArgs config) : arg ∈ config.args := by
  obtain ⟨i, -, hi⟩ := List.mem_map.mp h
  split at hi
  · rename_i hget
    obtain ⟨rfl, -⟩ := ConfigArg.written.inj hi
    exact List.mem_of_getElem? hget
  · cases hi

/-- **What is found in a configuration** are the readings of the tokens of its arguments. -/
theorem mem_ofConfig : m ∈ ctx.ofConfig config ↔
    ∃ arg type, .written arg type ∈ Context.configArgs config ∧
      ∃ front t behind, tokenizeIn ctx.source arg.span = front ++ t :: behind ∧
        ReadAs ctx front.getLast? t behind.head? m := by
  rw [Context.ofConfig, List.mem_flatMap]
  simp only [mem_ofConfigTokens, Option.or_none]
  constructor
  · rintro ⟨arg, harg, h⟩
    obtain ⟨type, hmem⟩ := mem_configArgs harg
    exact ⟨arg, type, hmem, h⟩
  · rintro ⟨arg, type, hmem, h⟩
    exact ⟨arg, mem_args_of_mem_configArgs hmem, h⟩

/-- **What is found in a configuration begins one behind the other**, no two at one place. -/
theorem pairwise_ofConfig (hconfig : config ∈ (neutralize ctx.source).launches) :
    (ctx.ofConfig config).Pairwise fun m n => m.offset < n.offset := by
  have hinside {arg : Captured} (harg : arg ∈ config.args) {m : Match}
      (hm : m ∈ ctx.ofConfigTokens none (tokenizeIn ctx.source arg.span)) :=
    between_of_mem_ofConfigTokens (text?_of_mem_args hconfig arg harg) hm
  refine List.pairwise_flatMap.mpr ⟨fun arg _ => ?_,
    (row_of_mem_launches hconfig).2.imp_of_mem fun {a b} ha hb hab m hm n hn => ?_⟩
  · have hstarts : ((tokenizeIn ctx.source arg.span).map Token.start).Pairwise (· < ·) := by
      refine List.pairwise_map.mpr (Lexer.pairwise_tokens.imp_of_mem fun {a b} ha _ hab => ?_)
      exact Nat.lt_of_lt_of_le (Lexer.start_lt_stop_of_mem_tokens ha) hab
    exact List.pairwise_map.mp (hstarts.sublist (sublist_ofConfigTokens none _))
  · have hma := hinside ha hm
    have hnb := hinside hb hn
    omega

/-- No token reads as a coordinate. -/
theorem not_readAs_builtin {next : Option Token} {base : Option String} {member : String}
    {loc : SourceLoc} : ¬ ReadAs ctx last t next (.builtin base member loc) := nofun

end Constructs

namespace CudaFrontEnd

open Constructs

variable {config : Config} {source : String} {tree : Node} {view : View} {l : Launch}
  {nested : List Match}

/-- **Every launch of a scan is written at a call of the tree.** -/
theorem exists_of_launch_mem
    (h : .launch l nested ∈ Match.withinAll (scanTree config view source tree).found) :
    ∃ s f args lc, (Site.root tree).Reaches s ∧
      LaunchAt (context config source tree) s f args lc ∧
      l = (context config source tree).launchOf s f args lc ∧
      nested = (context config source tree).ofConfig lc ++
        walk (context config source tree) (·.visibleIn view) .code args := by
  rw [found_scanTree, Match.withinAll_append] at h
  rcases List.mem_append.mp h with h | h
  · -- no launch stands in a directive
    rw [Directives.withinAll_scan] at h
    cases Directives.isDirective_of_mem_scan h
  · unfold constructs at h
    split at h
    · exact exists_of_launch_mem_walk h
    · cases h

/-- **A configuration is read token by token.** What a launch holds is what was found in its
configuration and, behind it, what the walk finds in its arguments. The former are the readings of
the tokens of the arguments of the configuration, in the order of the text and once each: literals,
calls and constants. There is no coordinate among them. -/
theorem configuration_is_read_by_token
    (h : .launch l nested ∈ Match.withinAll (scanTree config view source tree).found) :
    ∃ read s args, nested =
        read ++ walk (context config source tree) (·.visibleIn view) .code args ∧
      ((Site.root tree).Reaches s ∧ s.span = l.span ∧ s.child? .arguments = some args) ∧
      read.Pairwise (fun m n => m.offset < n.offset) ∧
      (∀ m, m ∈ read ↔ ∃ arg type, .written arg type ∈ l.configArgs ∧
        ∃ front t behind, tokenizeIn source arg.span = front ++ t :: behind ∧
          ReadAs (context config source tree) front.getLast? t behind.head? m) ∧
      ∀ base member loc, .builtin base member loc ∉ read := by
  obtain ⟨s, f, args, lc, hs, hlaunch, rfl, rfl⟩ := exists_of_launch_mem h
  refine ⟨_, s, args, rfl, ⟨hs, rfl, hlaunch.inArguments⟩, pairwise_ofConfig hlaunch.mem_launches,
    fun m => mem_ofConfig, fun base member loc hmem => ?_⟩
  obtain ⟨_, _, -, _, _, _, -, hread⟩ := mem_ofConfig.mp hmem
  exact not_readAs_builtin hread

/-! ### A launch with something of each kind in its configuration -/

/-- A call, a member, a coordinate and a literal in a configuration, and another coordinate in the
parentheses behind it. -/
def crowdedLaunch : String :=
  "void f() \x7b k<<<cudaA(1), s.cudaB, threadIdx.x, \"cuda\">>>(threadIdx.y); \x7d\n"

/-- An operator of a preorder list, one byte long. -/
def operatorRow (name : String) (start : Nat) : Node.Row :=
  ⟨⟨.other name, some (.other "operator"), false, false, false, false, ⟨start, start + 1⟩⟩, 0⟩

/-- The tree of `crowdedLaunch`. -/
def crowdedTree : Node :=
  (Node.ofPreorder? [
    namedRow (.other "translation_unit") none 0 73 1,
    namedRow .functionDefinition none 0 72 3,
    namedRow (.other "primitive_type") (some .type) 0 4 0,
    namedRow .functionDeclarator (some .declarator) 5 8 2,
    namedRow .identifier (some .declarator) 5 6 0,
    namedRow .parameterList (some .parameters) 6 8 2, tokenRow "(" 6, tokenRow ")" 7,
    namedRow (.other "compound_statement") (some .body) 9 72 3, tokenRow "\x7b" 9,
    namedRow (.other "expression_statement") none 11 70 2,
    namedRow .callExpression none 11 69 2,
    namedRow .identifier (some .function) 11 12 0,
    namedRow .argumentList (some .arguments) 56 69 3, tokenRow "(" 56,
    namedRow .fieldExpression none 57 68 3,
    namedRow .identifier (some (.other "argument")) 57 66 0, operatorRow "." 66,
    namedRow (.other "field_identifier") (some (.other "field")) 67 68 0, tokenRow ")" 68,
    tokenRow ";" 69, tokenRow "\x7d" 71]).getD default

/-- The launch has the coordinate at byte 34 for an argument, and holds a call, a literal and the
coordinate at byte 57. -/
def isCrowded (l : Launch) (nested : List Match) : Bool :=
  l.configArgs.contains (.written ⟨⟨34, 45⟩, "threadIdx.x"⟩ "size_t") &&
    nested.map (fun m => (m.label, m.offset)) ==
      [("call", 15), ("string literal", 47), ("builtin", 57)]

theorem exists_isCrowded : ∃ l nested,
    .launch l nested ∈
      Match.withinAll (scanTree .default .hostOnly crowdedLaunch crowdedTree).found ∧
    .written ⟨⟨34, 45⟩, "threadIdx.x"⟩ "size_t" ∈ l.configArgs ∧
    nested.map (fun m => (m.label, m.offset)) =
      [("call", 15), ("string literal", 47), ("builtin", 57)] := by
  have hany : (Match.withinAll (scanTree .default .hostOnly crowdedLaunch crowdedTree).found).any
      (Match.isLaunchWith isCrowded) = true := by decide +kernel
  obtain ⟨l, nested, hm, hcrowded⟩ := Match.any_isLaunchWith_iff.mp hany
  obtain ⟨harg, hnested⟩ := Bool.and_eq_true_iff.mp hcrowded
  exact ⟨l, nested, hm, List.contains_iff_mem.mp harg, eq_of_beq hnested⟩

/-- Of the configuration the launch holds the call at byte 15 and the literal at byte 47. -/
theorem configuration_is_read_by_token_crowded :
    let ctx := context .default crowdedLaunch crowdedTree
    ∃ l nested read s args,
      .launch l nested ∈
        Match.withinAll (scanTree .default .hostOnly crowdedLaunch crowdedTree).found ∧
      nested.map (fun m => (m.label, m.offset)) =
        [("call", 15), ("string literal", 47), ("builtin", 57)] ∧
      nested = read ++ walk ctx (·.visibleIn .hostOnly) .code args ∧
      ((Site.root crowdedTree).Reaches s ∧ s.span = l.span ∧ s.child? .arguments = some args) ∧
      read.Pairwise (fun m n => m.offset < n.offset) ∧
      (∀ m, m ∈ read ↔ ∃ arg type, .written arg type ∈ l.configArgs ∧
        ∃ front t behind, tokenizeIn crowdedLaunch arg.span = front ++ t :: behind ∧
          ReadAs ctx front.getLast? t behind.head? m) ∧
      ∀ base member loc, .builtin base member loc ∉ read := by
  intro ctx
  obtain ⟨l, nested, hmem, -, hnested⟩ := exists_isCrowded
  obtain ⟨read, s, args, h⟩ := configuration_is_read_by_token hmem
  exact ⟨l, nested, read, s, args, hmem, hnested, h⟩

/-- **A configuration hides coordinates**: the tree is regular, and the tokens of an argument of the
configuration spell the coordinate at byte 34, which is no member of anything. But the launch does
not hold it, as it holds the coordinate of the argument at byte 57. -/
theorem configuration_hides_coordinates :
    Regular .default crowdedLaunch crowdedTree ∧
    ∃ l nested arg, .launch l nested ∈
        Match.withinAll (scanTree .default .hostOnly crowdedLaunch crowdedTree).found ∧
      .written arg "size_t" ∈ l.configArgs ∧
      (tokenizeIn crowdedLaunch arg.span).map (fun t => (t.text, t.start)) =
        [("threadIdx", 34), (".", 43), ("x", 44)] ∧
      ∀ m ∈ nested, m.offset ≠ 34 := by
  obtain ⟨l, nested, hmem, harg, hnested⟩ := exists_isCrowded
  refine ⟨by decide +kernel, l, nested, _, hmem, harg, by decide +kernel, fun m hm hoffset => ?_⟩
  have hat : (m.label, m.offset) ∈ nested.map (fun m => (m.label, m.offset)) :=
    List.mem_map_of_mem hm
  rw [hnested, hoffset] at hat
  simp at hat

end CudaFrontEnd

end CudaToHip
