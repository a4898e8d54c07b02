import CudaToHip.Proofs.Scan.Steps
import CudaToHip.Proofs.Token.Order
import CudaToHip.Rules.Engine

/-!
# Edits of what is spelled

A match that a site spells has at most one edit (`eq_of_spells`), and this edit exchanges the whole
text of the site, which is not empty (`span_of_spells`). A match among the tokens of a launch
configuration is edited inside the argument that the token belongs to (`contains_of_mem_ofConfig`).
-/

namespace CudaToHip

open CudaToHip.Tree

variable {rules : Rules} {e e₁ e₂ : Edit}

namespace Rules

theorem span_of_rename? {symbols : SymbolTable} {name : String} {loc : SourceLoc}
    {origin : EditOrigin} (h : rename? symbols name loc origin = some e) :
    e.span = loc.span name.utf8ByteSize := by
  obtain ⟨target, -, rfl⟩ := Option.map_eq_some_iff.mp h
  rfl

theorem plainMember_append (stem member : String) : plainMember stem (stem ++ member) = member := by
  have hp : stem.toList.isPrefixOf (stem ++ member).toList = true := by
    rw [List.isPrefixOf_iff_prefix, String.toList_append]
    exact List.prefix_append _ _
  unfold plainMember
  rw [if_pos hp, String.toList_append, List.drop_left, String.ofList_toList]

/-- A text without characters has no marker. -/
theorem ne_empty_of_editLiteral? {text : String} {span : Span}
    (h : rules.editLiteral? text span = some e) : text ≠ "" := by
  rintro rfl
  obtain ⟨into, hinto, -⟩ := Option.map_eq_some_iff.mp h
  unfold Text.Marker.replaceIn at hinto
  split at hinto
  · rename_i hm
    obtain ⟨hword, hoccurs⟩ := hm
    have hnil : rules.config.stringMarker.word.toList = [] :=
      List.prefix_nil.mp (List.isPrefixOf_iff_prefix.mp hoccurs)
    exact hword (String.toList_eq_nil_iff.mp hnil)
  · cases hinto

theorem span_of_editLiteral? {text : String} {span : Span}
    (h : rules.editLiteral? text span = some e) : e.span = span := by
  obtain ⟨into, -, rfl⟩ := Option.map_eq_some_iff.mp h
  rfl

/-- An edit for a list of matches is an edit for one of them. -/
theorem mem_editsForAll {ms : List Match} :
    e ∈ rules.editsForAll ms ↔ ∃ m ∈ ms, e ∈ rules.editsFor m := by
  rw [editsForAll_eq_flatMap]
  exact List.mem_flatMap

theorem mem_editsForAll_singleton {m : Match} :
    e ∈ rules.editsForAll [m] ↔ e ∈ rules.editsFor m := by
  simp [editsForAll]

theorem mem_editsForAll_append {ms ns : List Match} : e ∈ rules.editsForAll (ms ++ ns) ↔
    e ∈ rules.editsForAll ms ∨ e ∈ rules.editsForAll ns := by
  simp [editsForAll_eq_flatMap]

/-- An edit for matches collected along a list is one for the matches of a member. -/
theorem mem_editsForAll_flatMap {α : Type} {xs : List α} {f : α → List Match} :
    e ∈ rules.editsForAll (xs.flatMap f) ↔ ∃ x ∈ xs, e ∈ rules.editsForAll (f x) := by
  rw [editsForAll_eq_flatMap, List.flatMap_assoc, List.mem_flatMap]
  simp only [editsForAll_eq_flatMap]

end Rules

namespace Constructs

variable {ctx : Context} {a : Site} {m : Match}

theorem ne_empty_of_isApiName {name : String} (h : ctx.isApiName name = true) : name ≠ "" := by
  rintro rfl
  unfold Context.isApiName at h
  simp only [Bool.and_eq_true, decide_eq_true_eq] at h
  obtain ⟨hstem, hprefix⟩ := h
  have hnil : ctx.stem.toList = [] :=
    List.prefix_nil.mp (List.isPrefixOf_iff_prefix.mp hprefix)
  exact hstem (String.toList_eq_nil_iff.mp hnil)

/-- What a coordinate is read from: its text is the object, a dot and the member. -/
theorem exists_of_coordinate? (h : ctx.coordinate? a = some m) :
    ∃ object member, a.node.text ctx.source = object ++ "." ++ member ∧
      m = .builtin (some object) (ctx.memberStem ++ member) (.direct a.span.start) := by
  unfold Context.coordinate? at h
  dsimp only at h
  split at h
  · rename_i member hdrop
    split at h
    · obtain rfl := Option.some.inj h
      refine ⟨_, String.singleton member, ?_, rfl⟩
      rw [← String.toList_inj]
      have hjoin := List.takeWhile_append_dropWhile (p := fun c => decide (c ≠ '.'))
        (l := (a.node.text ctx.source).toList)
      rw [hdrop] at hjoin
      refine hjoin.symm.trans ?_
      simp [String.toList_append]
    · cases h
  · cases h

/-- **The edit of a spelled match exchanges the text of its site.** -/
theorem span_of_spells (hstem : rules.config.builtinMemberStem = ctx.memberStem)
    (ha : WellFormed ctx a) (h : Spells ctx a m) (he : e ∈ rules.editsFor m) :
    e.span = a.span ∧ a.span.start < a.span.stop := by
  cases h with
  | call hk hapi =>
    rw [Rules.span_of_rename? (Option.mem_toList.mp he)]
    exact ⟨ha.ofLength_eq, ha.start_lt_stop (ne_empty_of_isApiName hapi)⟩
  | typeRef kind hk hapi =>
    rw [Rules.span_of_rename? (Option.mem_toList.mp he)]
    exact ⟨ha.ofLength_eq, ha.start_lt_stop (ne_empty_of_isApiName hapi)⟩
  | coordinate hk hm =>
    obtain ⟨object, member, htext, rfl⟩ := exists_of_coordinate? hm
    have hname : object ++ "." ++ Rules.plainMember rules.config.builtinMemberStem
        (ctx.memberStem ++ member) = a.node.text ctx.source := by
      rw [hstem, Rules.plainMember_append, htext]
    have hren : Rules.rename? rules.symbols (a.node.text ctx.source)
        (.direct a.span.start) .builtinAccess = some e := by
      rw [← hname]
      exact Option.mem_toList.mp he
    have hne : a.node.text ctx.source ≠ "" := by
      intro h0
      have hlen := congrArg String.length (htext.symm.trans h0)
      simp only [String.length_append] at hlen
      exact absurd hlen (by simp)
    rw [Rules.span_of_rename? hren]
    exact ⟨ha.ofLength_eq, ha.start_lt_stop hne⟩
  | literal hk =>
    have hlit := Option.mem_toList.mp he
    exact ⟨Rules.span_of_editLiteral? hlit, ha.start_lt_stop (Rules.ne_empty_of_editLiteral? hlit)⟩

theorem offset_of_spells (h : Spells ctx a m) : m.offset = a.span.start := by
  cases h with
  | call | typeRef | literal => rfl
  | coordinate hk hm =>
    obtain ⟨object, member, -, rfl⟩ := exists_of_coordinate? hm
    rfl

/-- A spelled match has one edit at most. -/
theorem eq_of_spells (h : Spells ctx a m) (h₁ : e₁ ∈ rules.editsFor m)
    (h₂ : e₂ ∈ rules.editsFor m) : e₁ = e₂ := by
  have single {o : Option Edit} (h₁ : e₁ ∈ o.toList) (h₂ : e₂ ∈ o.toList) : e₁ = e₂ :=
    Option.some.inj ((Option.mem_toList.mp h₁).symm.trans (Option.mem_toList.mp h₂))
  cases h with
  | call | typeRef | literal => exact single h₁ h₂
  | coordinate hk hm =>
    obtain ⟨object, member, -, rfl⟩ := exists_of_coordinate? hm
    exact single h₁ h₂

/-! ## Tokens of a configuration -/

/-- The match was read off the token. -/
inductive Names (t : Token) : Match → Prop where
  | literal : Names t (.stringLiteral t.text t.span)
  | call : Names t (.call t.text (.direct t.start))
  | constant : Names t (.typeRef t.text (.direct t.start) .enumConstant)

/-- Every match among tokens was read off one of them. -/
theorem names_of_mem_ofConfigTokens {last : Option Token} {ts : List Token}
    (hm : m ∈ ctx.ofConfigTokens last ts) : ∃ t ∈ ts, Names t m := by
  induction ts generalizing last with
  | nil => cases hm
  | cons t ts ih =>
    rcases List.mem_append.mp hm with hm | hm
    · refine ⟨t, List.mem_cons_self, ?_⟩
      split at hm
      · obtain rfl := List.mem_singleton.mp hm
        exact .literal
      · split_ifs at hm
        · cases hm
        · obtain rfl := List.mem_singleton.mp hm
          exact .call
        · obtain rfl := List.mem_singleton.mp hm
          exact .constant
      · cases hm
    · obtain ⟨u, hu, hnames⟩ := ih hm
      exact ⟨u, List.mem_cons_of_mem _ hu, hnames⟩

/-- The edit of a match that was read off a token exchanges the token. -/
theorem span_of_names {t : Token} (h : Names t m) (he : e ∈ rules.editsFor m) :
    e.span = t.span := by
  cases h with
  | literal => exact Rules.span_of_editLiteral? (Option.mem_toList.mp he)
  | call => exact Rules.span_of_rename? (Option.mem_toList.mp he)
  | constant => exact Rules.span_of_rename? (Option.mem_toList.mp he)

/-- **What is found in a configuration is edited inside one of its arguments.** -/
theorem contains_of_mem_ofConfig {config : LaunchConfig}
    (hargs : ∀ arg ∈ config.args, (arg.span.text? ctx.source).isSome)
    (he : e ∈ rules.editsForAll (ctx.ofConfig config)) :
    ∃ arg ∈ config.args, arg.span.contains e.span = true := by
  obtain ⟨m, hm, he⟩ := Rules.mem_editsForAll.mp he
  obtain ⟨arg, harg, hm⟩ := List.mem_flatMap.mp hm
  obtain ⟨t, ht, hnames⟩ := names_of_mem_ofConfigTokens hm
  rw [span_of_names hnames he]
  exact ⟨arg, harg, contains_of_mem_tokenizeIn (hargs arg harg) ht⟩

end Constructs

end CudaToHip
