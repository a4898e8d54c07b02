import CudaToHip.Proofs.Replacement.Sweep
import CudaToHip.Proofs.Token.Order
import CudaToHip.Proofs.Token.Respell
import CudaToHip.Rules.Engine

/-!
# Renaming all identifiers of a text

`Rules.renamings` are the edits that exchange every identifier of a text that the symbol table
knows. They stand in a row, so all of them are accepted (`proposeAll_renamings`) and applied, and
the new text is `Lexer.respell` of the old one (`applyTo_renamings`). If names and targets are
names in ASCII, and no target introduces literals, the new text therefore has the same tokens up to
their names (`renaming_keeps_tokens`), and a table without chains has nothing to rename in it.
-/

namespace CudaToHip

namespace Rules

variable (rules : Rules)

/-- The edits that rename the identifiers among some tokens. -/
def renamingsOf (ts : List Token) : List Edit :=
  (ts.filter (·.kind = .identifier)).filterMap fun t => rules.editMacroName? t.text t.span true

/-- The edits that rename the identifiers of a text. -/
def renamings (source : String) : List Edit := rules.renamingsOf (tokenize source)

variable {rules}

theorem renamingsOf_cons (t : Token) (ts : List Token) :
    rules.renamingsOf (t :: ts) =
      (if t.kind = .identifier then rules.editMacroName? t.text t.span true else none).toList ++
        rules.renamingsOf ts := by
  unfold renamingsOf
  by_cases hkind : t.kind = .identifier
  · rw [List.filter_cons_of_pos (by simpa using hkind), List.filterMap_cons, if_pos hkind]
    cases rules.editMacroName? t.text t.span true <;> rfl
  · rw [List.filter_cons_of_neg (by simpa using hkind), if_neg hkind]
    rfl

theorem editMacroName?_eq (name : String) (span : Span) :
    rules.editMacroName? name span true =
      (rules.symbols.lookup name).map (⟨span, ·, .macroIdentifier⟩) := rfl

theorem exists_of_mem_renamingsOf {ts : List Token} {e : Edit} (h : e ∈ rules.renamingsOf ts) :
    ∃ t ∈ ts, e.span = t.span ∧ t.kind = .identifier ∧
      rules.symbols.lookup t.text = some e.newText := by
  obtain ⟨t, ht, he⟩ := List.mem_filterMap.mp h
  obtain ⟨ht, hkind⟩ := List.mem_filter.mp ht
  obtain ⟨target, htarget, rfl⟩ := Option.map_eq_some_iff.mp he
  exact ⟨t, ht, rfl, by simpa using hkind, htarget⟩

/-! ## All edits go in -/

/-- The edits stand in a row, as the tokens do. -/
theorem pairwise_renamingsOf {ts : List Token}
    (h : ts.Pairwise fun a b => a.span.stop ≤ b.span.start) :
    (rules.renamingsOf ts).Pairwise fun a b => a.span.stop ≤ b.span.start := by
  refine List.pairwise_filterMap.mpr ((h.filter _).imp fun {a b} hab e he d hd => ?_)
  obtain ⟨_, -, rfl⟩ := Option.map_eq_some_iff.mp he
  obtain ⟨_, -, rfl⟩ := Option.map_eq_some_iff.mp hd
  exact hab

theorem pairwise_renamings (source : String) :
    (rules.renamings source).Pairwise fun a b => a.span.stop ≤ b.span.start :=
  pairwise_renamingsOf Lexer.pairwise_tokens

theorem proposeAll_renamings (policy : ConflictPolicy) (source : String) :
    (ReplacementSet.empty policy).proposeAll (rules.renamings source) =
      ⟨policy, rules.renamings source, []⟩ := by
  refine ReplacementSet.proposeAll_of_row policy (pairwise_renamings source) fun e he => ?_
  obtain ⟨t, ht, hspan, -⟩ := exists_of_mem_renamingsOf he
  rw [hspan]
  exact Lexer.start_lt_stop_of_mem_tokens ht

theorem skipped_sweep_renamings (source : String) :
    (Applied.sweep source 0 (rules.renamings source)).skipped = [] := by
  refine Applied.sweep_of_row (pairwise_renamings source) (fun e _ => Nat.zero_le _) fun e he => ?_
  obtain ⟨t, ht, hspan, -⟩ := exists_of_mem_renamingsOf he
  rw [hspan]
  exact text?_of_mem_tokenize ht

/-! ## The text they make -/

/-- The renaming of the first thing read, if it is an identifier with a target, and the others. -/
theorem renamingsOf_tokens {c : Char} {cs : List Char} {m : Lexer.Measure}
    (hm : Lexer.measure none c cs = m) (u : String) :
    let piece := String.ofList (c :: cs.take m.further)
    rules.renamingsOf (Lexer.tokens none u.utf8ByteSize (c :: cs)) =
      (if m.kind? = some .identifier then
        rules.editMacroName? piece (.ofLength u.utf8ByteSize piece.utf8ByteSize) true
        else none).toList ++
      rules.renamingsOf (Lexer.tokens none (u ++ piece).utf8ByteSize (cs.drop m.further)) := by
  intro piece
  have hpos : u.utf8ByteSize + Text.byteLength (c :: cs.take m.further) =
      (u ++ piece).utf8ByteSize := by
    rw [String.utf8ByteSize_append, ← Text.byteLength_toList piece, String.toList_ofList]
  rw [Lexer.tokens_cons hm, hpos]
  cases hkind : m.kind? with
  | none => rfl
  | some kind =>
    rw [Option.map_some, Option.toList_some, List.singleton_append, renamingsOf_cons]
    simp only [Option.some.injEq]
    rfl

/-- The first thing read is a slice of the text, and what is behind it the rest. -/
theorem slice?_of_cons {source u : String} {c : Char} {cs : List Char} (n : Nat)
    (h : source = u ++ String.ofList (c :: cs)) :
    let piece := String.ofList (c :: cs.take n)
    Text.slice? source u.utf8ByteSize (u ++ piece).utf8ByteSize = some piece ∧
      source = u ++ piece ++ String.ofList (cs.drop n) := by
  intro piece
  have hsource : source = u ++ piece ++ String.ofList (cs.drop n) := by
    rw [h, String.append_assoc, ← String.ofList_append, List.cons_append, List.take_append_drop]
  exact ⟨Text.slice?_eq_some_iff.mpr ⟨u, _, hsource, rfl, String.utf8ByteSize_append⟩, hsource⟩

/-- **The sweep respells the text**: from every place that the lexer comes to, the renamings of what
is behind it make what the lexer's run respells. -/
theorem sweepsTo_renamings (source : String) (cs : List Char) :
    ∀ u : String, source = u ++ String.ofList cs →
      Applied.SweepsTo source u.utf8ByteSize
        (rules.renamingsOf (Lexer.tokens none u.utf8ByteSize cs))
        (String.ofList (Lexer.respell rules.symbols.lookup cs)) := by
  fun_induction Lexer.respell rules.symbols.lookup cs with
  | case1 =>
    rintro u rfl
    rw [String.ofList_nil, String.append_empty, Lexer.tokens]
    exact .nil
  | case2 c cs m text rest hkind ih =>
    intro u hsource
    obtain ⟨hpiece, hrest⟩ := slice?_of_cons m.further hsource
    rw [renamingsOf_tokens (m := m) rfl, if_pos hkind, editMacroName?_eq, String.ofList_append]
    cases htarget : rules.symbols.lookup (String.ofList text) with
    | none => exact .kept hpiece (ih _ hrest)
    | some target =>
      let e : Edit := ⟨.ofLength u.utf8ByteSize (String.ofList text).utf8ByteSize, target,
        .macroIdentifier⟩
      have hstop : e.span.stop = (u ++ String.ofList text).utf8ByteSize :=
        String.utf8ByteSize_append.symm
      have hin : e.span.text? source = some (String.ofList text) := by
        rw [← hpiece, ← hstop]
        rfl
      have hbehind := ih _ hrest
      rw [← hstop] at hbehind
      rw [Option.map_some, Option.map_some, Option.getD_some, String.ofList_toList, ← hstop]
      exact .replaced hin hbehind
  | case3 c cs m text rest hkind ih =>
    intro u hsource
    obtain ⟨hpiece, hrest⟩ := slice?_of_cons m.further hsource
    rw [renamingsOf_tokens (m := m) rfl, if_neg hkind, String.ofList_append]
    exact .kept hpiece (ih _ hrest)

/-- **All renamings go in**, and make the respelled text. -/
theorem applyTo_renamings (policy : ConflictPolicy) (source : String) :
    ((ReplacementSet.empty policy).proposeAll (rules.renamings source)).applyTo source =
      ⟨String.ofList (Lexer.respell rules.symbols.lookup source.toList),
        (rules.renamings source).length, []⟩ := by
  have hskipped : (Applied.sweep source 0 (rules.renamings source)).skipped = [] :=
    skipped_sweep_renamings source
  have happlied := Applied.applied_add_skipped source 0 (rules.renamings source)
  rw [hskipped, List.length_nil, Nat.add_zero] at happlied
  have hstart : Text.slice? source 0 "".utf8ByteSize = some "" :=
    Text.slice?_self (Text.isBoundary_zero source)
  have hsource : source = "" ++ String.ofList source.toList := by simp
  have htext : (Applied.sweep source 0 (rules.renamings source)).text =
      "" ++ String.ofList (Lexer.respell rules.symbols.lookup source.toList) :=
    sweepsTo_renamings source source.toList "" hsource 0 "" hstart
  rw [String.empty_append] at htext
  rw [proposeAll_renamings]
  show Applied.sweep source 0 (rules.renamings source) = _
  rw [← htext, ← happlied, ← hskipped]

/-! ## Tables -/

theorem mem_of_lookup {table : SymbolTable} {name target : String}
    (h : table.lookup name = some target) : (name, target) ∈ table.names := by
  obtain ⟨names⟩ := table
  unfold SymbolTable.lookup at h
  induction names with
  | nil => cases h
  | cons e names ih =>
    obtain ⟨n, t⟩ := e
    rw [NameMap.get?] at h
    split_ifs at h with hname
    · cases h
      exact hname ▸ List.mem_cons_self
    · exact List.mem_cons_of_mem _ (ih h)

/-- A table is checked by its entries. -/
theorem plainRenaming_of_entries {table : SymbolTable}
    (h : ∀ e ∈ table.names, Lexer.isPlainName e.1.toList = true ∧
      Lexer.isPlainName e.2.toList = true ∧ e.2 ∉ Lexer.literalMarks) :
    Lexer.PlainRenaming table.lookup :=
  fun _ _ hlookup => h _ (mem_of_lookup hlookup)

/-! ## The tokens of the new text -/

/-- Behind a renaming that takes no name to another name, no identifier has a target. -/
theorem lookup_renamedText {t : Token} (hkind : t.kind = .identifier)
    (hchain : ∀ name target, rules.symbols.lookup name = some target →
      rules.symbols.lookup target = none) :
    rules.symbols.lookup (Lexer.renamedText rules.symbols.lookup t) = none := by
  unfold Lexer.renamedText
  rw [if_pos hkind]
  cases htarget : rules.symbols.lookup t.text with
  | none => exact htarget
  | some target => exact hchain _ _ htarget

/-- There is nothing to rename in a text whose tokens are those of another, renamed. -/
theorem renamings_eq_nil {source result : String}
    (htokens : (tokenize result).map (fun t => (t.kind, t.text)) =
      (tokenize source).map fun t => (t.kind, Lexer.renamedText rules.symbols.lookup t))
    (hchain : ∀ name target, rules.symbols.lookup name = some target →
      rules.symbols.lookup target = none) : rules.renamings result = [] := by
  refine List.eq_nil_iff_forall_not_mem.mpr fun e he => ?_
  obtain ⟨t, ht, -, hkind, htarget⟩ := exists_of_mem_renamingsOf he
  have hmem := List.mem_map_of_mem (f := fun t : Token => (t.kind, t.text)) ht
  rw [htokens] at hmem
  obtain ⟨t', -, heq⟩ := List.mem_map.mp hmem
  obtain ⟨hkind', hread⟩ := Prod.mk.inj heq
  have hnone := lookup_renamedText (hkind'.trans hkind) hchain
  rw [hread, htarget] at hnone
  cases hnone

/-- **Renaming all identifiers keeps the tokens.** For a table that takes names in ASCII to names in
ASCII that introduce no literals, under every policy and for every text: no renaming is turned away
or skipped, and the tokens of the new text are those of the old one, of the same kinds and in the
same order, with the target in place of every identifier that has one and all others as before. If
no target has a target itself, there is nothing to rename in the new text. -/
theorem renaming_keeps_tokens (rules : Rules) (policy : ConflictPolicy) (source : String)
    (hplain : Lexer.PlainRenaming rules.symbols.lookup) :
    let renamings := rules.renamings source
    let s := (ReplacementSet.empty policy).proposeAll renamings
    let result := s.applyTo source
    (s.edits = renamings ∧ s.conflicts = []) ∧
    (result.applied = renamings.length ∧ result.skipped = []) ∧
    (tokenize result.text).map (fun t => (t.kind, t.text)) =
      (tokenize source).map (fun t => (t.kind, Lexer.renamedText rules.symbols.lookup t)) ∧
    ((∀ name target, rules.symbols.lookup name = some target →
        rules.symbols.lookup target = none) →
      rules.renamings result.text = []) := by
  intro renamings s result
  have hs : s = ⟨policy, renamings, []⟩ := proposeAll_renamings policy source
  have hresult : result = _ := applyTo_renamings policy source
  have htokens : (tokenize result.text).map (fun t => (t.kind, t.text)) =
      (tokenize source).map fun t => (t.kind, Lexer.renamedText rules.symbols.lookup t) := by
    rw [hresult]
    unfold tokenize
    rw [String.toList_ofList]
    exact Lexer.keepsTokens_respell hplain source.toList 0 0
  exact ⟨⟨congrArg ReplacementSet.edits hs, congrArg ReplacementSet.conflicts hs⟩,
    ⟨congrArg Applied.applied hresult, congrArg Applied.skipped hresult⟩, htokens,
    fun hchain => renamings_eq_nil htokens hchain⟩

/-- Literals with letters in front, a number that swallows a letter, a comment and a punctuator
stand next to the names. -/
theorem renaming_keeps_tokens_crowded :
    let rules : Rules :=
      ⟨.ofList [("L", "M"), ("e", "_Em"), ("cudaFree", "hipFree")], .default⟩
    let source := "cudaFree(L, L\"L\", L'e', 1.e) /* L */ ->e L/**/\"e\" e'L'"
    let result :=
      ((ReplacementSet.empty .overlap).proposeAll (rules.renamings source)).applyTo source
    Lexer.PlainRenaming rules.symbols.lookup ∧
    (∀ name target, rules.symbols.lookup name = some target →
      rules.symbols.lookup target = none) ∧
    result.text = "hipFree(M, L\"L\", L'e', 1.e) /* L */ ->_Em M/**/\"e\" _Em'L'" ∧
    (tokenize result.text).map (·.text) =
      ["hipFree", "(", "M", ",", "L\"L\"", ",", "L'e'", ",", "1.e", ")", "->", "_Em", "M", "\"e\"",
        "_Em", "'L'"] ∧
    rules.renamings result.text = [] := by
  intro rules source result
  have hplain : Lexer.PlainRenaming rules.symbols.lookup :=
    plainRenaming_of_entries (by decide +kernel)
  have hchain : ∀ name target, rules.symbols.lookup name = some target →
      rules.symbols.lookup target = none := fun name target h =>
    have hall : ∀ e ∈ rules.symbols.names, rules.symbols.lookup e.2 = none := by decide +kernel
    hall _ (mem_of_lookup h)
  obtain ⟨-, -, htokens, hagain⟩ := renaming_keeps_tokens rules .overlap source hplain
  refine ⟨hplain, hchain, by decide +kernel, ?_, hagain hchain⟩
  have htexts := congrArg (List.map Prod.snd) htokens
  rw [List.map_map, List.map_map] at htexts
  exact htexts.trans (by decide +kernel)

end Rules

end CudaToHip
