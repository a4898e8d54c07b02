import CudaToHip.Proofs.Match
import CudaToHip.Proofs.Scan.Walk

/-!
# Edits in directives

An edit for a match in a directive exchanges text inside of the directive, where the match was found
(`inside_of_ofSite`). Edits in directives agree (`agree_of_directives`), and they agree with those a
walk over the tree gives (`agree_of_directive_of_exchanges`), since a walk neither enters a
directive nor exchanges a text that holds one.
-/

namespace CudaToHip

open CudaToHip.Tree ReplacementSet Constructs

variable {rules : Rules} {ctx : Context} {s a : Site} {m m₁ m₂ : Match} {e e₁ e₂ : Edit}

namespace Rules

theorem eq_of_editInclude? {target : String} {angled main : Bool} {span : Span}
    (h : rules.editInclude? target angled span main = some e) : e.span = span := by
  unfold editInclude? at h
  split at h
  · obtain ⟨t, -, rfl⟩ := Option.map_eq_some_iff.mp h
    rfl
  · cases h

theorem eq_of_editMacroName? {name : String} {main : Bool} {span : Span}
    (h : rules.editMacroName? name span main = some e) : e.span = span := by
  unfold editMacroName? at h
  split at h
  · obtain ⟨t, -, rfl⟩ := Option.map_eq_some_iff.mp h
    rfl
  · cases h

end Rules

namespace Directives

theorem isDirective_eq (s : Site) : isDirective s = s.kind.isDirective := by
  unfold isDirective Kind.isDirective
  cases s.kind <;> rfl

/-- The match of an include directive is its target. -/
theorem exists_of_mem_ofInclude {source : String} (h : m ∈ ofInclude source s) :
    ∃ path text, s.child? .path = some path ∧ path.span.text? source = some text ∧
      2 ≤ text.utf8ByteSize ∧
      m = .inclusion (inner text) (decide (path.kind = .systemHeader)) path.span true := by
  unfold ofInclude at h
  split at h
  · cases h
  · rename_i path hpath
    dsimp only at h
    cases htext : path.span.text? source with
    | none =>
      rw [htext] at h
      split at h <;> cases h
    | some text =>
      rw [htext] at h
      have hfound {angled : Bool} (hangled : decide (path.kind = .systemHeader) = angled)
          (h : m ∈ if text.utf8ByteSize < 2 then []
            else [Match.inclusion (inner text) angled path.span true]) :
          ∃ path text, s.child? .path = some path ∧ path.span.text? source = some text ∧
            2 ≤ text.utf8ByteSize ∧
            m = .inclusion (inner text) (decide (path.kind = .systemHeader)) path.span true := by
        subst hangled
        split at h
        · cases h
        · rename_i hsize
          exact ⟨path, text, hpath, htext, by omega, List.mem_singleton.mp h⟩
      split at h
      · rename_i hk
        exact hfound (by rw [hk]; rfl) h
      · rename_i hk
        exact hfound (by rw [hk]; rfl) h
      · cases h

/-- The matches of a macro definition are identifiers in its body. -/
theorem exists_of_mem_ofDefine {source : String} (h : m ∈ ofDefine source s) :
    ∃ name value t, s.child? .name = some name ∧ s.child? .value = some value ∧
      t ∈ tokenizeIn source value.span ∧
      m = .macroIdentifier t.text (name.node.text source) t.span true := by
  unfold ofDefine at h
  split at h
  · rename_i name value hname hvalue
    obtain ⟨t, ht, hm⟩ := List.mem_filterMap.mp h
    split at hm
    · exact ⟨name, value, t, hname, hvalue, ht, (Option.some.inj hm).symm⟩
    · cases hm
  · cases h

theorem of_mem_ofSite {source : String} (h : m ∈ ofSite source s) :
    m ∈ ofInclude source s ∨ m ∈ ofDefine source s := by
  unfold ofSite at h
  split at h
  · exact Or.inl h
  · exact Or.inr h
  · exact Or.inr h
  · cases h

/-- **An edit in a directive stays inside of it**, where the match was found. -/
theorem inside_of_ofSite (hs : Sound ctx s) (hm : m ∈ ofSite ctx.source s)
    (he : e ∈ rules.editsFor m) :
    s.span.contains e.span = true ∧ e.span.start < e.span.stop ∧ m.offset = e.span.start := by
  rcases of_mem_ofSite hm with hm | hm
  · obtain ⟨path, text, hpath, htext, hsize, rfl⟩ := exists_of_mem_ofInclude hm
    have hspan : e.span = path.span := Rules.eq_of_editInclude? (Option.mem_toList.mp he)
    have hstop := Text.utf8ByteSize_of_slice? htext
    rw [hspan]
    exact ⟨hs.self.inside path (Site.mem_children_of_child? hpath), by omega, rfl⟩
  · obtain ⟨name, value, t, -, hvalue, ht, rfl⟩ := exists_of_mem_ofDefine hm
    have hspan : e.span = t.span := Rules.eq_of_editMacroName? (Option.mem_toList.mp he)
    have hmem := Site.mem_children_of_child? hvalue
    have hin := contains_of_mem_tokenizeIn (hs value (.of_mem_children hmem)).boundaries ht
    rw [hspan]
    exact ⟨Span.contains_trans (hs.self.inside value hmem) hin,
      Lexer.start_lt_stop_of_mem_tokens ht, rfl⟩

/-- Two edits of one directive agree. -/
theorem agree_of_ofSite (hs : Sound ctx s) (hm₁ : m₁ ∈ ofSite ctx.source s)
    (hm₂ : m₂ ∈ ofSite ctx.source s) (h₁ : e₁ ∈ rules.editsFor m₁)
    (h₂ : e₂ ∈ rules.editsFor m₂) : Agree e₁ e₂ := by
  have single {o : Option Edit} (h₁ : e₁ ∈ o.toList) (h₂ : e₂ ∈ o.toList) : Agree e₁ e₂ := by
    have heq : e₁ = e₂ :=
      Option.some.inj ((Option.mem_toList.mp h₁).symm.trans (Option.mem_toList.mp h₂))
    rw [heq]
    exact Agree.refl _
  have hin₁ := inside_of_ofSite hs hm₁ h₁
  have hin₂ := inside_of_ofSite hs hm₂ h₂
  have hdefine (hm₁ : m₁ ∈ ofDefine ctx.source s) (hm₂ : m₂ ∈ ofDefine ctx.source s) :
      Agree e₁ e₂ := by
    obtain ⟨name₁, value₁, t₁, hname₁, hvalue₁, ht₁, rfl⟩ := exists_of_mem_ofDefine hm₁
    obtain ⟨name₂, value₂, t₂, hname₂, hvalue₂, ht₂, rfl⟩ := exists_of_mem_ofDefine hm₂
    obtain rfl := Option.some.inj (hvalue₁.symm.trans hvalue₂)
    obtain rfl := Option.some.inj (hname₁.symm.trans hname₂)
    have hspan₁ : e₁.span = t₁.span := Rules.eq_of_editMacroName? (Option.mem_toList.mp h₁)
    have hspan₂ : e₂.span = t₂.span := Rules.eq_of_editMacroName? (Option.mem_toList.mp h₂)
    rcases eq_or_apart_of_mem_tokenizeIn ht₁ ht₂ with rfl | hapart
    · exact single h₁ h₂
    · rw [← hspan₁, ← hspan₂] at hapart
      exact agree_of_apart hin₁.2.1 (Nat.le_of_lt hin₂.2.1) hapart
  have hinclude (hm₁ : m₁ ∈ ofInclude ctx.source s) (hm₂ : m₂ ∈ ofInclude ctx.source s) :
      Agree e₁ e₂ := by
    obtain ⟨path₁, text₁, hpath₁, htext₁, -, rfl⟩ := exists_of_mem_ofInclude hm₁
    obtain ⟨path₂, text₂, hpath₂, htext₂, -, rfl⟩ := exists_of_mem_ofInclude hm₂
    obtain rfl := Option.some.inj (hpath₁.symm.trans hpath₂)
    obtain rfl := Option.some.inj (htext₁.symm.trans htext₂)
    exact single h₁ h₂
  unfold ofSite at hm₁ hm₂
  split at hm₁
  case h_1 hk => rw [hk] at hm₂; exact hinclude hm₁ hm₂
  case h_2 hk | h_3 hk => rw [hk] at hm₂; exact hdefine hm₁ hm₂
  case h_4 => cases hm₁

/-! ## All directives of a tree -/

variable {source : String} {tree : Node}

/-- Everything that is found in directives comes from the preprocessor. -/
theorem isDirective_of_mem_scan (h : m ∈ scan source tree) : m.isDirective = true := by
  obtain ⟨d, -, hm⟩ := List.mem_flatMap.mp h
  rcases of_mem_ofSite hm with hm | hm
  · obtain ⟨_, _, -, -, -, rfl⟩ := exists_of_mem_ofInclude hm
    rfl
  · obtain ⟨_, _, _, -, -, -, rfl⟩ := exists_of_mem_ofDefine hm
    rfl

/-- Nothing that is found in directives holds anything. -/
theorem withinAll_scan (source : String) (tree : Node) :
    Match.withinAll (scan source tree) = scan source tree :=
  Match.withinAll_of_isDirective fun _ hm => isDirective_of_mem_scan hm

/-- What an edit in a directive is: it stays inside one of the outermost directives. -/
theorem exists_of_scan (he : e ∈ rules.editsForAll (scan ctx.source tree)) :
    ∃ d ∈ (Site.root tree).outermost isDirective, ∃ m ∈ ofSite ctx.source d,
      e ∈ rules.editsFor m ∧ m ∈ scan ctx.source tree := by
  obtain ⟨m, hm, he⟩ := Rules.mem_editsForAll.mp he
  obtain ⟨d, hd, hmd⟩ := List.mem_flatMap.mp hm
  exact ⟨d, hd, m, hmd, he, hm⟩

/-- **Edits in directives agree.** -/
theorem agree_of_directives (hs : Sound ctx (.root tree))
    (h₁ : e₁ ∈ rules.editsForAll (scan ctx.source tree))
    (h₂ : e₂ ∈ rules.editsForAll (scan ctx.source tree)) : Agree e₁ e₂ := by
  obtain ⟨c, hc, m₁, hm₁, h₁, -⟩ := exists_of_scan h₁
  obtain ⟨d, hd, m₂, hm₂, h₂, -⟩ := exists_of_scan h₂
  have hsc := hs.of_reaches (Site.of_mem_outermost hc).1
  have hsd := hs.of_reaches (Site.of_mem_outermost hd).1
  obtain ⟨hin₁, hlt₁, -⟩ := inside_of_ofSite hsc hm₁ h₁
  obtain ⟨hin₂, hlt₂, -⟩ := inside_of_ofSite hsd hm₂ h₂
  have hapart (h : c.span.Apart d.span) : Agree e₁ e₂ :=
    agree_of_apart hlt₁ (Nat.le_of_lt hlt₂) (h.mono hin₁ hin₂)
  rcases Site.eq_or_before_of_mem_outermost hs.placed hc hd with rfl | hcd | hdc
  · exact agree_of_ofSite hsc hm₁ hm₂ h₁ h₂
  · exact hapart (Or.inl hcd.2)
  · exact hapart (Or.inr hdc.2)

/-- **An edit in a directive agrees with one of a walk.** -/
theorem agree_of_directive_of_exchanges (hs : Sound ctx (.root tree))
    (h₁ : e₁ ∈ rules.editsForAll (scan ctx.source tree)) (h₂ : Exchanges ctx (.root tree) a e₂) :
    Agree e₁ e₂ := by
  obtain ⟨d, hd, m, hm, he, -⟩ := exists_of_scan h₁
  obtain ⟨hreach, hdir⟩ := Site.of_mem_outermost hd
  rw [isDirective_eq] at hdir
  have hsd := hs.of_reaches hreach
  obtain ⟨hin, hlt, -⟩ := inside_of_ofSite hsd hm he
  rcases Site.reaches_or_apart hs.placed hreach h₂.clear.1 with hda | had | hapart
  · rcases hda.eq_or_child with rfl | ⟨c, hc, hca⟩
    · rw [(h₂.pure a .self).1] at hdir
      cases hdir
    · -- the walk would have passed through the directive
      rcases h₂.clear.2 d.node (Site.node_mem_up hc hca) with hup | hnot
      · cases hup
      · have hkind : d.kind.isDirective = false := hnot
        rw [hkind] at hdir
        cases hdir
  · rw [(h₂.pure d had).1] at hdir
    cases hdir
  · refine agree_of_apart hlt ?_ ?_
    · rw [h₂.span]
      exact Nat.le_of_lt h₂.lt
    · rw [h₂.span]
      exact hapart.mono hin (Span.contains_self _)

end Directives

end CudaToHip
