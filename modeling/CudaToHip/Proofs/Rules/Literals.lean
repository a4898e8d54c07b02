import CudaToHip.Proofs.Rules.Markers
import CudaToHip.Proofs.Token.LineEndTokens
import CudaToHip.Proofs.Token.Range

/-!
# Markers in string literals

A marker is exchanged in a literal as it is written, so a word may stand where a backslash takes
its first character: in `"\cuda"` the escape `\c` becomes `\h`. The quote at which the literal ends
is still the same one, because words are made of letters and digits, and a backslash takes a single
character with it.

* `Lexer.Quoted`: what a literal has behind its opening quote, as a grammar; `Quoted.length`: the
  lexer takes exactly this.
* `Lexer.quoted_append_iff`: a word stands in a literal if what is in front of it leaves the
  literal open, an unfinished escape included, and what is behind it ends the literal.
* `Rules.edited_literal_reads`: an edited literal is read as one string again, whatever follows it.
-/

namespace CudaToHip

/-- A closed string literal without encoding letters. -/
structure Token.IsStringLiteral (t : Token) : Prop where
  kind : t.kind = .string
  opened : t.text.toList.head? = some '"'
  closed : t.IsClosed

namespace Lexer

open Text

variable {c : Char} {cs ds kept rest word into : List Char} {after : Option Char} {pos : Nat}
  {t : Token}

/-! ## What ends a literal -/

/-- A character that is in a string literal what it is elsewhere. -/
def IsPlain (c : Char) : Prop := c ≠ '\\' ∧ c ≠ '\n' ∧ c ≠ '"'

/-- A string literal behind its opening quote. A backslash takes any character with it, and the
first quote that none has taken ends the literal. -/
inductive Quoted : List Char → Prop
  | close : Quoted ['"']
  | escaped (c : Char) {cs : List Char} : Quoted cs → Quoted ('\\' :: c :: cs)
  | plain {c : Char} {cs : List Char} : IsPlain c → Quoted cs → Quoted (c :: cs)

/-- The front of a string literal that does not end it. Its last character may be a backslash that
takes the next one with it. -/
inductive Unclosed : List Char → Prop
  | nil : Unclosed []
  | escape : Unclosed ['\\']
  | escaped (c : Char) {cs : List Char} : Unclosed cs → Unclosed ('\\' :: c :: cs)
  | plain {c : Char} {cs : List Char} : IsPlain c → Unclosed cs → Unclosed (c :: cs)

theorem isPlain_of_isAlphanum (h : c.isAlphanum = true) : IsPlain c := by
  refine ⟨?_, ?_, ?_⟩ <;>
  · rintro rfl
    exact absurd h (by decide)

theorem quoted_cons_iff : Quoted (c :: cs) ↔
    (c = '"' ∧ cs = []) ∨ (∃ d ds, c = '\\' ∧ cs = d :: ds ∧ Quoted ds) ∨
      (IsPlain c ∧ Quoted cs) := by
  constructor
  · intro h
    cases h with
    | close => exact Or.inl ⟨rfl, rfl⟩
    | escaped d h => exact Or.inr (Or.inl ⟨d, _, rfl, rfl, h⟩)
    | plain hc h => exact Or.inr (Or.inr ⟨hc, h⟩)
  · rintro (⟨rfl, rfl⟩ | ⟨d, ds, rfl, rfl, h⟩ | ⟨hc, h⟩)
    · exact .close
    · exact .escaped d h
    · exact .plain hc h

theorem quoted_plain_iff (hc : IsPlain c) : Quoted (c :: cs) ↔ Quoted cs := by
  have hescape := hc.1
  have hquote := hc.2.2
  simp [quoted_cons_iff, hc, hescape, hquote]

theorem quoted_word_iff (hword : ∀ c ∈ word, IsPlain c) : Quoted (word ++ rest) ↔ Quoted rest := by
  induction word with
  | nil => rfl
  | cons c word ih =>
    obtain ⟨hc, hword⟩ := List.forall_mem_cons.mp hword
    exact (quoted_plain_iff hc).trans (ih hword)

/-- The word may be taken apart: a backslash in front of it takes its first character. -/
theorem Unclosed.quoted (hkept : Unclosed kept) (hne : word ≠ []) (hword : ∀ c ∈ word, IsPlain c)
    (hrest : Quoted rest) : Quoted (kept ++ word ++ rest) := by
  induction hkept with
  | nil => exact (quoted_word_iff hword).mpr hrest
  | escape =>
    obtain ⟨c, word, rfl⟩ := List.exists_cons_of_ne_nil hne
    exact .escaped c ((quoted_word_iff (List.forall_mem_cons.mp hword).2).mpr hrest)
  | escaped c _ ih => exact .escaped c ih
  | plain hc _ ih => exact .plain hc ih

theorem Quoted.divide (hne : word ≠ []) (hword : ∀ c ∈ word, IsPlain c)
    (h : Quoted (kept ++ word ++ rest)) : Unclosed kept ∧ Quoted rest := by
  induction hn : kept.length using Nat.strongRecOn generalizing kept with
  | ind n ih =>
    cases kept with
    | nil => exact ⟨.nil, (quoted_word_iff hword).mp h⟩
    | cons c kept =>
      rw [List.length_cons] at hn
      rcases quoted_cons_iff.mp h with ⟨-, hnil⟩ | ⟨d, ds, rfl, hcs, hds⟩ | ⟨hc, hcs⟩
      · simp [hne] at hnil
      · cases kept with
        | nil =>
          obtain ⟨w, ws, rfl⟩ := List.exists_cons_of_ne_nil hne
          obtain ⟨-, rfl⟩ := List.cons.inj hcs
          exact ⟨.escape, (quoted_word_iff (List.forall_mem_cons.mp hword).2).mp hds⟩
        | cons _ kept =>
          obtain ⟨rfl, rfl⟩ := List.cons.inj hcs
          rw [List.length_cons] at hn
          exact (ih kept.length (by omega) hds rfl).imp_left (.escaped _)
      · exact (ih kept.length (by omega) hcs rfl).imp_left (.plain hc)

/-- **Where a word stands in a literal**: in front of it the literal is open, and what is behind it
ends the literal. -/
theorem quoted_append_iff (hne : word ≠ []) (hword : ∀ c ∈ word, IsPlain c) :
    Quoted (kept ++ word ++ rest) ↔ Unclosed kept ∧ Quoted rest :=
  ⟨Quoted.divide hne hword, fun h => h.1.quoted hne hword h.2⟩

/-- **A literal stays closed** where words are exchanged in it. -/
theorem Quoted.exchanged (hne : word ≠ []) (hne' : into ≠ []) (hword : ∀ c ∈ word, IsPlain c)
    (hinto : ∀ c ∈ into, IsPlain c) (h : Exchanged word into cs ds) (hcs : Quoted cs) :
    Quoted ds := by
  induction h with
  | rest => exact hcs
  | first _ _ ih =>
    obtain ⟨hkept, hrest⟩ := (quoted_append_iff hne hword).mp hcs
    exact (quoted_append_iff hne' hinto).mpr ⟨hkept, ih hrest⟩

/-! ## Reading a literal -/

/-- The lexer takes a literal up to the quote that ends it, whatever comes behind. -/
theorem Quoted.length (h : Quoted cs) (ds : List Char) :
    quotedLength '"' (cs ++ ds) = cs.length := by
  induction h with
  | close => rfl
  | escaped c _ ih =>
    rw [List.cons_append, List.cons_append, quotedLength, ih, List.length_cons, List.length_cons]
    omega
  | plain hc _ ih =>
    rw [List.cons_append, quotedLength_cons hc.1 hc.2.1, if_neg hc.2.2, ih, List.length_cons,
      Nat.add_comm]

/-- What the lexer takes is a literal if it ends with the quote. -/
theorem quoted_take (h : closes '"' (cs.take (quotedLength '"' cs)) = true) :
    Quoted (cs.take (quotedLength '"' cs)) := by
  fun_induction quotedLength '"' cs with
  | case1 => cases h
  | case2 => cases h
  | case3 d cs ih =>
    rw [Nat.add_comm, List.take_succ_cons, List.take_succ_cons] at h ⊢
    exact .escaped d (ih h)
  | case4 => cases h
  | case5 => exact .close
  | case6 c cs hlast hmore hline hc ih =>
    have hescape := ne_escape hlast hmore
    rw [Nat.add_comm, List.take_succ_cons] at h ⊢
    rw [closes_cons hescape, if_neg hc] at h
    exact .plain ⟨hescape, hline, hc⟩ (ih h)

theorem measure_quote (after : Option Char) (cs : List Char) :
    Lexer.measure after '"' cs = ⟨some .string, quotedLength '"' cs⟩ := by
  simp [Lexer.measure, isBlank]

/-- **A string literal in a text** is what the grammar says. -/
theorem quoted_of_mem_tokens (h : t ∈ tokens after pos cs) (hlit : t.IsStringLiteral) :
    ∃ body, t.text.toList = '"' :: body ∧ Quoted body := by
  fun_induction tokens after pos cs with
  | case1 => cases h
  | case2 pos c cs m text rest kind hkind ih =>
    rcases List.mem_cons.mp h with rfl | h
    · have htext : (String.ofList text).toList = c :: cs.take m.further := String.toList_ofList
      obtain rfl : c = '"' := by simpa [htext] using hlit.opened
      have hm : m = ⟨some .string, quotedLength '"' cs⟩ := measure_quote after cs
      rw [hm] at htext
      have hclosed := hlit.closed
      rw [Token.IsClosed, Token.letters, htext] at hclosed
      exact ⟨_, htext, quoted_take hclosed⟩
    · exact ih h
  | case3 pos c cs m text rest hkind ih => exact ih h

/-- A literal is read as one string, and what follows it as it is read without it. -/
theorem Quoted.tokenize (h : Quoted cs) (behind : String) :
    tokenize (String.ofList ('"' :: cs) ++ behind) =
      ⟨.string, 0, String.ofList ('"' :: cs)⟩ ::
        (CudaToHip.tokenize behind).map (Token.moved (String.ofList ('"' :: cs)).utf8ByteSize) := by
  rw [CudaToHip.tokenize, String.toList_append, String.toList_ofList, List.cons_append,
    tokens_cons (measure_quote _ _), h.length, List.take_left, List.drop_left]
  dsimp only
  rw [Nat.zero_add, ← Nat.add_zero (byteLength _), tokens_moved, CudaToHip.tokenize,
    ← byteLength_toList, String.toList_ofList]
  rfl

/-- It is closed. -/
theorem Quoted.closes (h : Quoted cs) : Lexer.closes '"' cs = true := by
  induction h with
  | close => rfl
  | escaped c _ ih => exact ih
  | plain hc _ ih => rw [closes_cons hc.1, if_neg hc.2.2, ih]

end Lexer

namespace Rules

open Text Lexer

/-- A word of letters and digits. -/
def IsWord (word : String) : Prop := word ≠ "" ∧ ∀ c ∈ word.toList, c.isAlphanum = true

/-- **A rewritten literal is a literal.** Where a marker is made of letters and digits, an edited
string literal is read as a single string, closed like the one it takes the place of, and what
follows it is read as it is without it. -/
theorem edited_literal_reads {rules : Rules} {source : String} {t : Token} {span : Span} {e : Edit}
    (hword : IsWord rules.config.stringMarker.word) (hinto : IsWord rules.config.stringMarker.into)
    (ht : t ∈ tokenize source) (hlit : t.IsStringLiteral)
    (he : rules.editLiteral? t.text span = some e) :
    (Token.mk .string 0 e.newText).IsStringLiteral ∧ ∀ behind : String,
      tokenize (e.newText ++ behind) = ⟨.string, 0, e.newText⟩ ::
        (tokenize behind).map (Token.moved e.newText.utf8ByteSize) := by
  obtain ⟨body, hbody, hquoted⟩ := quoted_of_mem_tokens ht hlit
  obtain ⟨out, hout, rfl⟩ := Option.map_eq_some_iff.mp he
  obtain ⟨hne, -, hout⟩ := Marker.replaceIn_eq_some.mp hout
  have hne := Marker.word_ne_nil hne
  have hne' : rules.config.stringMarker.into.toList ≠ [] :=
    fun h => hinto.1 (String.toList_eq_nil_iff.mp h)
  have hopening : '"' ∉ rules.config.stringMarker.word.toList :=
    fun h => absurd (hword.2 _ h) (by decide)
  rw [hbody, replaceAll_cons hopening] at hout
  have hquoted' : Quoted (replaceAll _ _ body) :=
    hquoted.exchanged hne hne' (fun c hc => isPlain_of_isAlphanum (hword.2 c hc))
      (fun c hc => isPlain_of_isAlphanum (hinto.2 c hc)) ((exchanged_iff hne).mpr rfl)
  obtain rfl : out = String.ofList ('"' :: replaceAll _ _ body) := by
    rw [← hout, String.ofList_toList]
  refine ⟨⟨rfl, ?_, ?_⟩, hquoted'.tokenize⟩
  · rw [String.toList_ofList, List.head?_cons]
  · rw [Token.IsClosed, Token.letters, String.toList_ofList]
    exact hquoted'.closes

/-- A backslash takes the first letter of the marker, or stands behind it in front of a quote, and
another string follows. -/
theorem edited_literal_reads_escape :
    let rules : Rules := ⟨.ofList [], .default⟩
    let t : Token := ⟨.string, 4, "\"é\\cuda\\\"cuda\\\\\""⟩
    let r : Token := ⟨.string, 0, "\"é\\hip\\\"hip\\\\\""⟩
    IsWord rules.config.stringMarker.word ∧ IsWord rules.config.stringMarker.into ∧
    t ∈ tokenize "x = \"é\\cuda\\\"cuda\\\\\";" ∧ t.IsStringLiteral ∧
    rules.editLiteral? t.text t.span = some ⟨t.span, r.text, .stringLiteral⟩ ∧ r.IsStringLiteral ∧
    tokenize (r.text ++ "\"cuda\"") = [r, ⟨.string, 15, "\"cuda\""⟩] := by
  intro rules t r
  have hword : IsWord rules.config.stringMarker.word :=
    ⟨by decide, List.all_eq_true.mp (by decide)⟩
  have hinto : IsWord rules.config.stringMarker.into :=
    ⟨by decide, List.all_eq_true.mp (by decide)⟩
  have ht : t ∈ tokenize "x = \"é\\cuda\\\"cuda\\\\\";" := by decide +kernel
  have hlit : t.IsStringLiteral := ⟨rfl, by decide +kernel, by decide +kernel⟩
  have he : rules.editLiteral? t.text t.span = some ⟨t.span, r.text, .stringLiteral⟩ := by
    decide +kernel
  obtain ⟨hstays, hreads⟩ := edited_literal_reads hword hinto ht hlit he
  exact ⟨hword, hinto, ht, hlit, he, hstays, (hreads _).trans (by decide +kernel)⟩

end Rules

end CudaToHip
