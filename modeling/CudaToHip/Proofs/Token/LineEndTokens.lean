import CudaToHip.Proofs.Token.LineEnds
import CudaToHip.Proofs.Token.Order

/-!
# Tokens of a text with Windows line ends

A text and the same text with Windows line ends have the same tokens, up to the line ends in raw
strings, exactly if no other literal goes over a line end (`crlf_keeps_tokens_iff`). Such a literal
has a backslash in front of its line end. With a line feed the lexer reads on; with a Windows line
end the literal is cut there, and what is left of it is read as code
(`escaped_line_end_cuts_literal`).

* `Lexer.measure_crlf`: what begins at a character, in both texts.
* `Lexer.tokens_crlf`: so the tokens are the same up to the first literal that goes over a line end.
-/

namespace CudaToHip

namespace Token

def isQuote (c : Char) : Bool := c = '"' || c = '\''

/-- The characters in front of the first quote: of a literal the letters that introduce it. -/
def letters (t : Token) : List Char := t.text.toList.takeWhile (!isQuote ·)

/-- A string or character literal that is no raw string. -/
def IsQuoted (t : Token) : Prop :=
  (t.kind = .string ∨ t.kind = .char) ∧ t.letters ∉ Lexer.rawMarks

/-- The token ends with its closing quote. -/
def IsClosed (t : Token) : Prop :=
  (match t.text.toList.drop t.letters.length with
    | quote :: body => Lexer.closes quote body
    | [] => false) = true

/-- A quoted literal that goes over a line end. -/
def IsBroken (t : Token) : Prop := t.IsQuoted ∧ '\n' ∈ t.text.toList

instance : DecidablePred IsQuoted := fun _ => inferInstanceAs (Decidable (_ ∧ _))

instance : DecidablePred IsClosed := fun _ => inferInstanceAs (Decidable (_ = true))

instance : DecidablePred IsBroken := fun _ => inferInstanceAs (Decidable (_ ∧ _))

end Token

/-- The second tokens are the first ones with Windows line ends: they have the same kinds, and the
same texts when their line ends are line feeds again. -/
def SameUpToLineEnds (ts ts' : List Token) : Prop :=
  ts'.map (fun t => (t.kind, Text.lf t.text.toList)) = ts.map fun t => (t.kind, t.text.toList)

instance (ts ts' : List Token) : Decidable (SameUpToLineEnds ts ts') :=
  inferInstanceAs (Decidable (_ = _))

theorem SameUpToLineEnds.append_iff {first first' rest rest' : List Token}
    (h : SameUpToLineEnds first first') :
    SameUpToLineEnds (first ++ rest) (first' ++ rest') ↔ SameUpToLineEnds rest rest' := by
  unfold SameUpToLineEnds at h ⊢
  rw [List.map_append, List.map_append, h, List.append_right_inj]

namespace Lexer

open Text Token

variable {quote c : Char} {cs word front body : List Char} {kind : TokenKind} {m m' : Measure}
  {n n' : Nat} {t : Token}

/-! ## What begins at a character -/

/-- The token is the one that begins at the character `c`, which `cs` follows. -/
def Measure.Gives (m : Measure) (c : Char) (cs : List Char) (t : Token) : Prop :=
  m.kind? = some t.kind ∧ t.text.toList = c :: cs.take m.further

/-- What begins at the character `c` in a text and in the text with Windows line ends, of which
`cs` and `crlf cs` are the rest. -/
inductive ReadAlike (c : Char) (cs : List Char) : Measure → Measure → Prop
  /-- The same, line ends apart. -/
  | kept {m m' : Measure} : m'.kind? = m.kind? → m'.further = crlfLength cs m.further →
      (∀ t, m.Gives c cs t → ¬ t.IsBroken) → ReadAlike c cs m m'
  /-- A comment, to which the carriage return of its line belongs. -/
  | line {us ws : List Char} : cs = us ++ '\n' :: ws → '\n' ∉ us →
      ReadAlike c cs ⟨none, us.length⟩ ⟨none, us.length + 1⟩
  /-- A literal that goes over a line end, and with Windows line ends does not. -/
  | broken {m m' : Measure} {t : Token} : m.Gives c cs t → t.IsBroken → m'.kind?.isSome →
      '\n' ∉ (crlf cs).take m'.further → ReadAlike c cs m m'

theorem readAlike_skipped (hn : n' = crlfLength cs n) : ReadAlike c cs ⟨none, n⟩ ⟨none, n'⟩ :=
  .kept rfl hn fun _ ht => nomatch ht.1

theorem readAlike_of_kind (hstring : kind ≠ .string) (hchar : kind ≠ .char)
    (hn : n' = crlfLength cs n) : ReadAlike c cs ⟨some kind, n⟩ ⟨some kind, n'⟩ := by
  refine .kept rfl hn ?_
  rintro t ⟨hkind, -⟩ ht
  obtain rfl := Option.some.inj hkind
  exact ht.1.1.elim hstring hchar

/-- A comment up to the end of its line. -/
theorem readAlike_line (c : Char) (cs : List Char) :
    ReadAlike c cs ⟨none, (cs.takeWhile (· ≠ '\n')).length⟩
      ⟨none, ((crlf cs).takeWhile (· ≠ '\n')).length⟩ := by
  obtain ⟨us, vs, rfl, hus, hvs⟩ := exists_divided (· ≠ '\n') cs
  have hline : '\n' ∉ us := fun h => by simpa using hus _ h
  rw [crlf_append_of_not_mem hline, takeWhile_append_stop hus hvs]
  cases vs with
  | nil =>
    rw [crlf_nil, takeWhile_append_stop hus rfl]
    exact readAlike_skipped (crlfLength_front hline []).symm
  | cons d ws =>
    obtain rfl : d = '\n' := by simpa using hvs
    have hus' : ∀ x ∈ us ++ ['\r'], decide (x ≠ '\n') = true := by
      intro x hx
      rcases List.mem_append.mp hx with hx | hx
      · exact hus x hx
      · rw [List.mem_singleton.mp hx]
        decide
    have hcut : us ++ '\r' :: '\n' :: crlf ws = (us ++ ['\r']) ++ '\n' :: crlf ws := by simp
    rw [crlf_line, hcut, takeWhile_append_stop hus' (by simp), List.length_append]
    exact .line rfl hline

/-! ## Literals

Of a literal the letters `word` and the opening quote come first, then its body. Behind its first
character `c` the body begins after `front`. -/

section Literals

variable (hfront : c :: front = word ++ [quote]) (hword : ∀ x ∈ word, continuesName x = true)
  (hquote : isQuote quote = true)

include hfront in
theorem take_front (body : List Char) (n : Nat) :
    c :: (front ++ body).take (front.length + n) = word ++ quote :: body.take n := by
  rw [List.take_length_add_append, ← List.cons_append, hfront, List.append_assoc,
    List.singleton_append]

include hword hquote in
theorem letters_of_text (ht : t.text.toList = word ++ quote :: body) : t.letters = word := by
  have hnotquote : ∀ x ∈ word, (!isQuote x) = true := fun x hx => by
    have hdouble := ne_of_test (hword x hx) (x := '"') (by decide)
    have hsingle := ne_of_test (hword x hx) (x := '\'') (by decide)
    simp [isQuote, hdouble, hsingle]
  rw [letters, ht]
  exact takeWhile_append_stop hnotquote (by simp [hquote])

include hfront hword hquote

theorem not_mem_front : '\n' ∉ c :: front := by
  rw [hfront, List.mem_append, List.mem_singleton, not_or]
  exact ⟨fun h => ne_of_test (hword _ h) (by decide) rfl, (ne_of_test hquote (by decide)).symm⟩

/-- A raw string is read alike, however many lines it goes over. -/
theorem readAlike_raw (hmark : word ∈ rawMarks) (hbody : '\r' ∉ body) :
    ReadAlike c (front ++ body) ⟨some .string, front.length + rawLength body⟩
      ⟨some .string, front.length + rawLength (crlf body)⟩ := by
  have hline := not_mem_front hfront hword hquote
  have hbehind : '\n' ∉ front := fun h => hline (List.mem_cons_of_mem c h)
  refine .kept rfl ?_ ?_
  · dsimp only
    rw [rawLength_crlf hbody, crlfLength_append_of_not_mem hbehind]
  · rintro t ⟨-, htext⟩ ⟨⟨-, hletters⟩, -⟩
    rw [letters_of_text hword hquote (htext.trans (take_front hfront _ _))] at hletters
    exact hletters hmark

/-- Another literal is read alike if it stays on one line. -/
theorem readAlike_quoted (hmark : word ∉ rawMarks) (hkind : kind = .string ∨ kind = .char)
    (hclosed : ∀ t, Measure.Gives ⟨some kind, front.length + quotedLength quote body⟩ c
      (front ++ body) t → t.IsQuoted → t.IsClosed) :
    ReadAlike c (front ++ body) ⟨some kind, front.length + quotedLength quote body⟩
      ⟨some kind, front.length + quotedLength quote (crlf body)⟩ := by
  have hline := not_mem_front hfront hword hquote
  have hbehind : '\n' ∉ front := fun h => hline (List.mem_cons_of_mem c h)
  let t : Token := ⟨kind, 0, String.ofList (word ++ quote :: body.take (quotedLength quote body))⟩
  have htext : t.text.toList = word ++ quote :: body.take (quotedLength quote body) :=
    String.toList_ofList ..
  have hgives : Measure.Gives ⟨some kind, front.length + quotedLength quote body⟩ c
      (front ++ body) t := ⟨rfl, htext.trans (take_front hfront _ _).symm⟩
  have hletters : t.letters = word := letters_of_text hword hquote htext
  have hquoted : t.IsQuoted := ⟨hkind, by rwa [hletters]⟩
  by_cases hbody : '\n' ∈ body.take (quotedLength quote body)
  · refine .broken hgives ⟨hquoted, ?_⟩ rfl ?_
    · rw [htext]
      exact List.mem_append_right _ (List.mem_cons_of_mem _ hbody)
    · rw [crlf_append_of_not_mem hbehind, List.take_length_add_append, List.mem_append, not_or]
      exact ⟨hbehind, not_mem_take_quotedLength_crlf quote body⟩
  · have hcloses : closes quote (body.take (quotedLength quote body)) = true := by
      have h := hclosed t hgives hquoted
      rwa [Token.IsClosed, hletters, htext, List.drop_left] at h
    refine .kept rfl ?_ ?_
    · dsimp only
      rw [quotedLength_crlf hcloses hbody, crlfLength_append_of_not_mem hbehind]
    · rintro t' ⟨-, htext'⟩ ⟨-, hbroken⟩
      dsimp only at htext'
      rw [htext', List.take_length_add_append, ← List.cons_append, List.mem_append] at hbroken
      exact hbroken.elim hline hbody

end Literals

/-- A literal without letters. -/
theorem readAlike_bare (hquote : isQuote quote = true) (hkind : kind = .string ∨ kind = .char)
    (hclosed : ∀ t, Measure.Gives ⟨some kind, quotedLength quote cs⟩ quote cs t → t.IsQuoted →
      t.IsClosed) :
    ReadAlike quote cs ⟨some kind, quotedLength quote cs⟩
      ⟨some kind, quotedLength quote (crlf cs)⟩ := by
  have hfront : quote :: [] = [] ++ [quote] := rfl
  have hlen (ds : List Char) : quotedLength quote ds =
      ([] : List Char).length + quotedLength quote ds := (Nat.zero_add _).symm
  rw [hlen cs] at hclosed
  rw [hlen cs, hlen (crlf cs)]
  exact readAlike_quoted hfront nofun hquote (by decide) hkind hclosed

/-- A name, or the literal that its letters introduce. -/
theorem measureName_crlf (hc : continuesName c = true) (hcs : '\r' ∉ cs)
    (hclosed : ∀ t, (measureName none c cs).Gives c cs t → t.IsQuoted → t.IsClosed) :
    ReadAlike c cs (measureName none c cs) (measureName none c (crlf cs)) := by
  obtain ⟨tail, rest, rfl, htail, hrest⟩ := exists_divided continuesName cs
  have hline : '\n' ∉ tail := fun h => ne_of_test (htail _ h) (by decide) rfl
  have hrest' : (crlf rest).head?.any continuesName = false := by
    rw [any_head?_crlf (by decide), hrest]
  rw [measureName_append none htail hrest] at hclosed ⊢
  rw [crlf_append_of_not_mem hline, measureName_append none htail hrest', literal?_crlf]
  cases hliteral : literal? (c :: tail) (next? none rest) with
  | none => exact readAlike_of_kind nofun nofun (crlfLength_front hline rest).symm
  | some literal =>
    obtain ⟨kind, len⟩ := literal
    obtain ⟨quote, hnext, hquote⟩ : ∃ quote, next? none rest = some quote ∧
        isQuote quote = true := by
      rcases literal?_cases hliteral with ⟨hnext, -⟩ | ⟨quote, hnext, ⟨rfl, -⟩ | ⟨rfl, -⟩, -⟩
      · exact ⟨'"', hnext, rfl⟩
      · exact ⟨'"', hnext, rfl⟩
      · exact ⟨'\'', hnext, rfl⟩
    obtain ⟨body, rfl⟩ := exists_cons_of_next? hnext
    have hfront : c :: (tail ++ [quote]) = (c :: tail) ++ [quote] := rfl
    have hword : ∀ x ∈ c :: tail, continuesName x = true := List.forall_mem_cons.mpr ⟨hc, htail⟩
    have hlen (n : Nat) : tail.length + 1 + n = (tail ++ [quote]).length + n := by simp
    have hcut : tail ++ quote :: body = (tail ++ [quote]) ++ body := by simp
    rw [hliteral] at hclosed
    simp only [crlf_cons (ne_of_test hquote (x := '\n') (by decide)), List.drop_succ_cons,
      List.drop_zero, hlen, hcut] at hclosed ⊢
    rcases literal?_cases hliteral with ⟨-, hmark, rfl, rfl⟩ | ⟨quote', hnext', hkind, hmark, rfl⟩
    · refine readAlike_raw hfront hword hquote hmark fun h => hcs ?_
      exact List.mem_append_right _ (List.mem_cons_of_mem _ h)
    · obtain rfl := Option.some.inj (hnext'.symm.trans hnext)
      have hencodings : ∀ w ∈ encodings, w ∉ rawMarks := by decide
      exact readAlike_quoted hfront hword hquote (hencodings _ hmark)
        (hkind.imp And.right And.right) hclosed

/-- **What begins at a character** with Windows line ends. -/
theorem measure_crlf (hcs : '\r' ∉ c :: cs) (hc : c ≠ '\n')
    (hclosed : ∀ t, (Lexer.measure none c cs).Gives c cs t → t.IsQuoted → t.IsClosed) :
    ReadAlike c cs (Lexer.measure none c cs) (Lexer.measure none c (crlf cs)) := by
  -- both texts pass the tests that decide what begins here
  have hslash := next?_crlf (x := '/') (by decide) (by decide) cs
  have hstar := next?_crlf (x := '*') (by decide) (by decide) cs
  have hbreak := next?_crlf_line cs
  have hdigit : (next? none (crlf cs)).any Char.isDigit = (next? none cs).any Char.isDigit := by
    rw [next?_none, next?_none, any_head?_crlf rfl]
  have hback : '\r' ∉ cs := fun h => hcs (List.mem_cons_of_mem c h)
  unfold Lexer.measure at hclosed ⊢
  simp only [hslash, hstar, hdigit, hbreak] at hclosed ⊢
  split_ifs at hclosed ⊢ with hblank hcomment hblock hstring hchar hname hnumber
  · exact readAlike_skipped (crlfLength_zero cs).symm
  · exact readAlike_line c cs
  · obtain ⟨body, rfl⟩ : ∃ body, cs = '*' :: body := by
      simp only [Bool.and_eq_true, decide_eq_true_eq] at hblock
      exact exists_cons_of_next? hblock.2
    refine readAlike_skipped ?_
    rw [crlf_cons (by decide), List.drop_one, List.tail_cons, List.drop_one, List.tail_cons,
      blockCommentLength_crlf, crlfLength_cons (by decide)]
  · obtain rfl : c = '"' := by simpa using hstring
    exact readAlike_bare rfl (Or.inl rfl) hclosed
  · obtain rfl : c = '\'' := by simpa using hchar
    exact readAlike_bare rfl (Or.inr rfl) hclosed
  · exact measureName_crlf (continuesName_of_startsName hname) hback hclosed
  · exact readAlike_of_kind nofun nofun (numberLength_crlf c cs)
  · exact readAlike_of_kind nofun nofun (punctFurther_crlf hcs hc)

/-! ## Tokens -/

variable {rest rest' : List Token}

/-- The token that begins at the character `c`, if it is not something to skip. -/
def Measure.first (m : Measure) (pos : Nat) (c : Char) (cs : List Char) : List Token :=
  (m.kind?.map (⟨·, pos, String.ofList (c :: cs.take m.further)⟩)).toList

theorem tokens_eq_first {after : Option Char} (hm : Lexer.measure after c cs = m) (pos : Nat) :
    tokens after pos (c :: cs) = m.first pos c cs ++
      tokens after (pos + byteLength (c :: cs.take m.further)) (cs.drop m.further) :=
  tokens_cons hm pos

theorem gives_of_mem_first {pos : Nat} (h : t ∈ m.first pos c cs) : m.Gives c cs t := by
  obtain ⟨kind, hkind, rfl⟩ := Option.map_eq_some_iff.mp (Option.mem_toList.mp h)
  exact ⟨hkind, String.toList_ofList⟩

theorem Measure.Gives.first_eq (h : m.Gives c cs t) (pos : Nat) :
    m.first pos c cs = [{ t with start := pos }] := by
  obtain ⟨hkind, htext⟩ := h
  rw [Measure.first, hkind, ← htext, String.ofList_toList]
  rfl

theorem Measure.Gives.mem_first (h : m.Gives c cs t) (pos : Nat) :
    { t with start := pos } ∈ m.first pos c cs := by
  rw [h.first_eq]
  exact List.mem_singleton.mpr rfl

/-- What is kept is the same token, line ends apart. -/
theorem same_first (hcs : '\r' ∉ c :: cs) (hc : c ≠ '\n') (hkind : m'.kind? = m.kind?)
    (hfurther : m'.further = crlfLength cs m.further) (pos pos' : Nat) :
    SameUpToLineEnds (m.first pos c cs) (m'.first pos' c (crlf cs)) := by
  have hfirst : '\r' ∉ c :: cs.take m.further := by
    rw [List.mem_cons, not_or] at hcs ⊢
    exact ⟨hcs.1, fun h => hcs.2 (List.mem_of_mem_take h)⟩
  unfold Measure.first SameUpToLineEnds
  rw [hkind, hfurther, take_crlfLength, ← crlf_cons hc]
  cases m.kind? with
  | none => rfl
  | some kind =>
    simp only [Option.map_some, Option.toList_some, List.map_singleton, String.toList_ofList,
      lf_crlf hfirst]

/-- A literal that goes over a line end is another token without it. -/
theorem not_same_of_isBroken (hgives : m.Gives c cs t) (hbroken : t.IsBroken) (hc : c ≠ '\n')
    (hsome : m'.kind?.isSome) {ds : List Char} (hline : '\n' ∉ ds.take m'.further)
    (pos pos' : Nat) :
    ¬ SameUpToLineEnds (m.first pos c cs ++ rest) (m'.first pos' c ds ++ rest') := by
  obtain ⟨kind, hkind⟩ := Option.isSome_iff_exists.mp hsome
  have hline' : '\n' ∉ c :: ds.take m'.further := by
    rw [List.mem_cons, not_or]
    exact ⟨hc.symm, hline⟩
  have hgives' : m'.Gives c ds ⟨kind, pos', String.ofList (c :: ds.take m'.further)⟩ :=
    ⟨hkind, String.toList_ofList⟩
  intro h
  rw [SameUpToLineEnds, hgives.first_eq, hgives'.first_eq] at h
  have htext := congrArg Prod.snd (List.cons.inj h).1
  simp only [String.toList_ofList, lf_of_not_mem hline'] at htext
  exact hline' (htext ▸ hbroken.2)

theorem tokens_blank {after : Option Char} (hc : isBlank c = true) (pos : Nat) (cs : List Char) :
    tokens after pos (c :: cs) = tokens after (pos + byteLength [c]) cs := by
  have hm : Lexer.measure after c cs = ⟨none, 0⟩ := by
    rw [Lexer.measure, hc]
    rfl
  rw [tokens_cons hm]
  rfl

/-- Wherever the text stands, its tokens are the same with Windows line ends exactly if none of them
is a quoted literal that goes over a line end. -/
def KeepsUnbroken (cs : List Char) : Prop :=
  ∀ pos pos' : Nat, (∀ t ∈ tokens none pos cs, t.IsQuoted → t.IsClosed) →
    (SameUpToLineEnds (tokens none pos cs) (tokens none pos' (crlf cs)) ↔
      ∀ t ∈ tokens none pos cs, ¬ t.IsBroken)

namespace KeepsUnbroken

theorem line (h : KeepsUnbroken cs) : KeepsUnbroken ('\n' :: cs) := by
  intro pos pos' hclosed
  rw [tokens_blank rfl] at hclosed
  rw [crlf_line, tokens_blank rfl, tokens_blank rfl, tokens_blank rfl]
  exact h _ _ hclosed

/-- What begins at a character, in front of a rest that is read as it should be. -/
theorem cons (hcs : '\r' ∉ c :: cs) (hc : c ≠ '\n') (hrest : ∀ ds, ds <:+ cs → KeepsUnbroken ds) :
    KeepsUnbroken (c :: cs) := by
  intro pos pos' hclosed
  obtain ⟨m, hm⟩ : ∃ m, Lexer.measure none c cs = m := ⟨_, rfl⟩
  obtain ⟨m', hm'⟩ : ∃ m', Lexer.measure none c (crlf cs) = m' := ⟨_, rfl⟩
  have hread := measure_crlf hcs hc
  rw [hm, hm'] at hread
  rw [tokens_eq_first hm, List.forall_mem_append] at hclosed
  obtain ⟨hfirst, hbehind⟩ := hclosed
  rw [crlf_cons hc, tokens_eq_first hm, tokens_eq_first hm', List.forall_mem_append]
  cases hread fun t ht => hfirst { t with start := pos } (ht.mem_first pos) with
  | kept hkind hfurther hunbroken =>
    have hsame := same_first hcs hc hkind hfurther pos pos'
    rw [hsame.append_iff, hfurther, drop_crlfLength, hrest _ (List.drop_suffix _ _) _ _ hbehind]
    exact (and_iff_right fun t ht => hunbroken t (gives_of_mem_first ht)).symm
  | @line us ws hcut hline =>
    -- the comment leaves the line feed, and only that, in both texts
    have hdrop : cs.drop us.length = '\n' :: ws := by rw [hcut, List.drop_left]
    have hdrop' : (crlf cs).drop (us.length + 1) = '\n' :: crlf ws := by
      rw [hcut, crlf_append_of_not_mem hline, crlf_line, List.drop_length_add_append]
      rfl
    have hws : ws <:+ cs := ⟨us ++ ['\n'], by rw [hcut, List.append_assoc]; rfl⟩
    rw [hdrop, tokens_blank rfl] at hbehind
    rw [hdrop, hdrop', tokens_blank rfl, tokens_blank rfl]
    have hnone (t : Token) (ht : t ∈ Measure.first ⟨none, us.length⟩ pos c cs) : ¬ t.IsBroken :=
      absurd ht List.not_mem_nil
    exact (hrest ws hws _ _ hbehind).trans (and_iff_right hnone).symm
  | broken ht hbroken hsome hline =>
    exact iff_of_false (not_same_of_isBroken ht hbroken hc hsome hline pos pos')
      fun h => h.1 _ (ht.mem_first pos) hbroken

end KeepsUnbroken

/-- **Tokens with Windows line ends** are the same exactly if no quoted literal goes over a line
end. -/
theorem tokens_crlf (hcs : '\r' ∉ cs) : KeepsUnbroken cs := by
  induction hn : cs.length using Nat.strongRecOn generalizing cs with
  | ind k ih =>
    cases cs with
    | nil =>
      intro pos pos' _
      rw [crlf_nil, tokens, tokens]
      exact iff_of_true rfl fun _ h => absurd h List.not_mem_nil
    | cons c cs =>
      have hrest (ds : List Char) (hds : ds <:+ cs) : KeepsUnbroken ds := by
        have hlen := hds.length_le
        refine ih ds.length ?_ (fun h => hcs (List.mem_cons_of_mem c (hds.subset h))) rfl
        rw [← hn, List.length_cons]
        omega
      by_cases hc : c = '\n'
      · rw [hc]
        exact (hrest cs (List.suffix_refl cs)).line
      · exact .cons hcs hc hrest

end Lexer

open Text

variable {source : String}

/-- **Windows line ends change what is read** exactly if a literal goes over a line end that is no
raw string. Raw strings need not be closed, all other literals are. -/
theorem crlf_keeps_tokens_iff (hreturn : '\r' ∉ source.toList)
    (hclosed : ∀ t ∈ tokenize source, t.IsQuoted → t.IsClosed) :
    SameUpToLineEnds (tokenize source) (tokenize (String.ofList (crlf source.toList))) ↔
      ∀ t ∈ tokenize source, ¬ t.IsBroken := by
  rw [tokenize, tokenize, String.toList_ofList]
  exact Lexer.tokens_crlf hreturn 0 0 hclosed

/-- Line ends in comments, in a raw string and its delimiter, and behind a backslash. -/
theorem crlf_keeps_tokens_crowded :
    let source := "/* a\n */ x = u8\"q\\\"\" // c\n+ R\"d\n(\n)d\n\" \\\n'\\\\' 1e+5 <<< é"
    '\r' ∉ source.toList ∧ (∀ t ∈ tokenize source, t.IsQuoted → t.IsClosed) ∧
    (tokenize (String.ofList (crlf source.toList))).map (fun t => (t.kind, lf t.text.toList)) =
      [(.identifier, "x"), (.punct, "="), (.string, "u8\"q\\\"\""), (.punct, "+"),
        (.string, "R\"d\n(\n)d\n\""), (.char, "'\\\\'"), (.number, "1e+5"), (.punct, "<<<"),
        (.identifier, "é")].map (Prod.map id String.toList) := by
  intro source
  have hreturn : '\r' ∉ source.toList := by decide +kernel
  have hclosed : ∀ t ∈ tokenize source, t.IsQuoted → t.IsClosed := by decide +kernel
  refine ⟨hreturn, hclosed, ?_⟩
  have hsame := (crlf_keeps_tokens_iff hreturn hclosed).mpr (by decide +kernel)
  exact hsame.trans (by decide +kernel)

/-- **An escaped line end cuts its literal** if it is a Windows line end: the backslash takes the
carriage return, the line feed ends the literal, and its rest is read as code. -/
theorem escaped_line_end_cuts_literal :
    let source := "x = \"a\\\nb\";\n"
    '\r' ∉ source.toList ∧ (∀ t ∈ tokenize source, t.IsQuoted → t.IsClosed) ∧
    tokenize source =
      [⟨.identifier, 0, "x"⟩, ⟨.punct, 2, "="⟩, ⟨.string, 4, "\"a\\\nb\""⟩, ⟨.punct, 10, ";"⟩] ∧
    tokenize (String.ofList (crlf source.toList)) =
      [⟨.identifier, 0, "x"⟩, ⟨.punct, 2, "="⟩, ⟨.string, 4, "\"a\\\r"⟩, ⟨.identifier, 9, "b"⟩,
        ⟨.string, 10, "\";\r"⟩] ∧
    ¬ SameUpToLineEnds (tokenize source) (tokenize (String.ofList (crlf source.toList))) := by
  decide +kernel

end CudaToHip
