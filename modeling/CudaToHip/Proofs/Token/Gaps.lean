import CudaToHip.Proofs.Token.CursorTokens

/-!
# What no token takes

A text divides into its tokens and what stands between them (`Spaced`). What the lexer passes over
is made of blanks, comments, and backslashes in front of a line break (`Skipped`), and no token
begins with a blank, so a comment up to the end of a line and a backslash in front of it are always
followed by that end within the same gap.

* `Skipped.front`: the lexer never passes over anything else.
* `Spaced.exists_of_gap`: a piece of the text that no token takes, and that cannot be made longer,
  is one of the pieces between tokens.
* `tokenize_loses_nothing`: reading ends on every text, and all but such pieces is in tokens.
-/

namespace CudaToHip

open Lexer Text

variable {atEnd : Prop} {c : Char} {cs ds gap : List Char} {pos start stop : Nat} {t : Token}
variable {ts : List Token} {source : String}

/-- What stands between tokens. `atEnd` says that the text ends behind it: only there may the end
of a comment be missing. -/
inductive Skipped (atEnd : Prop) : List Char → Prop
  | nil : Skipped atEnd []
  | blank {c : Char} {cs : List Char} : Lexer.isBlank c = true → Skipped atEnd cs →
      Skipped atEnd (c :: cs)
  /-- A backslash in front of a line break. -/
  | splice {x : Char} {cs : List Char} : x = '\n' ∨ x = '\r' → Skipped atEnd (x :: cs) →
      Skipped atEnd ('\\' :: x :: cs)
  /-- A comment up to the end of the line. -/
  | lineComment {body cs : List Char} : '\n' ∉ body →
      cs.head? = some '\n' ∨ cs = [] ∧ atEnd → Skipped atEnd cs →
      Skipped atEnd ('/' :: '/' :: (body ++ cs))
  /-- A comment up to the first end mark. -/
  | blockComment {body cs : List Char} : ¬ ['*', '/'] <:+: body → Skipped atEnd cs →
      Skipped atEnd ('/' :: '*' :: (body ++ '*' :: '/' :: cs))
  /-- A comment with no end mark. -/
  | openComment {body : List Char} : ¬ ['*', '/'] <:+: body → atEnd →
      Skipped atEnd ('/' :: '*' :: body)

/-- The characters from byte `pos` on are the given tokens, with what is skipped in front of each
and behind the last. -/
inductive Spaced : Nat → List Char → List Token → Prop
  | last {pos : Nat} {gap : List Char} : Skipped True gap → Spaced pos gap []
  | token {pos start : Nat} {gap text cs : List Char} {c : Char} {ts : List Token}
      (kind : TokenKind) : Skipped False gap → start = pos + byteLength gap →
      Lexer.isBlank c = false → Spaced (start + byteLength (c :: text)) cs ts →
      Spaced pos (gap ++ (c :: text ++ cs)) (⟨kind, start, String.ofList (c :: text)⟩ :: ts)

/-- A maximal piece of the text that no token takes. -/
structure Gap (source : String) (ts : List Token) (start stop : Nat) : Prop where
  nonempty : start < stop
  inside : stop ≤ source.utf8ByteSize
  free : ∀ i, start ≤ i → i < stop → ∀ t ∈ ts, ¬ t.span.Takes i
  left : start = 0 ∨ ∃ t ∈ ts, t.span.Takes (start - 1)
  right : stop = source.utf8ByteSize ∨ ∃ t ∈ ts, t.span.Takes stop

/-- How a text is read: byte by byte, in steps that move on, with no look or cut out of range or
inside a character. The tokens are pieces of the text in order, and nothing but blanks and comments
is in none of them. -/
structure Tokenized (source : String) (ts : List Token) : Prop where
  read : Cursor.read? source = some ts
  nonempty : ∀ t ∈ ts, t.span.start < t.span.stop
  text : ∀ t ∈ ts, t.span.text? source = some t.text
  ordered : ts.Pairwise fun a b => a.span.stop ≤ b.span.start
  gaps : ∀ start stop, Gap source ts start stop →
    ∃ piece, slice? source start stop = some piece ∧
      Skipped (stop = source.utf8ByteSize) piece.toList

/-! ## What the lexer passes over -/

/-- A block comment goes to the first end mark, or takes everything. -/
theorem blockCommentLength_cases (cs : List Char) :
    (∃ body rest, cs = body ++ '*' :: '/' :: rest ∧ ¬ ['*', '/'] <:+: body ∧
      blockCommentLength none cs = body.length + 2) ∨
    ¬ ['*', '/'] <:+: cs ∧ blockCommentLength none cs = cs.length := by
  induction cs with
  | nil => exact Or.inr ⟨by decide, rfl⟩
  | cons c cs ih =>
    by_cases hend : c = '*' ∧ next? none cs = some '/'
    · obtain ⟨rfl, hnext⟩ := hend
      obtain ⟨rest, rfl⟩ := exists_cons_of_next? hnext
      exact Or.inl ⟨[], rest, rfl, by decide, if_pos ⟨rfl, hnext⟩⟩
    · -- no mark begins at this character, whether the body ends behind it or later
      have hcons {ds : List Char} (hds : ds <+: cs) (hnone : ¬ ['*', '/'] <:+: ds) :
          ¬ ['*', '/'] <:+: c :: ds := by
        rw [List.infix_cons_iff]
        rintro (hfront | hlater)
        · obtain ⟨es, hes⟩ := hfront
          obtain ⟨rfl, rfl⟩ := List.cons.inj hes
          obtain ⟨fs, rfl⟩ := hds
          exact hend ⟨rfl, rfl⟩
        · exact hnone hlater
      rw [blockCommentLength, if_neg hend]
      rcases ih with ⟨body, rest, rfl, hnone, hlen⟩ | ⟨hnone, hlen⟩
      · refine Or.inl ⟨c :: body, rest, rfl, hcons ⟨_, rfl⟩ hnone, ?_⟩
        rw [hlen, List.length_cons]
        omega
      · refine Or.inr ⟨hcons List.prefix_rfl hnone, ?_⟩
        rw [hlen, List.length_cons, Nat.add_comm]

theorem measureName_kind? (after : Option Char) (c : Char) (cs : List Char) :
    ∃ kind, (measureName after c cs).kind? = some kind := by
  obtain ⟨tail, rest, rfl, htail, hrest⟩ := exists_divided continuesName cs
  rw [measureName_append after htail hrest]
  cases literal? (c :: tail) (next? after rest) with
  | none => exact ⟨_, rfl⟩
  | some literal => exact ⟨_, rfl⟩

/-- No token begins with a blank. -/
theorem isBlank_of_kind? {kind : TokenKind} (h : (measure none c cs).kind? = some kind) :
    Lexer.isBlank c = false := by
  by_contra hblank
  rw [Bool.not_eq_false] at hblank
  rw [Lexer.measure, if_pos (by rw [hblank]; rfl)] at h
  cases h

/-- What is skipped in front of a text that does not begin with a blank. -/
theorem exists_cons_of_skipped {x : Char} (hds : ds.head?.any Lexer.isBlank = false)
    (hx : Lexer.isBlank x = true) (h : (gap ++ ds).head? = some x) : ∃ gap', gap = x :: gap' := by
  cases gap with
  | nil =>
    rw [List.nil_append] at h
    rw [h, Option.any_some, hx] at hds
    cases hds
  | cons y gap =>
    obtain rfl := Option.some.inj h
    exact ⟨gap, rfl⟩

namespace Skipped

variable {es : List Char}

/-- A backslash is skipped together with the line break behind it. -/
theorem front_splice {x : Char} (h : Skipped (ds = []) gap)
    (hds : ds.head?.any Lexer.isBlank = false) (hx : x = '\n' ∨ x = '\r')
    (hnext : (gap ++ ds).head? = some x) : Skipped (ds = []) ('\\' :: gap) := by
  have hbreak : Lexer.isBlank x = true := by
    rcases hx with rfl | rfl <;> rfl
  obtain ⟨gap', rfl⟩ := exists_cons_of_skipped hds hbreak hnext
  exact .splice hx h

/-- Behind a comment up to the end of the line comes that end, or the text ends. -/
theorem front_line (h : Skipped (ds = []) gap) (hds : ds.head?.any Lexer.isBlank = false)
    (hes : es.drop (es.takeWhile (· ≠ '\n')).length = gap ++ ds) :
    Skipped (ds = []) ('/' :: '/' :: (es.take (es.takeWhile (· ≠ '\n')).length ++ gap)) := by
  obtain ⟨body, rest, rfl, hbody, hrest⟩ := exists_divided (· ≠ '\n') es
  have htake : (body ++ rest).takeWhile (· ≠ '\n') = body := takeWhile_append_stop hbody hrest
  rw [htake, List.drop_left] at hes
  rw [htake, List.take_left]
  refine .lineComment (fun hmem => ?_) ?_ h
  · simpa using hbody _ hmem
  · cases rest with
    | nil => exact Or.inr (List.append_eq_nil_iff.mp hes.symm)
    | cons d rest =>
      obtain rfl : d = '\n' := by simpa using hrest
      obtain ⟨gap', rfl⟩ := exists_cons_of_skipped hds (x := '\n') rfl (by rw [← hes]; rfl)
      exact Or.inl rfl

/-- A block comment with no end mark takes the rest of the text. -/
theorem front_block (h : Skipped (ds = []) gap)
    (hes : es.drop (blockCommentLength none es) = gap ++ ds) :
    Skipped (ds = []) ('/' :: '*' :: (es.take (blockCommentLength none es) ++ gap)) := by
  rcases blockCommentLength_cases es with ⟨body, rest, rfl, hnone, hlen⟩ | ⟨hnone, hlen⟩
  · have hdiv : body ++ '*' :: '/' :: rest = (body ++ ['*', '/']) ++ rest := by simp
    have hlen' : body.length + 2 = (body ++ ['*', '/']).length := by simp
    rw [hlen, hdiv, hlen', List.take_left]
    simpa using Skipped.blockComment hnone h
  · rw [hlen, List.drop_length] at hes
    obtain ⟨rfl, rfl⟩ := List.append_eq_nil_iff.mp hes.symm
    rw [hlen, List.take_length, List.append_nil]
    exact .openComment hnone rfl

/-- **What the lexer passes over is skipped text**, in front of skipped text. -/
theorem front (hkind : (measure none c cs).kind? = none) (h : Skipped (ds = []) gap)
    (hcs : cs.drop (measure none c cs).further = gap ++ ds)
    (hds : ds.head?.any Lexer.isBlank = false) :
    Skipped (ds = []) (c :: (cs.take (measure none c cs).further ++ gap)) := by
  rw [Lexer.measure] at hkind hcs ⊢
  split_ifs at hkind hcs ⊢ with hblank hline hblock hname
  · rw [List.drop_zero] at hcs
    rw [List.take_zero, List.nil_append]
    rcases Bool.or_eq_true _ _ ▸ hblank with hblank | hsplice
    · exact .blank hblank h
    · obtain ⟨hc, hnext⟩ := Bool.and_eq_true _ _ ▸ hsplice
      obtain rfl := of_decide_eq_true hc
      rw [next?_none, hcs] at hnext
      rcases Bool.or_eq_true _ _ ▸ hnext with hnext | hnext
      · exact front_splice h hds (Or.inl rfl) (of_decide_eq_true hnext)
      · exact front_splice h hds (Or.inr rfl) (of_decide_eq_true hnext)
  · obtain ⟨hc, hnext⟩ := Bool.and_eq_true _ _ ▸ hline
    obtain rfl := of_decide_eq_true hc
    obtain ⟨es, rfl⟩ := exists_cons_of_next? (of_decide_eq_true hnext)
    have htake : ('/' :: es).takeWhile (· ≠ '\n') = '/' :: es.takeWhile (· ≠ '\n') :=
      List.takeWhile_cons_of_pos rfl
    simp only [htake, List.length_cons, List.drop_succ_cons, List.take_succ_cons] at hcs ⊢
    exact front_line h hds hcs
  · obtain ⟨hc, hnext⟩ := Bool.and_eq_true _ _ ▸ hblock
    obtain rfl := of_decide_eq_true hc
    obtain ⟨es, rfl⟩ := exists_cons_of_next? (of_decide_eq_true hnext)
    simp only [List.drop_succ_cons, List.drop_zero, Nat.add_comm 1, List.take_succ_cons] at hcs ⊢
    exact front_block h hcs
  · obtain ⟨kind, hname⟩ := measureName_kind? none c cs
    rw [hname] at hkind
    cases hkind

end Skipped

/-! ## Tokens and what stands between them -/

theorem Skipped.mono {atEnd' : Prop} (hend : atEnd → atEnd') (h : Skipped atEnd cs) :
    Skipped atEnd' cs := by
  induction h with
  | nil => exact .nil
  | blank hc _ ih => exact .blank hc ih
  | splice hx _ ih => exact .splice hx ih
  | lineComment hbody hcs _ ih => exact .lineComment hbody (hcs.imp_right (And.imp_right hend)) ih
  | blockComment hbody _ ih => exact .blockComment hbody ih
  | openComment hbody h => exact .openComment hbody (hend h)

/-- Something passed over goes to the gap in front of the first token. -/
theorem Spaced.skip (hkind : (measure none c cs).kind? = none)
    (h : Spaced (pos + byteLength (c :: cs.take (measure none c cs).further))
      (cs.drop (measure none c cs).further) ts) : Spaced pos (c :: cs) ts := by
  have hcs := List.take_append_drop (measure none c cs).further cs
  generalize hrest : cs.drop (measure none c cs).further = rest at h hcs
  generalize hpos : pos + byteLength (c :: cs.take (measure none c cs).further) = pos' at h
  cases h with
  | last hgap =>
    have hfront := Skipped.front hkind (hgap.mono fun _ => rfl)
      (hrest.trans (List.append_nil _).symm) rfl
    rw [hcs] at hfront
    exact .last (hfront.mono fun _ => trivial)
  | @token _ _ gap text _ d _ kind hgap hstart hd htail =>
    have hfront := Skipped.front hkind (hgap.mono False.elim) hrest (by simpa using hd)
    rw [← hcs, ← List.append_assoc, ← List.cons_append]
    refine .token kind (hfront.mono nofun) ?_ hd htail
    rw [hstart, ← hpos, ← List.cons_append, byteLength_append, Nat.add_assoc]

/-- **Every text is its tokens with skipped text between them.** -/
theorem spaced_tokens (pos : Nat) (cs : List Char) : Spaced pos cs (tokens none pos cs) := by
  fun_induction tokens none pos cs with
  | case1 => exact .last .nil
  | case2 pos c cs m text rest kind hkind ih =>
    have hcs : c :: cs = [] ++ (text ++ cs.drop m.further) := by
      rw [List.nil_append, List.cons_append, List.take_append_drop]
    rw [hcs]
    exact .token kind .nil rfl (isBlank_of_kind? hkind) ih
  | case3 pos c cs m text rest hkind ih => exact .skip hkind ih

theorem Spaced.start_of_mem (h : Spaced pos cs ts) (ht : t ∈ ts) : pos ≤ t.start := by
  induction h with
  | last => cases ht
  | token kind hgap hstart hc hrest ih =>
    rcases List.mem_cons.mp ht with rfl | ht
    · exact hstart ▸ Nat.le_add_right _ _
    · have hle := ih ht
      omega

/-- A token takes the bytes of its characters. -/
theorem takes_ofList {kind : TokenKind} {i : Nat} :
    (Token.span ⟨kind, start, String.ofList cs⟩).Takes i ↔
      start ≤ i ∧ i < start + byteLength cs := by
  rw [Span.Takes, stop_ofList]
  rfl

/-- **A piece that no token takes and that cannot be made longer** is one of the pieces between
tokens. -/
theorem Spaced.exists_of_gap (h : Spaced pos cs ts) (hpos : pos ≤ start) (hlt : start < stop)
    (hfree : ∀ i, start ≤ i → i < stop → ∀ t ∈ ts, ¬ t.span.Takes i)
    (hleft : start = pos ∨ ∃ t ∈ ts, t.span.Takes (start - 1))
    (hright : stop = pos + byteLength cs ∨ ∃ t ∈ ts, t.span.Takes stop) :
    ∃ a piece b, cs = a ++ piece ++ b ∧ start = pos + byteLength a ∧
      stop = start + byteLength piece ∧ Skipped (b = []) piece := by
  induction h with
  | @last pos gap hgap =>
    obtain rfl : start = pos := hleft.resolve_right fun ⟨_, ht, _⟩ => nomatch ht
    have hstop := hright.resolve_right fun ⟨_, ht, _⟩ => nomatch ht
    exact ⟨[], gap, [], by simp, rfl, hstop, hgap.mono fun _ => rfl⟩
  | @token pos first gap text cs c ts kind hgap hfirst hc hrest ih =>
    have hfront (i : Nat) (hi : start ≤ i) (his : i < stop) :=
      takes_ofList.not.mp (hfree i hi his _ List.mem_cons_self)
    have hlater (i : Nat) (hi : start ≤ i) (his : i < stop) (t : Token) (ht : t ∈ ts) :=
      hfree i hi his t (List.mem_cons_of_mem _ ht)
    have hsize := c.utf8Size_pos
    rw [byteLength_append, byteLength_append, byteLength] at hright
    rw [byteLength] at hfront ih hrest
    simp only [List.mem_cons, exists_eq_or_imp, takes_ofList, byteLength] at hleft hright
    have hstart {t : Token} (ht : t ∈ ts) := hrest.start_of_mem ht
    by_cases hbefore : start < first
    · -- the gap in front of the token
      have hpos' : start = pos := by
        rcases hleft with h | ⟨h, -⟩ | ⟨t, ht, h, -⟩
        · exact h
        · omega
        · have := hstart ht
          have : t.span.start = t.start := rfl
          omega
      have hstop : stop = first := by
        have hle : stop ≤ first := by
          by_contra hlt'
          exact hfront first (by omega) (by omega) (by omega)
        rcases hright with h | ⟨h, -⟩ | ⟨t, ht, h, -⟩
        · omega
        · omega
        · have := hstart ht
          have : t.span.start = t.start := rfl
          omega
      exact ⟨[], gap, c :: text ++ cs, by simp, hpos', by omega, hgap.mono False.elim⟩
    · -- a gap behind the token
      have hbehind : first + (c.utf8Size + byteLength text) ≤ start := by
        have := hfront start (Nat.le_refl _) hlt
        omega
      have hleft' : start = first + (c.utf8Size + byteLength text) ∨
          ∃ t ∈ ts, t.span.Takes (start - 1) := by
        rcases hleft with h | ⟨-, h⟩ | h
        · omega
        · omega
        · exact Or.inr h
      have hright' : stop = first + (c.utf8Size + byteLength text) + byteLength cs ∨
          ∃ t ∈ ts, t.span.Takes stop := by
        rcases hright with h | ⟨-, h⟩ | h
        · omega
        · omega
        · exact Or.inr h
      obtain ⟨a, piece, b, rfl, ha, hp, hskipped⟩ := ih hbehind hlater hleft' hright'
      refine ⟨gap ++ c :: text ++ a, piece, b, by simp, ?_, hp, hskipped⟩
      rw [ha, hfirst, byteLength_append, byteLength_append, byteLength]
      omega

/-- **Reading ends on every text and loses nothing but blanks and comments.** -/
theorem tokenize_loses_nothing (source : String) : Tokenized source (tokenize source) where
  read := Cursor.read?_eq source
  nonempty t ht := start_lt_stop_of_mem_tokens ht
  text _ ht := text?_eq_of_mem_tokenize ht
  ordered := pairwise_tokens
  gaps start stop hgap := by
    have hsize : source.utf8ByteSize = 0 + byteLength source.toList := by
      rw [byteLength_toList, Nat.zero_add]
    obtain ⟨a, piece, b, hcs, ha, hp, hskipped⟩ :=
      (spaced_tokens 0 source.toList).exists_of_gap (Nat.zero_le start) hgap.nonempty hgap.free
        hgap.left (hsize ▸ hgap.right)
    rw [Nat.zero_add] at ha
    have hstop : stop = byteLength a + byteLength piece := by rw [hp, ha]
    refine ⟨String.ofList piece, by rw [hstop, ha]; exact slice?_of_toList hcs, ?_⟩
    rw [String.toList_ofList]
    refine hskipped.mono fun hb => ?_
    rw [← byteLength_toList, hcs, hb, List.append_nil, byteLength_append, hstop]

/-- The blanks and the comment of `a // b`. -/
example : Gap "a // b" (tokenize "a // b") 1 6 := by
  have h : tokenize "a // b" = [⟨.identifier, 0, "a"⟩] := by decide +kernel
  rw [h]
  exact ⟨by decide, by decide, by decide, Or.inr ⟨_, List.mem_singleton_self _, by decide⟩,
    Or.inl rfl⟩

end CudaToHip
