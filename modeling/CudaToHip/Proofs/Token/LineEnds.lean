import CudaToHip.Proofs.Text.LineEnds
import CudaToHip.Proofs.Token.Stable

/-!
# What the lexer takes with Windows line ends

Every length that the lexer reads off a text takes the same characters when the text is given
Windows line ends: `crlfLength` of it many, since each line end among them is a character longer. Of
a raw string that is so although a line end may be in its delimiter, which stands in the text twice.

Quoted literals are the exception. A backslash takes one character with it, and in front of a
Windows line end that is the carriage return: the line feed then ends the literal.

* `blockCommentLength_crlf`, `numberLength_crlf`, `rawLength_crlf`, `punctFurther_crlf`.
* `quotedLength_crlf`: the same for a closed literal on one line.
* `not_mem_take_quotedLength_crlf`: no quoted literal goes over a Windows line end.
-/

namespace CudaToHip.Lexer

open Text

variable {quote c x : Char} {cs word : List Char}

/-! ## Lengths -/

theorem next?_crlf (hline : x ≠ '\n') (hreturn : x ≠ '\r') (cs : List Char) :
    next? none (crlf cs) = some x ↔ next? none cs = some x := by
  have hp : ('\r' == x) = ('\n' == x) := by
    rw [beq_false_of_ne hline.symm, beq_false_of_ne hreturn.symm]
  rw [next?_none_eq_some_iff, next?_none_eq_some_iff, any_head?_crlf hp]

/-- A backslash stands before the line end of one kind or of the other. -/
theorem next?_crlf_line (cs : List Char) :
    (next? none (crlf cs) = some '\n' || next? none (crlf cs) = some '\r') =
      (next? none cs = some '\n' || next? none cs = some '\r') := by
  have hiff (us : List Char) : (next? none us = some '\n' || next? none us = some '\r') =
      us.head?.any fun x => x = '\n' || x = '\r' := by
    cases us <;> simp [next?]
  rw [hiff, hiff, any_head?_crlf (by decide)]

theorem blockCommentLength_crlf (cs : List Char) :
    blockCommentLength none (crlf cs) = crlfLength cs (blockCommentLength none cs) := by
  induction cs with
  | nil =>
    rw [crlf_nil, crlfLength_nil]
    rfl
  | cons c cs ih =>
    by_cases hc : c = '\n'
    · subst hc
      have hstep (d : Char) (hd : d ≠ '*') (es : List Char) :
          blockCommentLength none (d :: es) = 1 + blockCommentLength none es := by
        rw [blockCommentLength, if_neg fun h => hd h.1]
      rw [crlf_line, hstep '\r' (by decide), hstep '\n' (by decide), hstep '\n' (by decide), ih,
        crlfLength_line, ← Nat.add_assoc]
    rw [crlf_cons hc]
    by_cases hend : c = '*' ∧ next? none cs = some '/'
    · obtain ⟨rfl, hnext⟩ := hend
      obtain ⟨cs, rfl⟩ := exists_cons_of_next? hnext
      have hline : '\n' ∉ ['*', '/'] := by decide
      rw [crlf_cons (by decide)]
      exact (crlfLength_front hline cs).symm
    · have hend' : ¬ (c = '*' ∧ next? none (crlf cs) = some '/') := by
        rwa [next?_crlf (by decide) (by decide)]
      rw [blockCommentLength, blockCommentLength, if_neg hend, if_neg hend', ih, crlfLength_cons hc]

theorem numberLength_crlf (last : Char) (cs : List Char) :
    numberLength last (crlf cs) = crlfLength cs (numberLength last cs) := by
  fun_induction numberLength last cs with
  | case1 =>
    rw [crlf_nil, crlfLength_nil]
    rfl
  | case2 last c cs hc ih =>
    have hline : c ≠ '\n' := by
      rintro rfl
      exact absurd hc (by decide)
    rw [crlf_cons hline, numberLength, if_pos hc, ih, crlfLength_cons hline]
  | case3 last c cs hc hsign ih =>
    have hline : c ≠ '\n' := by
      rintro rfl
      exact absurd hsign (by simp)
    rw [crlf_cons hline, numberLength, if_neg hc, if_pos hsign, ih, crlfLength_cons hline]
  | case4 last c cs hc hsign =>
    rw [crlfLength_zero]
    by_cases hline : c = '\n'
    · rw [hline, crlf_line, numberLength, if_neg (by decide), if_neg (by simp)]
    · rw [crlf_cons hline, numberLength, if_neg hc, if_neg hsign]

theorem countBefore_cons_of_ne (word : List Char) (hc : x ≠ c) (cs : List Char) :
    countBefore (x :: word) (c :: cs) = (countBefore (x :: word) cs).map (1 + ·) := by
  rw [countBefore, List.isPrefixOf_cons_cons, beq_false_of_ne hc]
  simp [Nat.add_comm]

/-- Where a word is found whose first character is in no line end. -/
theorem countBefore_crlf (hline : x ≠ '\n') (hword : '\r' ∉ x :: word) (hcs : '\r' ∉ cs) :
    countBefore (crlf (x :: word)) (crlf cs) =
      (countBefore (x :: word) cs).map (crlfLength cs) := by
  induction cs with
  | nil =>
    rw [crlf_nil, crlf_cons hline]
    rfl
  | cons c cs ih =>
    have hprefix := isPrefixOf_crlf hword hcs
    have ih := ih fun h => hcs (List.mem_cons_of_mem c h)
    by_cases hc : c = '\n'
    · have hreturn : x ≠ '\r' := fun h => hword (h ▸ List.mem_cons_self)
      rw [crlf_cons hline] at ih ⊢
      rw [hc, crlf_line, countBefore_cons_of_ne _ hreturn, countBefore_cons_of_ne _ hline, ih,
        countBefore_cons_of_ne _ hline, Option.map_map, Option.map_map, Option.map_map]
      congr 1
      funext n
      simp only [Function.comp_apply, crlfLength_line]
      omega
    · rw [crlf_cons hc] at hprefix ⊢
      rw [countBefore, countBefore, hprefix, ih]
      split_ifs
      · simp
      · rw [Option.map_map, Option.map_map]
        congr 1
        funext n
        simp only [Function.comp_apply, Nat.add_comm _ 1, crlfLength_cons hc]

/-- A raw string may go over lines: its delimiter is given the same line ends in both places. -/
theorem rawLength_crlf (hcs : '\r' ∉ cs) : rawLength (crlf cs) = crlfLength cs (rawLength cs) := by
  obtain ⟨delimiter, rest, rfl, hdelimiter, hrest⟩ := exists_divided (· ≠ '(') cs
  replace hdelimiter : ∀ x ∈ delimiter, x ≠ '(' := by simpa using hdelimiter
  rw [List.mem_append, not_or] at hcs
  have hdelimiter' : ∀ x ∈ crlf delimiter, x ≠ '(' := by
    intro x hx
    rcases mem_of_mem_crlf hx with hx | rfl
    · exact hdelimiter x hx
    · decide
  have hrest' : (crlf rest).head?.any (· ≠ '(') = false := by
    rw [any_head?_crlf (by decide), hrest]
  have hquote : '\n' ∉ ['"'] := by decide
  have hclosing : crlf (')' :: (delimiter ++ ['"'])) = ')' :: (crlf delimiter ++ ['"']) := by
    rw [crlf_cons (by decide), crlf_append, crlf_of_not_mem hquote]
  have hreturn : '\r' ∉ ')' :: (delimiter ++ ['"']) := by simp [hcs.1]
  have hfound := countBefore_crlf (by decide) hreturn hcs.2
  rw [hclosing] at hfound
  rw [crlf_append, rawLength_append hdelimiter' hrest', rawLength_append hdelimiter hrest,
    List.cons_append, List.cons_append, hfound]
  cases hn : countBefore (')' :: (delimiter ++ ['"'])) rest with
  | none =>
    simp only [Option.map_none, Option.getD_none]
    rw [crlfLength_length, crlf_append]
  | some n =>
    obtain ⟨us, vs, rfl, rfl, -⟩ := countBefore_eq_some hn
    have hlen : delimiter.length + us.length + (delimiter.length + 2) =
        delimiter.length + (us.length + (')' :: (delimiter ++ ['"'])).length) := by
      simp only [List.length_append, List.length_cons, List.length_nil]
      omega
    simp only [Option.map_some, Option.getD_some]
    rw [hlen, List.append_assoc, crlfLength_append, crlfLength_append, crlfLength_left,
      crlfLength_left, hclosing]
    simp only [List.length_append, List.length_cons, List.length_nil]
    omega

/-- A punctuator goes on over characters that are in no line end. -/
theorem exists_punct (c : Char) (cs : List Char) :
    ∃ us vs, cs = us ++ vs ∧ punctFurther (c :: cs) = us.length ∧ '\n' ∉ us := by
  have hpuncts : ∀ p ∈ longPuncts, p ≠ [] ∧ '\n' ∉ p := by decide
  unfold punctFurther
  cases hfind : longPuncts.find? (·.isPrefixOf (c :: cs)) with
  | none => exact ⟨[], cs, rfl, rfl, List.not_mem_nil⟩
  | some p =>
    obtain ⟨hne, hline⟩ := hpuncts p (List.mem_of_find?_eq_some hfind)
    obtain ⟨d, us, rfl⟩ := List.exists_cons_of_ne_nil hne
    have hprefix := List.find?_some hfind
    obtain ⟨vs, hvs⟩ := List.isPrefixOf_iff_prefix.mp hprefix
    obtain ⟨-, rfl⟩ := List.cons.inj hvs
    exact ⟨us, vs, rfl, rfl, fun h => hline (List.mem_cons_of_mem d h)⟩

theorem punctFurther_crlf (hcs : '\r' ∉ c :: cs) (hc : c ≠ '\n') :
    punctFurther (c :: crlf cs) = crlfLength cs (punctFurther (c :: cs)) := by
  have hpuncts : ∀ p ∈ longPuncts, '\n' ∉ p ∧ '\r' ∉ p := by decide
  have hsame : punctFurther (crlf (c :: cs)) = punctFurther (c :: cs) := by
    refine punctFurther_congr fun p hp => ?_
    obtain ⟨hline, hreturn⟩ := hpuncts p hp
    rw [← isPrefixOf_crlf hreturn hcs, crlf_of_not_mem hline]
  obtain ⟨us, vs, rfl, hlen, hus⟩ := exists_punct c cs
  rw [← crlf_cons hc, hsame, hlen, crlfLength_front hus]

theorem literal?_crlf (word cs : List Char) :
    literal? word (next? none (crlf cs)) = literal? word (next? none cs) := by
  cases cs with
  | nil => rw [crlf_nil]
  | cons c cs =>
    by_cases hc : c = '\n'
    · rw [hc, crlf_line]
      rfl
    · rw [crlf_cons hc]
      rfl

/-! ## Quoted literals -/

/-- The characters go on to the first quote that no backslash takes with it, and end there. -/
def closes (quote : Char) : List Char → Bool
  | [] => false
  | '\\' :: [] => false
  | '\\' :: _ :: cs => closes quote cs
  | c :: cs => if c = quote then cs.isEmpty else closes quote cs

theorem closes_cons (hc : c ≠ '\\') (cs : List Char) :
    closes quote (c :: cs) = if c = quote then cs.isEmpty else closes quote cs := by
  rw [closes]
  · exact fun h => absurd h hc
  · exact fun _ _ h => absurd h hc

/-- A closed literal on one line has the same characters. -/
theorem quotedLength_crlf (hclosed : closes quote (cs.take (quotedLength quote cs)) = true)
    (hline : '\n' ∉ cs.take (quotedLength quote cs)) :
    quotedLength quote (crlf cs) = crlfLength cs (quotedLength quote cs) := by
  fun_induction quotedLength quote cs with
  | case1 => cases hclosed
  | case2 => cases hclosed
  | case3 d cs ih =>
    have htake : ('\\' :: d :: cs).take (2 + quotedLength quote cs) =
        ['\\', d] ++ cs.take (quotedLength quote cs) := by
      rw [Nat.add_comm, List.take_succ_cons, List.take_succ_cons]
      rfl
    rw [htake] at hclosed hline
    rw [List.mem_append, not_or] at hline
    have hfront := crlfLength_append_of_not_mem hline.1 cs (quotedLength quote cs)
    have hcrlf : crlf ('\\' :: d :: cs) = ['\\', d] ++ crlf cs := crlf_append_of_not_mem hline.1 cs
    rw [hcrlf]
    exact (congrArg (2 + ·) (ih hclosed hline.2)).trans hfront.symm
  | case4 cs => cases hclosed
  | case5 cs hlast hmore hquote =>
    have hline : '\n' ∉ [quote] := by simpa using Ne.symm hquote
    rw [crlf_cons hquote, quotedLength_cons (ne_escape hlast hmore) hquote, if_pos rfl]
    exact (crlfLength_front hline cs).symm
  | case6 c cs hlast hmore hquote hc ih =>
    have hescape := ne_escape hlast hmore
    rw [Nat.add_comm, List.take_succ_cons] at hclosed hline
    rw [closes_cons hescape, if_neg hc] at hclosed
    rw [List.mem_cons, not_or] at hline
    rw [crlf_cons hquote, quotedLength_cons hescape hquote, if_neg hc, ih hclosed hline.2,
      crlfLength_cons hquote]

/-- With Windows line ends a quoted literal ends on its line, an escaped line end included: the
backslash takes the carriage return with it. -/
theorem not_mem_take_quotedLength_crlf (quote : Char) (cs : List Char) :
    '\n' ∉ (crlf cs).take (quotedLength quote (crlf cs)) := by
  fun_induction quotedLength quote cs with
  | case1 => simp
  | case2 =>
    rw [crlf_of_not_mem (by decide)]
    simp [quotedLength]
  | case3 d cs ih =>
    rw [crlf_cons (by decide)]
    by_cases hd : d = '\n'
    · rw [hd, crlf_line, quotedLength, quotedLength]
      simp
    · rw [crlf_cons hd, quotedLength, Nat.add_comm, List.take_succ_cons, List.take_succ_cons]
      simp [ih, Ne.symm hd]
  | case4 cs =>
    rw [crlf_line, quotedLength_cons (by decide) (by decide), quotedLength]
    split_ifs <;> simp
  | case5 cs hlast hmore hquote =>
    rw [crlf_cons hquote, quotedLength_cons (ne_escape hlast hmore) hquote, if_pos rfl]
    simp [Ne.symm hquote]
  | case6 c cs hlast hmore hquote hc ih =>
    rw [crlf_cons hquote, quotedLength_cons (ne_escape hlast hmore) hquote, if_neg hc,
      Nat.add_comm, List.take_succ_cons]
    simp [ih, Ne.symm hquote]

end CudaToHip.Lexer
