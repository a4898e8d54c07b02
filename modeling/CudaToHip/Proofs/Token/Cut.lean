import CudaToHip.Proofs.Token.Order
import CudaToHip.Proofs.Token.Stable

/-!
# Reading what is in front of a cut

When a text is cut behind a token, what is in front of the cut has the tokens it had before. The
lexer looks one character ahead, and the character behind the cut is still shown to it; everything
else that it takes or compares is in front of the cut.

* `KeptByCut`: a length that stays the same when the text is cut behind it. So are all lengths that
  the lexer reads.
* `measure_cut`: so is what begins at a character.
* `tokens_cut`: the tokens up to the cut are those of the whole text, and `tokens_suffix`: so are
  the tokens from the start of one of them on.
-/

namespace CudaToHip.Lexer

open Text

variable {after : Option Char} {pos : Nat} {c : Char} {cs us rest : List Char}

/-- The length is read off what is in front of any cut behind it. -/
def KeptByCut (len : List Char → Nat) : Prop :=
  ∀ us rest, len (us ++ rest) ≤ us.length → len us = len (us ++ rest)

/-! ## Lengths -/

theorem keptByCut_takeWhile (p : Char → Bool) : KeptByCut fun cs => (cs.takeWhile p).length := by
  intro us rest h
  dsimp only at h ⊢
  induction us with
  | nil => exact (Nat.le_zero.mp h).symm
  | cons c us ih =>
    cases hc : p c with
    | true =>
      simp only [List.cons_append, List.takeWhile_cons_of_pos hc, List.length_cons] at h ⊢
      rw [ih (Nat.le_of_succ_le_succ h)]
    | false =>
      have hc : ¬ p c = true := by simp [hc]
      simp only [List.cons_append, List.takeWhile_cons_of_neg hc]

theorem blockCommentLength_cut (h : blockCommentLength after (us ++ rest) ≤ us.length) :
    blockCommentLength (next? after rest) us = blockCommentLength after (us ++ rest) := by
  induction us with
  | nil => exact (Nat.le_zero.mp h).symm
  | cons c us ih =>
    rw [List.cons_append] at h ⊢
    rw [blockCommentLength] at h
    rw [blockCommentLength, blockCommentLength, next?_append]
    split_ifs at h ⊢ with hend
    · rfl
    · rw [List.length_cons] at h
      rw [ih (by omega)]

theorem keptByCut_quotedLength (quote : Char) : KeptByCut (quotedLength quote) := by
  intro us rest h
  fun_induction quotedLength quote us with
  | case1 => exact (Nat.le_zero.mp h).symm
  | case2 =>
    cases rest with
    | nil => rfl
    | cons d rest =>
      simp only [List.cons_append, List.nil_append, quotedLength, List.length_singleton] at h
      omega
  | case3 d us ih =>
    simp only [List.cons_append, quotedLength, List.length_cons] at h ⊢
    rw [ih (by omega)]
  | case4 us => simp [quotedLength]
  | case5 us hlast hmore hline =>
    have hescape := ne_escape hlast hmore
    rw [List.cons_append, quotedLength_cons hescape hline, if_pos rfl]
  | case6 c us hlast hmore hline hc ih =>
    have hescape := ne_escape hlast hmore
    rw [List.cons_append, quotedLength_cons hescape hline, if_neg hc] at h ⊢
    rw [List.length_cons] at h
    rw [ih (by omega)]

theorem keptByCut_numberLength (last : Char) : KeptByCut (numberLength last) := by
  intro us rest h
  fun_induction numberLength last us with
  | case1 => exact (Nat.le_zero.mp h).symm
  | case2 last c us hc ih =>
    rw [List.cons_append, numberLength, if_pos hc] at h ⊢
    rw [List.length_cons] at h
    rw [ih (by omega)]
  | case3 last c us hc hsign ih =>
    rw [List.cons_append, numberLength, if_neg hc, if_pos hsign] at h ⊢
    rw [List.length_cons] at h
    rw [ih (by omega)]
  | case4 last c us hc hsign => rw [List.cons_append, numberLength, if_neg hc, if_neg hsign]

/-- A raw string goes on behind its delimiter. -/
theorem lt_rawLength (hus : ∀ x ∈ us, x ≠ '(') (hrest : rest ≠ []) :
    us.length < rawLength (us ++ rest) := by
  have hlen := List.length_pos_iff.mpr hrest
  have htake : (us ++ rest).takeWhile (· ≠ '(') = us ++ rest.takeWhile (· ≠ '(') :=
    List.takeWhile_append_of_pos (by simpa using hus)
  unfold rawLength
  dsimp only
  split
  · simp only [htake, List.length_append, List.length_cons]
    omega
  · rw [List.length_append]
    omega

theorem keptByCut_rawLength : KeptByCut rawLength := by
  intro us rest h
  rcases List.eq_nil_or_concat rest with rfl | hrest
  · rw [List.append_nil]
  replace hrest : rest ≠ [] := by
    obtain ⟨xs, x, rfl⟩ := hrest
    simp
  obtain ⟨delimiter, behind, rfl, hdelimiter, hbehind⟩ := exists_divided (· ≠ '(') us
  replace hdelimiter : ∀ x ∈ delimiter, x ≠ '(' := by simpa using hdelimiter
  cases behind with
  | nil =>
    rw [List.append_nil] at h
    exact absurd h (Nat.not_le.mpr (lt_rawLength hdelimiter hrest))
  | cons x behind =>
    have hlen := List.length_pos_iff.mpr hrest
    have hbehind' : (x :: behind ++ rest).head?.any (· ≠ '(') = false := hbehind
    rw [List.append_assoc, rawLength_append hdelimiter hbehind'] at h ⊢
    rw [rawLength_append hdelimiter hbehind]
    cases hfound : countBefore (')' :: delimiter ++ ['"']) (x :: behind ++ rest) with
    | none =>
      rw [hfound] at h
      simp only [Option.map_none, Option.getD_none, List.length_append] at h
      omega
    | some n =>
      -- the end mark is in front of the cut
      obtain ⟨xs, ys, hdiv, hn, hes⟩ := countBefore_eq_some hfound
      rw [hfound] at h
      have hshort : xs ++ (')' :: delimiter ++ ['"']) <+: x :: behind := by
        refine List.prefix_of_prefix_length_le ⟨ys, hdiv.symm⟩ (List.prefix_append _ _) ?_
        simp only [Option.map_some, Option.getD_some, List.length_append, List.length_cons,
          List.length_nil] at h ⊢
        omega
      obtain ⟨es, hes'⟩ := hshort
      rw [← hes', hes es]
      rfl

/-- The first word that fits does so in front of the cut. -/
theorem find?_isPrefixOf_cut {words : List (List Char)}
    (h : ∀ w, words.find? (·.isPrefixOf (us ++ rest)) = some w → w.length ≤ us.length) :
    words.find? (·.isPrefixOf us) = words.find? (·.isPrefixOf (us ++ rest)) := by
  induction words with
  | nil => rfl
  | cons w words ih =>
    rw [List.find?_cons, List.find?_cons]
    cases hw : w.isPrefixOf (us ++ rest) with
    | true =>
      have hlen := h w (by rw [List.find?_cons, hw])
      have hshort : w <+: us := List.prefix_of_prefix_length_le
        (List.isPrefixOf_iff_prefix.mp hw) (List.prefix_append us rest) hlen
      rw [List.isPrefixOf_iff_prefix.mpr hshort]
    | false =>
      have hnone : w.isPrefixOf us = false := by
        rw [Bool.eq_false_iff] at hw ⊢
        rw [Ne, List.isPrefixOf_iff_prefix] at hw ⊢
        exact fun hus => hw (hus.trans (List.prefix_append us rest))
      rw [hnone]
      exact ih fun v hv => h v (by rwa [List.find?_cons, hw])

theorem punctFurther_cut (h : punctFurther (c :: (us ++ rest)) ≤ us.length) :
    punctFurther (c :: us) = punctFurther (c :: (us ++ rest)) := by
  unfold punctFurther at h ⊢
  have hfind : longPuncts.find? (·.isPrefixOf (c :: us)) =
      longPuncts.find? (·.isPrefixOf (c :: us ++ rest)) := by
    refine find?_isPrefixOf_cut fun w hw => ?_
    rw [List.cons_append] at hw
    simp only [hw] at h
    rw [List.length_cons]
    omega
  rw [hfind, List.cons_append]

/-! ## What begins at a character -/

theorem literal?_keptByCut {word : List Char} {next : Option Char} {kind : TokenKind}
    {len : List Char → Nat} (h : literal? word next = some (kind, len)) : KeptByCut len := by
  rcases literal?_cases h with ⟨-, -, -, rfl⟩ | ⟨quote, -, -, -, rfl⟩
  · exact keptByCut_rawLength
  · exact keptByCut_quotedLength quote

theorem measureName_cut (h : (measureName after c (us ++ rest)).further ≤ us.length) :
    measureName (next? after rest) c us = measureName after c (us ++ rest) := by
  obtain ⟨tail, behind, hdiv, htail, hbehind⟩ := exists_divided continuesName (us ++ rest)
  rw [hdiv, measureName_append after htail hbehind] at h ⊢
  -- the word is in front of the cut
  obtain ⟨us, rfl⟩ : tail <+: us := by
    refine List.prefix_of_prefix_length_le ⟨behind, hdiv.symm⟩ (List.prefix_append us rest) ?_
    revert h
    split
    · intro h
      dsimp only at h
      omega
    · exact id
  obtain rfl : us ++ rest = behind := by
    rw [List.append_assoc] at hdiv
    exact List.append_cancel_left hdiv
  have hus : us.head?.any continuesName = false := by
    cases us with
    | nil => rfl
    | cons d us => exact hbehind
  rw [measureName_append _ htail hus, next?_append]
  cases hliteral : literal? (c :: tail) (next? after (us ++ rest)) with
  | none => rfl
  | some literal =>
    obtain ⟨kind, len⟩ := literal
    rw [hliteral, List.length_append] at h
    cases us with
    | nil =>
      rw [List.length_nil] at h
      dsimp only at h
      omega
    | cons quote us =>
      simp only [List.cons_append, List.drop_succ_cons, List.drop_zero, List.length_cons] at h ⊢
      rw [literal?_keptByCut hliteral us rest (by omega)]

/-- **What begins at a character** is the same when the text is cut behind it. -/
theorem measure_cut (h : (measure after c (us ++ rest)).further ≤ us.length) :
    measure (next? after rest) c us = measure after c (us ++ rest) := by
  rw [measure] at h
  rw [measure, measure, next?_append]
  split_ifs at h ⊢ with hblank hline hblock hstring hchar hname hnumber
  · rfl
  · exact congrArg (Measure.mk none) (keptByCut_takeWhile _ us rest h)
  · cases us with
    | nil =>
      rw [List.length_nil] at h
      dsimp only at h
      omega
    | cons d us =>
      simp only [List.cons_append, List.drop_succ_cons, List.drop_zero, List.length_cons] at h ⊢
      rw [blockCommentLength_cut (by omega)]
  · exact congrArg (Measure.mk _) (keptByCut_quotedLength '"' us rest h)
  · exact congrArg (Measure.mk _) (keptByCut_quotedLength '\'' us rest h)
  · exact measureName_cut h
  · exact congrArg (Measure.mk _) (keptByCut_numberLength c us rest h)
  · exact congrArg (Measure.mk _) (punctFurther_cut h)

/-! ## Tokens -/

variable {a b : Token} {before behind : List Token}

/-- A member of a list behind an optional one is that one or stands in the list. -/
theorem toList_append_eq {α : Type} {x? : Option α} {l xs ys : List α} {y : α}
    (h : x?.toList ++ l = xs ++ y :: ys) :
    x? = some y ∧ xs = [] ∧ l = ys ∨ ∃ xs', xs = x?.toList ++ xs' ∧ l = xs' ++ y :: ys := by
  cases x? with
  | none => exact Or.inr ⟨xs, rfl, h⟩
  | some x =>
    cases xs with
    | nil =>
      obtain ⟨rfl, rfl⟩ := List.cons.inj h
      exact Or.inl ⟨rfl, rfl, rfl⟩
    | cons z xs =>
      obtain ⟨rfl, hl⟩ := List.cons.inj h
      exact Or.inr ⟨xs, rfl, hl⟩

/-- **From the start of a token on** the text has the tokens from it on. -/
theorem tokens_suffix (h : tokens after pos cs = before ++ a :: behind) :
    ∃ us vs, cs = us ++ vs ∧ a.start = pos + byteLength us ∧
      tokens after a.start vs = a :: behind := by
  induction hn : cs.length using Nat.strongRecOn generalizing cs pos before with
  | ind n ih =>
    cases cs with
    | nil =>
      rw [tokens] at h
      exact absurd h.symm (List.append_ne_nil_of_right_ne_nil _ (List.cons_ne_nil _ _))
    | cons c cs =>
      have hall := h
      rw [tokens_cons rfl] at h
      generalize Lexer.measure after c cs = m at h
      rcases toList_append_eq h with ⟨hfirst, rfl, hbehind⟩ | ⟨before', -, hlater⟩
      · obtain ⟨kind, -, rfl⟩ := Option.map_eq_some_iff.mp hfirst
        exact ⟨[], c :: cs, rfl, rfl, hall⟩
      · obtain ⟨us, vs, hus, hstart, hvs⟩ :=
          ih _ (by rw [← hn, List.length_drop, List.length_cons]; omega) hlater rfl
        refine ⟨c :: cs.take m.further ++ us, vs, ?_, ?_, hvs⟩
        · rw [List.append_assoc, ← hus, List.cons_append, List.take_append_drop]
        · rw [hstart, byteLength_append, Nat.add_assoc]

/-- What is not longer than what is in front of a cut is in front of it, unless nothing is behind
the cut. -/
theorem le_length_of_byteLength_take {n : Nat} (hrest : rest ≠ [])
    (h : byteLength ((us ++ rest).take n) ≤ byteLength us) : n ≤ us.length := by
  by_contra hn
  obtain ⟨d, rest, rfl⟩ := List.exists_cons_of_ne_nil hrest
  obtain ⟨k, rfl⟩ : ∃ k, n = us.length + (k + 1) := ⟨n - us.length - 1, by omega⟩
  rw [List.take_length_add_append, byteLength_append, List.take_succ_cons, byteLength] at h
  have hsize := d.utf8Size_pos
  omega

/-- **Up to a cut behind a token** the text has the tokens up to that one. -/
theorem tokens_cut (h : tokens after pos (us ++ rest) = before ++ b :: behind)
    (hb : b.span.stop = pos + byteLength us) :
    tokens (next? after rest) pos us = before ++ [b] := by
  induction hn : us.length using Nat.strongRecOn generalizing us pos before with
  | ind n ih =>
    have hmem : b ∈ tokens after pos (us ++ rest) := by
      rw [h]
      exact List.mem_append_right _ List.mem_cons_self
    cases us with
    | nil =>
      have hlt := start_lt_stop_of_mem_tokens hmem
      have hle : pos ≤ b.span.start := start_of_mem_tokens hmem
      rw [byteLength] at hb
      omega
    | cons c us =>
      rw [List.cons_append, tokens_cons rfl] at h hmem
      obtain ⟨m, hm⟩ : ∃ m, Lexer.measure after c (us ++ rest) = m := ⟨_, rfl⟩
      rw [hm] at h hmem
      -- the first thing ends in front of the cut, as the token at the cut ends there or behind it
      have hfirst : byteLength (c :: (us ++ rest).take m.further) ≤ byteLength (c :: us) := by
        rcases List.mem_append.mp hmem with hmem | hmem
        · obtain ⟨kind, -, rfl⟩ := Option.map_eq_some_iff.mp (Option.mem_toList.mp hmem)
          rw [stop_ofList] at hb
          exact Nat.le_of_eq (Nat.add_left_cancel hb)
        · have hlt : b.start < b.span.stop := start_lt_stop_of_mem_tokens hmem
          have hle := start_of_mem_tokens hmem
          omega
      obtain ⟨hcut, htake, hdrop⟩ : Lexer.measure (next? after rest) c us = m ∧
          (us ++ rest).take m.further = us.take m.further ∧
          (us ++ rest).drop m.further = us.drop m.further ++ rest := by
        rcases eq_or_ne rest [] with rfl | hrest
        · rw [List.append_nil] at hm ⊢
          exact ⟨hm, rfl, (List.append_nil _).symm⟩
        · have hle := le_length_of_byteLength_take hrest (Nat.le_of_add_le_add_left hfirst)
          refine ⟨?_, List.take_append_of_le_length hle, List.drop_append_of_le_length hle⟩
          rw [← hm] at hle ⊢
          exact measure_cut hle
      rw [htake, hdrop] at h
      rw [tokens_cons hcut]
      have hsplit : pos + byteLength (c :: us.take m.further) + byteLength (us.drop m.further) =
          pos + byteLength (c :: us) := by
        rw [Nat.add_assoc, ← byteLength_append, List.cons_append, List.take_append_drop]
      rcases toList_append_eq h with ⟨hfirst, rfl, hbehind⟩ | ⟨before', rfl, hlater⟩
      · obtain ⟨kind, hkind, rfl⟩ := Option.map_eq_some_iff.mp hfirst
        rw [stop_ofList, ← hsplit] at hb
        have hnil : us.drop m.further = [] := eq_nil_of_byteLength (by omega)
        rw [hkind, hnil, tokens]
        rfl
      · have hrest := ih _ (by rw [← hn, List.length_drop, List.length_cons]; omega) hlater
          (by rw [hb, hsplit]) rfl
        rw [hrest, List.append_assoc]

end CudaToHip.Lexer
