import CudaToHip.Proofs.Token.Cursor
import CudaToHip.Proofs.Token.Order

/-!
# The cursor reads the tokens of the lexer

From the front of one thing to the front of the next, a round of the cursor does what the lexer's
measure of that thing says (`step?_eq`), so the two go through a range together
(`readFrom?_eq`, `readIn?_eq`).

There is one place where they part. The cursor looks at the byte behind the range to see whether
letters are in front of a quote, and then cuts the body of a raw string from behind that quote on.
If the range ends between the letters and the quote, that cut is out of range and the cursor fails,
where the lexer takes the letters alone. On a whole text nothing is behind the range, so the cursor
always arrives (`read?_eq`).
-/

namespace CudaToHip

namespace Cursor

open Lexer Text

variable {source : String} {stop i : Nat} {c : Char} {us rest : List Char}

/-! ## Names and punctuators -/

/-- **The end of a punctuator.** -/
theorem skipPunct?_eq (h : Reads source i (c :: us ++ rest))
    (hstop : stop = i + byteLength (c :: us)) :
    skipPunct? source stop i =
      some (i + byteLength (c :: us.take (punctFurther (c :: us)))) := by
  have hlong : ∀ p ∈ longPuncts, p ≠ [] := by decide
  unfold skipPunct? punctFurther
  rw [hstop, h.cut]
  simp only [Option.bind_eq_bind, Option.bind_some, String.toList_ofList, List.head?_cons,
    Option.map_some, Option.getD_some]
  cases hfound : longPuncts.find? (·.isPrefixOf (c :: us)) with
  | none => rfl
  | some p =>
    have hfront : p.isPrefixOf (c :: us) = true :=
      List.find?_some (p := fun p : List Char => p.isPrefixOf (c :: us)) hfound
    obtain ⟨vs, hvs⟩ := List.isPrefixOf_iff_prefix.mp hfront
    obtain ⟨d, ds, rfl⟩ := List.exists_cons_of_ne_nil (hlong p (List.mem_of_find?_eq_some hfound))
    rw [List.cons_append] at hvs
    obtain ⟨rfl, rfl⟩ := List.cons.inj hvs
    show some (i + byteLength (d :: ds)) = some (i + byteLength (d :: (ds ++ vs).take ds.length))
    rw [List.take_left]

theorem flat_continuesName : Flat continuesName :=
  flat_of_forall fun c hc => show continuesName c = true by simp [continuesName, hc]

theorem flat_startsName : Flat startsName :=
  flat_of_forall fun c hc => show startsName c = true by simp [startsName, hc]

/-- The literal behind letters that stand in front of its quote, within the range or not. -/
theorem skipQuoted?_behind {quote : Char} (hquote : quote.toNat < 0x80)
    (h : Reads source i (us ++ rest)) (hstop : stop = i + byteLength us)
    (hnext : next? rest.head? us = some quote) :
    skipQuoted? source stop quote (i + 1) =
      some (i + byteLength (us.take (1 + quotedLength quote (us.drop 1)))) := by
  cases us with
  | nil =>
    rw [skipQuoted?, if_neg (by rw [hstop, byteLength]; omega), hstop]
    rfl
  | cons d us =>
    obtain rfl : d = quote := Option.some.inj hnext
    obtain ⟨-, hbody⟩ := h.look?_ascii hquote
    rw [byteLength_cons_ascii hquote] at hstop
    rw [skipQuoted?_eq hquote hbody (by omega), Nat.add_comm 1 (quotedLength _ _),
      List.take_succ_cons, byteLength_cons_ascii hquote, Nat.add_assoc]
    rfl

/-- **A name, or the literal that its letters introduce**, unless the range ends in front of the
quote of a raw string. -/
theorem name?_eq (h : Reads source i (c :: us ++ rest)) (hc : startsName c = true)
    (hstop : stop = i + byteLength (c :: us))
    (hraw : rest.head? = some '"' → c :: us ∉ rawMarks) :
    (name? source stop i).map (fun (kind, j) => (some kind, j)) =
      some ((measureName rest.head? c us).kind?,
        i + byteLength (c :: us.take (measureName rest.head? c us).further)) := by
  obtain ⟨tail, behind, rfl, htail, hbehind⟩ := exists_divided continuesName us
  have hword : (c :: (tail ++ behind)).takeWhile continuesName = c :: tail :=
    (takeWhile_append_stop (List.forall_mem_cons.mpr ⟨continuesName_of_startsName hc, htail⟩)
      hbehind : ((c :: tail) ++ behind).takeWhile continuesName = c :: tail)
  have hreads : Reads source i ((c :: tail) ++ (behind ++ rest)) := by simpa using h
  have hat := hreads.append
  have hend : stop = i + byteLength (c :: tail) + byteLength behind := by
    rw [hstop, ← List.cons_append, byteLength_append, Nat.add_assoc]
  have hlook {x : Char} (hx : x.toNat < 0x80) :
      look? source (i + byteLength (c :: tail)) = some x ↔ next? rest.head? behind = some x := by
    rw [hat.look?_eq_some_iff hx, next?_head?]
  -- what the word and `n` more characters take
  have htaken (n : Nat) : i + byteLength (c :: (tail ++ behind).take (tail.length + n)) =
      i + byteLength (c :: tail) + byteLength (behind.take n) := by
    rw [List.take_length_add_append, ← List.cons_append, byteLength_append, Nat.add_assoc]
  rw [measureName_append _ htail hbehind]
  unfold name?
  rw [skipWhile?_eq flat_continuesName h hstop, hword]
  simp only [Option.bind_eq_bind, Option.bind_some, hreads.cut, String.toList_ofList,
    hlook (x := '"') (by decide), hlook (x := '\'') (by decide)]
  split_ifs with hr hdouble hsingle
  · -- a raw string, whose quote is in the range
    obtain ⟨hnext, hmark⟩ := hr
    have hliteral : literal? (c :: tail) (next? rest.head? behind) = some (.string, rawLength) := by
      rw [hnext]
      exact if_pos hmark
    cases behind with
    | nil =>
      rw [List.append_nil] at hraw
      exact absurd (List.contains_iff_mem.mp hmark) (hraw hnext)
    | cons x body =>
      obtain rfl : x = '"' := Option.some.inj hnext
      rw [skipRaw?_eq hat hend, hliteral]
      simp only [Nat.add_assoc tail.length, htaken]
      rw [Nat.add_comm 1, List.drop_one, List.tail_cons, List.take_succ_cons,
        byteLength_cons_ascii (c := '"') (by decide), Nat.add_assoc _ 1]
      rfl
  · obtain ⟨hnext, hmark⟩ := hdouble
    have hliteral : literal? (c :: tail) (next? rest.head? behind) =
        some (.string, quotedLength '"') := by
      rw [hnext]
      exact (if_neg fun hmark => hr ⟨hnext, hmark⟩).trans (if_pos hmark)
    rw [skipQuoted?_behind (by decide) hat hend hnext, hliteral]
    simp only [Nat.add_assoc tail.length, htaken]
    rfl
  · obtain ⟨hnext, hmark⟩ := hsingle
    have hliteral : literal? (c :: tail) (next? rest.head? behind) =
        some (.char, quotedLength '\'') := by
      rw [hnext]
      exact if_pos hmark
    rw [skipQuoted?_behind (by decide) hat hend hnext, hliteral]
    simp only [Nat.add_assoc tail.length, htaken]
    rfl
  · have hliteral : literal? (c :: tail) (next? rest.head? behind) = none := by
      generalize next? rest.head? behind = next at hr hdouble hsingle
      unfold literal?
      split
      · rw [if_neg fun hmark => hr ⟨rfl, hmark⟩, if_neg fun hmark => hdouble ⟨rfl, hmark⟩]
      · rw [if_neg fun hmark => hsingle ⟨rfl, hmark⟩]
      · rfl
    rw [hliteral]
    have h0 := htaken 0
    rw [List.take_zero, Nat.add_zero, byteLength, Nat.add_zero] at h0
    simp only [h0]
    rfl

/-! ## Rounds -/

/-- A block comment behind the slash of its opening mark, of which the star may be out of the
range. -/
theorem skipBlockComment?_behind (h : Reads source i (us ++ rest))
    (hstop : stop = i + byteLength us) (hnext : next? rest.head? us = some '*') :
    skipBlockComment? source stop (i + 1) =
      some (i + byteLength (us.take (1 + blockCommentLength rest.head? (us.drop 1)))) := by
  cases us with
  | nil =>
    rw [byteLength] at hstop
    rw [skipBlockComment?, if_neg (by omega), Nat.min_eq_right (by omega), hstop]
    rfl
  | cons d us =>
    obtain rfl : d = '*' := Option.some.inj hnext
    obtain ⟨-, hbody⟩ := h.look?_ascii (by decide)
    rw [byteLength_cons_ascii (by decide)] at hstop
    rw [skipBlockComment?_eq hbody (by omega), Nat.add_comm 1 (blockCommentLength _ _),
      List.take_succ_cons, byteLength_cons_ascii (by decide), Nat.add_assoc]
    rfl

/-- At the front of a name, only names are tried. -/
theorem step?_of_startsName (h : Reads source i (c :: us ++ rest)) (hc : startsName c = true) :
    step? source stop i = (name? source stop i).map fun (kind, j) => (some kind, j) := by
  obtain ⟨d, hd, halike⟩ := h.front
  have hname : startsName d = true := (flat_startsName.eq halike).trans hc
  have hne {x : Char} (hx : startsName x = false) : d ≠ x := ne_of_test hname hx
  unfold step?
  rw [hd]
  simp [hname, isBlank_of_startsName hname, hne (x := '\\') (by decide),
    hne (x := '/') (by decide), hne (x := '"') (by decide), hne (x := '\'') (by decide)]

/-- **One round of the cursor** goes from the front of one thing to the front of the next. -/
theorem step?_eq (h : Reads source i (c :: us ++ rest)) (hstop : stop = i + byteLength (c :: us))
    (hraw : rest.head? = some '"' → c :: us ∉ rawMarks) :
    step? source stop i = some ((measure rest.head? c us).kind?,
      i + byteLength (c :: us.take (measure rest.head? c us).further)) := by
  by_cases hname : startsName c = true
  · rw [step?_of_startsName h hname, measure_of_startsName hname, name?_eq h hname hstop hraw]
  -- everything else begins with a character of ASCII, which the cursor sees as it is
  have hascii : c.toNat < 0x80 := by
    by_contra hc
    exact hname (by simp [startsName, Nat.not_lt.mp hc])
  obtain ⟨hlook, hbody⟩ := h.look?_ascii hascii
  have hend : stop = i + 1 + byteLength us := by
    rw [hstop, byteLength_cons_ascii hascii, Nat.add_assoc]
  have hnext {x : Char} (hx : x.toNat < 0x80) :
      look? source (i + 1) = some x ↔ next? rest.head? us = some x := by
    rw [hbody.look?_eq_some_iff hx, next?_head?]
  have hdigit : (look? source (i + 1)).any Char.isDigit =
      (next? rest.head? us).any Char.isDigit := by
    rw [hbody.any_look? (flat_of_forall fun _ => isDigit_of_le), next?_head?]
  have htaken (n : Nat) : i + byteLength (c :: us.take n) = i + 1 + byteLength (us.take n) := by
    rw [byteLength_cons_ascii hascii, Nat.add_assoc]
  unfold step? Lexer.measure
  rw [hlook]
  simp only [Option.bind_eq_bind, Option.bind_some, hnext (x := '\n') (by decide),
    hnext (x := '\r') (by decide), hnext (x := '/') (by decide), hnext (x := '*') (by decide),
    hdigit, htaken]
  split_ifs with hblank hline hblock hstring hchar hnumber
  · rfl
  · -- the loop stands on the first slash again, which is no end of a line
    have hslash : c = '/' := of_decide_eq_true (Bool.and_eq_true _ _ ▸ hline).1
    have hpass : (c :: us).takeWhile (fun c => decide (c ≠ '\n')) =
        c :: us.takeWhile (fun c => decide (c ≠ '\n')) :=
      List.takeWhile_cons_of_pos (by rw [hslash]; rfl)
    have hflat : Flat fun c => decide (c ≠ '\n') := flat_of_forall fun _ hc =>
      decide_eq_true (ne_of_le (by decide) hc)
    have htake := List.prefix_iff_eq_take.mp (us.takeWhile_prefix fun c => decide (c ≠ '\n'))
    rw [skipWhile?_eq hflat h hstop, hpass, byteLength_cons_ascii hascii, ← Nat.add_assoc]
    exact congrArg (fun cs => some (none, i + 1 + byteLength cs)) htake
  · have hstar := of_decide_eq_true (Bool.and_eq_true _ _ ▸ hblock).2
    rw [skipBlockComment?_behind hbody hend hstar]
    rfl
  · obtain rfl := hstring
    rw [skipQuoted?_eq (by decide) hbody hend]
    rfl
  · obtain rfl := hchar
    rw [skipQuoted?_eq (by decide) hbody hend]
    rfl
  · rw [skipNumber?_eq hbody (Nat.succ_pos i) hlook hend]
    rfl
  · rw [skipPunct?_eq h hstop, htaken]
    rfl

/-! ## Ranges -/

/-- Letters of a raw string in front of its quote, when the quote is out of the range. -/
theorem measure_of_mem_rawMarks (h : c :: us ∈ rawMarks) :
    measure (some '"') c us = ⟨some .string, us.length + 1⟩ := by
  simp only [rawMarks, encodings, List.map_cons, List.map_nil, List.cons_append, List.nil_append,
    List.mem_cons, List.cons.injEq, List.not_mem_nil, or_false] at h
  rcases h with ⟨rfl, rfl⟩ | ⟨rfl, rfl⟩ | ⟨rfl, rfl⟩ | ⟨rfl, rfl⟩ | ⟨rfl, rfl⟩ <;> rfl

/-- No token is a mark of a raw string whose quote is the character `next`, out of the range. -/
def KeepsMarks (next : Option Char) (ts : List Token) : Prop :=
  next = some '"' → ∀ t ∈ ts, t.kind = .string → t.text.toList ∉ rawMarks

theorem KeepsMarks.front (h : KeepsMarks rest.head? (tokens rest.head? i (c :: us))) :
    rest.head? = some '"' → c :: us ∉ rawMarks := by
  intro hquote hmark
  rw [hquote, tokens_cons (measure_of_mem_rawMarks hmark)] at h
  have ht := h rfl _ (List.mem_append_left _ (List.mem_singleton_self _)) rfl
  rw [String.toList_ofList, List.take_of_length_le (Nat.le_succ _)] at ht
  exact ht hmark

/-- Letters introduce a string in front of its quote only. -/
theorem eq_quote_of_literal? {word : List Char} {next : Option Char} {len : List Char → Nat}
    (h : literal? word next = some (.string, len)) : next = some '"' := by
  rcases literal?_cases h with ⟨hnext, -⟩ | ⟨quote, hnext, ⟨rfl, -⟩ | ⟨-, hkind⟩, -⟩
  · exact hnext
  · exact hnext
  · cases hkind

/-- A string literal of a whole text has a quote. -/
theorem quote_mem_of_string {cs : List Char}
    (h : (Lexer.measure none c cs).kind? = some .string) :
    '"' ∈ c :: cs.take (Lexer.measure none c cs).further := by
  by_cases hquote : c = '"'
  · rw [hquote]
    exact List.mem_cons_self
  have hname : startsName c = true := by
    by_contra hname
    rw [Lexer.measure] at h
    split_ifs at h <;> first | exact hquote (by assumption) | cases h
  rw [measure_of_startsName hname] at h ⊢
  obtain ⟨tail, rest, rfl, htail, hrest⟩ := exists_divided continuesName cs
  rw [measureName_append none htail hrest, next?_none] at h ⊢
  cases hliteral : literal? (c :: tail) rest.head? with
  | none =>
    rw [hliteral] at h
    cases h
  | some literal =>
    obtain ⟨kind, len⟩ := literal
    rw [hliteral] at h
    obtain rfl : kind = .string := Option.some.inj h
    obtain ⟨body, rfl⟩ := List.head?_eq_some_iff.mp (eq_quote_of_literal? hliteral)
    dsimp only
    rw [Nat.add_assoc, List.take_length_add_append, Nat.add_comm 1, List.take_succ_cons]
    simp

/-- No token of a whole text is a bare mark. -/
theorem keepsMarks_tokens (next : Option Char) (pos : Nat) (cs : List Char) :
    KeepsMarks next (tokens none pos cs) := by
  intro _ t ht hkind hmark
  have hquote : ∀ w ∈ rawMarks, '"' ∉ w := by decide
  refine hquote _ hmark ?_
  fun_induction tokens none pos cs with
  | case1 => cases ht
  | case2 pos c cs m text tail kind hkind' ih =>
    rcases List.mem_cons.mp ht with rfl | ht
    · rw [String.toList_ofList]
      exact quote_mem_of_string (hkind' ▸ congrArg some hkind)
    · exact ih ht
  | case3 pos c cs m text tail hkind' ih => exact ih ht

/-- **One round** reads what begins at the cursor, and goes on with what is behind it. -/
theorem readFrom?_cons {m : Measure} (hm : Lexer.measure rest.head? c us = m)
    (h : Reads source i (c :: us ++ rest)) (hstop : stop = i + byteLength (c :: us))
    (hraw : rest.head? = some '"' → c :: us ∉ rawMarks) :
    readFrom? source stop i =
        (readFrom? source stop (i + byteLength (c :: us.take m.further))).map
          ((m.kind?.map (⟨·, i, String.ofList (c :: us.take m.further)⟩)).toList ++ ·) ∧
      Reads source (i + byteLength (c :: us.take m.further)) (us.drop m.further ++ rest) ∧
      stop = i + byteLength (c :: us.take m.further) + byteLength (us.drop m.further) := by
  have hstep := step?_eq h hstop hraw
  rw [hm] at hstep
  have hus : c :: us = (c :: us.take m.further) ++ us.drop m.further := by
    rw [List.cons_append, List.take_append_drop]
  rw [hus, byteLength_append, ← Nat.add_assoc] at hstop
  rw [hus, List.append_assoc] at h
  have hpos : 0 < byteLength (c :: us.take m.further) := by
    have hlen := c.utf8Size_pos
    rw [byteLength]
    omega
  refine ⟨?_, h.append, hstop⟩
  rw [readFrom?, if_pos (by omega), hstep]
  simp only [if_pos (Nat.lt_add_of_pos_right hpos)]
  rw [Nat.min_eq_left (by omega), h.cut]
  cases m.kind? with
  | none => cases readFrom? source stop (i + byteLength (c :: us.take m.further)) <;> rfl
  | some kind => rfl

/-- **The cursor goes with the lexer** to the end of the range. -/
theorem readFrom?_eq (h : Reads source i (us ++ rest)) (hstop : stop = i + byteLength us)
    (hmarks : KeepsMarks rest.head? (tokens rest.head? i us)) :
    readFrom? source stop i = some (tokens rest.head? i us) := by
  induction hn : us.length using Nat.strongRecOn generalizing us i with
  | ind n ih =>
    cases us with
    | nil => rw [readFrom?, if_neg (by rw [hstop]; exact Nat.lt_irrefl _), tokens]
    | cons c cs =>
      obtain ⟨hround, hreads, hend⟩ := readFrom?_cons rfl h hstop hmarks.front
      rw [tokens_cons rfl] at hmarks ⊢
      have hlt : (cs.drop (Lexer.measure rest.head? c cs).further).length < n := by
        rw [← hn, List.length_drop, List.length_cons]
        omega
      rw [hround, ih _ hlt hreads hend
        (fun hquote t ht => hmarks hquote t (List.mem_append_right _ ht)) rfl, Option.map_some]

/-- The cursor goes from the start of a range to its end. -/
theorem readIn?_of_toList {cs vs : List Char} (h : source.toList = us ++ cs ++ vs) :
    readIn? source (.ofLength (byteLength us) (byteLength cs)) =
        readFrom? source (byteLength us + byteLength cs) (byteLength us) ∧
      Reads source (byteLength us) (cs ++ vs) := by
  have hsize : byteLength us + byteLength cs ≤ source.utf8ByteSize := by
    rw [← byteLength_toList, h, byteLength_append, byteLength_append]
    omega
  refine ⟨?_, us, by rw [h, List.append_assoc], rfl⟩
  exact congrArg (readFrom? source · (byteLength us)) (Nat.min_eq_left hsize)

/-- **The cursor reads the tokens of a range** between boundaries. -/
theorem readIn?_eq {cs vs : List Char} (h : source.toList = us ++ cs ++ vs)
    (hmarks : KeepsMarks vs.head? (tokens vs.head? (byteLength us) cs)) :
    readIn? source (.ofLength (byteLength us) (byteLength cs)) =
      some (tokenizeIn source (.ofLength (byteLength us) (byteLength cs))) := by
  obtain ⟨hread, hreads⟩ := readIn?_of_toList h
  rw [tokenizeIn_eq h, hread, readFrom?_eq hreads rfl hmarks]

/-- **The cursor reads the tokens of every text**: it moves on in every round, looks at and cuts
what is there, and divides no character. -/
theorem read?_eq (source : String) : read? source = some (tokenize source) := by
  have h : source.toList = [] ++ source.toList ++ [] := by rw [List.nil_append, List.append_nil]
  have hread := readIn?_eq h (fun hnone => nomatch hnone)
  rw [tokenizeIn_eq h, byteLength_toList] at hread
  have hspan : Span.ofLength (byteLength []) source.utf8ByteSize = ⟨0, source.utf8ByteSize⟩ :=
    congrArg (Span.mk 0) (Nat.zero_add _)
  rw [hspan] at hread
  exact hread

end Cursor

end CudaToHip
