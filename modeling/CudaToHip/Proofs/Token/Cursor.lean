import CudaToHip.Proofs.Text.Bytes
import CudaToHip.Proofs.Token.Stable
import CudaToHip.Token.Cursor

/-!
# Reading tokens byte by byte

The lexer reads characters. The same tokens can be read by a cursor that goes over the bytes of the
text, where everything that could go wrong may fail (`Cursor.readFrom?`). None of it does, and the
tokens are those of the lexer (`Cursor.readIn?_eq`, `Cursor.read?_eq`), unless the range ends just
behind the letters of a raw string, whose quote is then looked at but out of the range.

* `Cursor.step?_eq`: one round, from the front of one thing to the front of the next one.
* `Cursor.Reads.any_look?`: no test that treats all characters outside of ASCII alike tells a
  character from its first byte.
-/

namespace CudaToHip

namespace Cursor

open Lexer Text

/-! ## What the cursor sees -/

/-- From byte `i` on the text reads `cs`. -/
def Reads (source : String) (i : Nat) (cs : List Char) : Prop :=
  ∃ us, source.toList = us ++ cs ∧ i = byteLength us

/-- The test treats all characters outside of ASCII alike. -/
def Flat (p : Char → Bool) : Prop := ∀ c d : Char, 0x80 ≤ c.toNat → 0x80 ≤ d.toNat → p c = p d

/-- What a byte of the character `c` looks like: the character itself, or it is outside of ASCII and
so are all of its bytes. -/
def Alike (c d : Char) : Prop := d = c ∨ 0x80 ≤ c.toNat ∧ 0x80 ≤ d.toNat

variable {source : String} {stop i j : Nat} {c d : Char} {cs us rest : List Char} {p : Char → Bool}

theorem Flat.eq (hp : Flat p) (h : Alike c d) : p d = p c := by
  rcases h with rfl | ⟨hc, hd⟩
  · rfl
  · exact hp d c hd hc

theorem Alike.ne {x : Char} (h : Alike c d) (hc : c ≠ x) (hx : x.toNat < 0x80) : d ≠ x := by
  rcases h with rfl | ⟨-, hd⟩
  · exact hc
  · rintro rfl
    omega

theorem flat_of_forall {b : Bool} (h : ∀ c : Char, 0x80 ≤ c.toNat → p c = b) : Flat p :=
  fun c d hc hd => by rw [h c hc, h d hd]

theorem ne_of_le {x : Char} (hx : x.toNat < 0x80) (hc : 0x80 ≤ c.toNat) : c ≠ x := by
  rintro rfl
  omega

theorem flat_eq {x : Char} (hx : x.toNat < 0x80) : Flat (· = x) :=
  flat_of_forall fun _ hc => decide_eq_false (ne_of_le hx hc)

theorem isAlphanum_of_le (hc : 0x80 ≤ c.toNat) : c.isAlphanum = false := by
  have hval : 0x80 ≤ c.val.toNat := hc
  unfold Char.isAlphanum Char.isAlpha Char.isUpper Char.isLower Char.isDigit
  simp only [Bool.or_eq_false_iff, Bool.and_eq_false_iff, decide_eq_false_iff_not, ge_iff_le,
    UInt32.le_iff_toNat_le]
  have hupper : 'Z'.val.toNat = 90 := rfl
  have hlower : 'z'.val.toNat = 122 := rfl
  have hnine : '9'.val.toNat = 57 := rfl
  omega

theorem isDigit_of_le (hc : 0x80 ≤ c.toNat) : c.isDigit = false :=
  (Bool.or_eq_false_iff.mp (isAlphanum_of_le hc)).2

namespace Reads

theorem append (h : Reads source i (us ++ cs)) : Reads source (i + byteLength us) cs := by
  obtain ⟨vs, hvs, rfl⟩ := h
  exact ⟨vs ++ us, by rw [hvs, List.append_assoc], (byteLength_append vs us).symm⟩

theorem cons (h : Reads source i (c :: cs)) : Reads source (i + c.utf8Size) cs :=
  (show Reads source i ([c] ++ cs) from h).append

/-- The cut of the characters that stand at the cursor. -/
theorem cut (h : Reads source i (us ++ cs)) :
    slice? source i (i + byteLength us) = some (String.ofList us) := by
  obtain ⟨vs, hvs, rfl⟩ := h
  exact slice?_of_toList (hvs.trans (List.append_assoc vs us cs).symm)

/-- Every byte of the character at the cursor is there and looks like it. -/
theorem exists_look? (h : Reads source i (c :: cs)) (hj : j < c.utf8Size) :
    ∃ d, look? source (i + j) = some d ∧ Alike c d := by
  obtain ⟨us, hus, rfl⟩ := h
  have hlen : j < (String.utf8EncodeChar c).length := by rwa [String.length_utf8EncodeChar]
  refine ⟨Char.ofUInt8 (String.utf8EncodeChar c)[j], ?_, ?_⟩
  · rw [look?, byte?_eq, hus, getElem?_encode hj, List.getElem?_eq_getElem hlen]
    rfl
  · by_cases hc : c.toNat < 0x80
    · have hbyte := List.getElem_mem hlen
      generalize (String.utf8EncodeChar c)[j] = b at hbyte
      rw [utf8EncodeChar_ascii hc, List.mem_singleton] at hbyte
      refine Or.inl (Char.ext (UInt32.toNat_inj.mp ?_))
      show b.toNat = c.toNat
      rw [hbyte]
      exact Nat.mod_eq_of_lt (Nat.lt_trans hc (by decide))
    · exact Or.inr ⟨Nat.not_lt.mp hc,
        le_of_mem_utf8EncodeChar (Nat.not_lt.mp hc) _ (List.getElem_mem hlen)⟩

theorem front (h : Reads source i (c :: cs)) : ∃ d, look? source i = some d ∧ Alike c d :=
  exists_look? (j := 0) h c.utf8Size_pos

/-- A character of ASCII is under the cursor as it is. -/
theorem look?_ascii (h : Reads source i (c :: us ++ rest)) (hc : c.toNat < 0x80) :
    look? source i = some c ∧ Reads source (i + 1) (us ++ rest) := by
  obtain ⟨d, hd, rfl | ⟨hle, -⟩⟩ := h.front
  · exact ⟨hd, utf8Size_ascii hc ▸ h.cons⟩
  · omega

/-- **A test of the byte under the cursor** is one of the character there. -/
theorem any_look? (h : Reads source i cs) (hp : Flat p) :
    (look? source i).any p = cs.head?.any p := by
  cases cs with
  | nil =>
    obtain ⟨us, hus, rfl⟩ := h
    rw [Cursor.look?, byte?_eq_none (by rw [← byteLength_toList, hus, List.append_nil])]
    rfl
  | cons c cs =>
    obtain ⟨d, hd, halike⟩ := h.front
    rw [hd, List.head?_cons, Option.any_some, Option.any_some, hp.eq halike]

theorem look?_eq_some_iff {x : Char} (h : Reads source i cs) (hx : x.toNat < 0x80) :
    look? source i = some x ↔ cs.head? = some x := by
  have hiff (o : Option Char) : o = some x ↔ o.any (· = x) = true := by
    cases o <;> simp
  rw [hiff, hiff cs.head?, h.any_look? (flat_eq hx)]

end Reads

/-! ## The loops -/

/-- A loop that goes on from each of some bytes goes on behind them. -/
theorem eq_add_of_goesOn {f : Nat → Option Nat} {n : Nat}
    (h : ∀ j < n, f (i + j) = f (i + j + 1)) : f i = f (i + n) := by
  induction n with
  | zero => rfl
  | succ n ih =>
    rw [ih fun j hj => h j (Nat.lt_succ_of_lt hj), h n (Nat.lt_succ_self n), Nat.add_assoc]

/-- A loop passes over the bytes of a character that it takes, as they look like it. -/
theorem skipWhile?_pass {n : Nat} (h : ∀ j < n, ∃ d, look? source (i + j) = some d ∧ p d = true)
    (hstop : i + n ≤ stop) : skipWhile? source stop p i = skipWhile? source stop p (i + n) := by
  refine eq_add_of_goesOn (f := skipWhile? source stop p) fun j hj => ?_
  obtain ⟨d, hd, hp⟩ := h j hj
  rw [skipWhile?, if_pos (by omega), hd]
  exact if_pos hp

/-- **Skipping what passes a test.** -/
theorem skipWhile?_eq (hp : Flat p) (h : Reads source i (us ++ rest))
    (hstop : stop = i + byteLength us) :
    skipWhile? source stop p i = some (i + byteLength (us.takeWhile p)) := by
  induction us generalizing i with
  | nil =>
    rw [skipWhile?, if_neg (by rw [hstop]; exact Nat.lt_irrefl _)]
    rfl
  | cons c us ih =>
    have hsize := c.utf8Size_pos
    rw [byteLength] at hstop
    cases hc : p c with
    | true =>
      have hpass : skipWhile? source stop p i = skipWhile? source stop p (i + c.utf8Size) := by
        refine skipWhile?_pass (fun j hj => ?_) (by omega)
        obtain ⟨d, hd, halike⟩ := h.exists_look? hj
        exact ⟨d, hd, by rw [hp.eq halike, hc]⟩
      rw [hpass, ih h.cons (by omega), List.takeWhile_cons_of_pos hc, byteLength, Nat.add_assoc]
    | false =>
      obtain ⟨d, hd, halike⟩ := h.front
      rw [skipWhile?, if_pos (by omega), hd, List.takeWhile_cons_of_neg (by simp [hc])]
      simp only [hp.eq halike, hc]
      rfl

theorem skipBlockComment?_pass {n : Nat} (h : ∀ j < n, ∃ d, look? source (i + j) = some d ∧ d ≠ '*')
    (hstop : i + n ≤ stop) :
    skipBlockComment? source stop i = skipBlockComment? source stop (i + n) := by
  refine eq_add_of_goesOn (f := skipBlockComment? source stop) fun j hj => ?_
  obtain ⟨d, hd, hstar⟩ := h j hj
  rw [skipBlockComment?, if_pos (by omega), hd]
  exact if_neg fun hend => hstar hend.1

/-- **The end of a block comment.** -/
theorem skipBlockComment?_eq (h : Reads source i (us ++ rest)) (hstop : stop = i + byteLength us) :
    skipBlockComment? source stop i =
      some (i + byteLength (us.take (blockCommentLength rest.head? us))) := by
  induction us generalizing i with
  | nil =>
    rw [skipBlockComment?, if_neg (by rw [hstop]; exact Nat.lt_irrefl _), hstop]
    show some (min (i + 2) i) = some i
    rw [Nat.min_eq_right (Nat.le_add_right i 2)]
  | cons c us ih =>
    have hsize := c.utf8Size_pos
    rw [byteLength] at hstop
    by_cases hend : c = '*' ∧ next? rest.head? us = some '/'
    · obtain ⟨rfl, hnext⟩ := hend
      obtain ⟨hlook, hbehind⟩ := h.look?_ascii (by decide)
      rw [blockCommentLength, if_pos ⟨rfl, hnext⟩]
      rw [next?_head?] at hnext
      rw [skipBlockComment?, if_pos (by omega), hlook]
      simp only [hbehind.look?_eq_some_iff (x := '/') (by decide), hnext, and_self, if_true]
      -- the slash is in the range or just behind it
      have hstar : '*'.utf8Size = 1 := rfl
      cases us with
      | nil =>
        simp only [List.take_succ_cons, List.take_nil, byteLength] at hstop ⊢
        congr 1
        omega
      | cons d us =>
        obtain rfl := Option.some.inj hnext
        have hslash : '/'.utf8Size = 1 := rfl
        simp only [List.take_succ_cons, List.take_zero, byteLength] at hstop ⊢
        congr 1
        omega
    · have hstep : skipBlockComment? source stop i =
          skipBlockComment? source stop (i + c.utf8Size) := by
        by_cases hc : c = '*'
        · subst hc
          obtain ⟨hlook, hbehind⟩ := h.look?_ascii (by decide)
          have hnext : ¬ look? source (i + 1) = some '/' := by
            rw [hbehind.look?_eq_some_iff (by decide), ← next?_head?]
            exact fun hnext => hend ⟨rfl, hnext⟩
          rw [skipBlockComment?, if_pos (by omega), hlook]
          exact if_neg fun h => hnext h.2
        · refine skipBlockComment?_pass (fun j hj => ?_) (by omega)
          obtain ⟨d, hd, halike⟩ := h.exists_look? hj
          exact ⟨d, hd, halike.ne hc (by decide)⟩
      rw [hstep, ih h.cons (by omega), blockCommentLength, if_neg hend, Nat.add_comm 1,
        List.take_succ_cons, byteLength, Nat.add_assoc]

theorem skipQuoted?_pass {quote : Char} {n : Nat}
    (h : ∀ j < n, ∃ d, look? source (i + j) = some d ∧ d ≠ '\\' ∧ d ≠ '\n' ∧ d ≠ quote)
    (hstop : i + n ≤ stop) :
    skipQuoted? source stop quote i = skipQuoted? source stop quote (i + n) := by
  refine eq_add_of_goesOn (f := skipQuoted? source stop quote) fun j hj => ?_
  obtain ⟨d, hd, hescape, hline, hquote⟩ := h j hj
  rw [skipQuoted?, if_pos (by omega), hd]
  simp only [if_neg hescape, if_neg hline, if_neg hquote]

/-- **The end of a quoted literal.** -/
theorem skipQuoted?_eq {quote : Char} (hquote : quote.toNat < 0x80)
    (h : Reads source i (us ++ rest)) (hstop : stop = i + byteLength us) :
    skipQuoted? source stop quote i =
      some (i + byteLength (us.take (quotedLength quote us))) := by
  have hback : '\\'.utf8Size = 1 := rfl
  fun_induction quotedLength quote us generalizing i with
  | case1 =>
    rw [skipQuoted?, if_neg (by rw [hstop]; exact Nat.lt_irrefl _), hstop]
    rfl
  | case2 =>
    obtain ⟨hlook, -⟩ := h.look?_ascii (by decide)
    simp only [byteLength, hback] at hstop
    rw [skipQuoted?, if_pos (by omega), hlook]
    simp only [if_true]
    rw [skipQuoted?, if_neg (by omega), hstop]
    rfl
  | case3 e us ih =>
    obtain ⟨hlook, hbehind⟩ := h.look?_ascii (by decide)
    have hsize := e.utf8Size_pos
    simp only [byteLength, hback] at hstop
    rw [skipQuoted?, if_pos (by omega), hlook]
    simp only [if_true]
    -- the escape leads into the character, and its other bytes are passed over
    have hpass : skipQuoted? source stop quote (i + 2) =
        skipQuoted? source stop quote (i + 2 + (e.utf8Size - 1)) := by
      refine skipQuoted?_pass (fun j hj => ?_) (by omega)
      have he : 0x80 ≤ e.toNat := by
        by_contra he
        have hone := utf8Size_ascii (Nat.not_le.mp he)
        omega
      obtain ⟨d, hd, halike⟩ := hbehind.exists_look? (j := j + 1) (by omega)
      have hne {x : Char} (hx : x.toNat < 0x80) : d ≠ x := halike.ne (ne_of_le hx he) hx
      refine ⟨d, ?_, hne (by decide), hne (by decide), hne hquote⟩
      rw [← hd]
      congr 1
      omega
    have hnext : i + 2 + (e.utf8Size - 1) = i + 1 + e.utf8Size := by omega
    rw [hpass, hnext, ih hbehind.cons (by omega), Nat.add_comm 2, List.take_succ_cons,
      List.take_succ_cons, byteLength, byteLength, hback, Nat.add_assoc, Nat.add_assoc]
  | case4 us =>
    obtain ⟨hlook, -⟩ := h.look?_ascii (by decide)
    have hline : '\n'.utf8Size = 1 := rfl
    simp only [byteLength, hline] at hstop
    rw [skipQuoted?, if_pos (by omega), hlook]
    rfl
  | case5 us hlast hmore hline =>
    have hescape := ne_escape hlast hmore
    obtain ⟨hlook, -⟩ := h.look?_ascii hquote
    rw [byteLength_cons_ascii hquote] at hstop
    rw [skipQuoted?, if_pos (by omega), hlook]
    simp only [if_neg hescape, if_neg hline, if_true, List.take_succ_cons, List.take_zero,
      byteLength_cons_ascii hquote]
    rfl
  | case6 c us hlast hmore hline hc ih =>
    have hescape := ne_escape hlast hmore
    have hsize := c.utf8Size_pos
    rw [byteLength] at hstop
    have hpass : skipQuoted? source stop quote i =
        skipQuoted? source stop quote (i + c.utf8Size) := by
      refine skipQuoted?_pass (fun j hj => ?_) (by omega)
      obtain ⟨d, hd, halike⟩ := h.exists_look? hj
      exact ⟨d, hd, halike.ne hescape (by decide), halike.ne hline (by decide),
        halike.ne hc hquote⟩
    rw [hpass, ih h.cons (by omega), Nat.add_comm 1, List.take_succ_cons, byteLength,
      Nat.add_assoc]

/-- The characters that a number goes on with, signs apart, are of ASCII. -/
theorem goesOn_of_le (hc : 0x80 ≤ c.toNat) :
    (c.isAlphanum || c = '_' || c = '.' || c = '\'') = false := by
  simp [isAlphanum_of_le hc, ne_of_le (x := '_') (by decide) hc,
    ne_of_le (x := '.') (by decide) hc, ne_of_le (x := '\'') (by decide) hc]

theorem sign_of_le (hc : 0x80 ≤ c.toNat) : (c = '+' || c = '-') = false := by
  simp [ne_of_le (x := '+') (by decide) hc, ne_of_le (x := '-') (by decide) hc]

/-- **The end of a number.** -/
theorem skipNumber?_eq {last : Char} (h : Reads source i (us ++ rest)) (hi : 0 < i)
    (hlast : look? source (i - 1) = some last) (hstop : stop = i + byteLength us) :
    skipNumber? source stop i = some (i + byteLength (us.take (numberLength last us))) := by
  fun_induction numberLength last us generalizing i with
  | case1 =>
    rw [skipNumber?, if_neg (by rw [hstop]; exact Nat.lt_irrefl _)]
    rfl
  | case2 last c us hc ih =>
    have hascii : c.toNat < 0x80 := by
      by_contra hle
      rw [goesOn_of_le (Nat.not_lt.mp hle)] at hc
      cases hc
    obtain ⟨hlook, hbehind⟩ := h.look?_ascii hascii
    rw [byteLength_cons_ascii hascii] at hstop
    rw [skipNumber?, if_pos (by omega), hlook, hlast]
    simp only [if_pos hc]
    rw [ih hbehind (Nat.succ_pos i) hlook (by omega), Nat.add_comm 1, List.take_succ_cons,
      byteLength_cons_ascii hascii, Nat.add_assoc]
  | case3 last c us hc hsign ih =>
    have hascii : c.toNat < 0x80 := by
      by_contra hle
      rw [sign_of_le (Nat.not_lt.mp hle)] at hsign
      cases hsign
    obtain ⟨hlook, hbehind⟩ := h.look?_ascii hascii
    rw [byteLength_cons_ascii hascii] at hstop
    rw [skipNumber?, if_pos (by omega), hlook, hlast]
    simp only [if_neg hc, if_pos hsign]
    rw [ih hbehind (Nat.succ_pos i) hlook (by omega), Nat.add_comm 1, List.take_succ_cons,
      byteLength_cons_ascii hascii, Nat.add_assoc]
  | case4 last c us hc hsign =>
    obtain ⟨d, hd, halike⟩ := h.front
    have hsize := c.utf8Size_pos
    rw [byteLength] at hstop
    have hgoesOn : (d.isAlphanum || d = '_' || d = '.' || d = '\'') =
        (c.isAlphanum || c = '_' || c = '.' || c = '\'') :=
      (flat_of_forall fun _ => goesOn_of_le).eq halike
    have hsign' : (d = '+' || d = '-') = (c = '+' || c = '-') :=
      (flat_of_forall (p := fun c => c = '+' || c = '-') fun _ => sign_of_le).eq halike
    rw [skipNumber?, if_pos (by omega), hd, hlast]
    simp only [hgoesOn, hsign', if_neg hc, if_neg hsign]
    rfl

/-- A word of one character is found where it first occurs. -/
theorem countBefore_singleton (x : Char) (cs : List Char) :
    countBefore [x] cs = if x ∈ cs then some (cs.takeWhile (· ≠ x)).length else none := by
  induction cs with
  | nil => rfl
  | cons c cs ih =>
    by_cases hc : c = x
    · subst hc
      simp [countBefore]
    · have hfront : [x].isPrefixOf (c :: cs) = false := by
        rw [List.isPrefixOf_cons_cons, beq_false_of_ne (Ne.symm hc), Bool.false_and]
      have hmem : x ∈ c :: cs ↔ x ∈ cs := by
        rw [List.mem_cons, or_iff_right (Ne.symm hc)]
      have htake : (c :: cs).takeWhile (· ≠ x) = c :: cs.takeWhile (· ≠ x) :=
        List.takeWhile_cons_of_pos (decide_eq_true hc)
      rw [countBefore, hfront, ih, if_neg Bool.false_ne_true, htake]
      simp only [hmem]
      split <;> rfl

theorem find?_ofList (cs word : List Char) : find? (String.ofList cs) word =
    (countBefore word cs).map fun n => byteLength (cs.take n) := by
  rw [find?, String.toList_ofList]

/-- **The end of a raw string**, whose opening quote is in the range. -/
theorem skipRaw?_eq (h : Reads source i ('"' :: us ++ rest))
    (hstop : stop = i + byteLength ('"' :: us)) :
    skipRaw? source stop i = some (i + 1 + byteLength (us.take (rawLength us))) := by
  have hquote : byteLength ('"' :: us) = 1 + byteLength us := rfl
  obtain ⟨-, hbody⟩ := h.look?_ascii (by decide)
  have hcut : slice? source (i + 1) stop = some (String.ofList us) := by
    rw [hstop, hquote, ← Nat.add_assoc]
    exact hbody.cut
  unfold skipRaw?
  rw [hcut]
  simp only [Option.bind_eq_bind, Option.bind_some, find?_ofList, countBefore_singleton]
  obtain ⟨delimiter, behind, rfl, hdelimiter, hbehind⟩ := exists_divided (· ≠ '(') us
  replace hdelimiter : ∀ x ∈ delimiter, x ≠ '(' := by simpa using hdelimiter
  have htake : (delimiter ++ behind).takeWhile (· ≠ '(') = delimiter :=
    takeWhile_append_stop (by simpa using hdelimiter) hbehind
  rw [rawLength_append hdelimiter hbehind, htake]
  cases behind with
  | nil =>
    have hnone : ¬ '(' ∈ delimiter ++ [] := by
      rw [List.append_nil]
      exact fun hmem => hdelimiter _ hmem rfl
    rw [if_neg hnone, hstop, hquote]
    simp [countBefore, Nat.add_assoc]
  | cons x behind =>
    obtain rfl : x = '(' := by simpa using hbehind
    have hmem : '(' ∈ delimiter ++ '(' :: behind := by simp
    rw [if_pos hmem]
    simp only [Option.map_some, List.take_left, slice?_ofList_left, slice?_ofList_right,
      Option.bind_some, find?_ofList, String.toList_ofList]
    cases hfound : countBefore (')' :: delimiter ++ ['"']) ('(' :: behind) with
    | none =>
      simp only [Option.map_none, Option.getD_none, List.take_length, hstop, hquote, Nat.add_assoc]
    | some n =>
      obtain ⟨us, vs, hdiv, hn, -⟩ := countBefore_eq_some hfound
      have hlen : n + (delimiter.length + 2) = (us ++ (')' :: delimiter ++ ['"'])).length := by
        simp [hn]
      have htaken : ('(' :: behind).take n = us := by
        rw [hdiv, List.append_assoc, ← hn, List.take_left]
      simp only [Option.map_some, Option.getD_some, htaken]
      rw [Nat.add_assoc delimiter.length, List.take_length_add_append, hlen, hdiv, List.take_left,
        byteLength_append, byteLength_append]
      simp only [byteLength_append, Nat.add_assoc]

end Cursor

end CudaToHip
