import CudaToHip.Token.Lexer
import Mathlib.Data.List.Find
import Mathlib.Data.List.TakeWhile

/-!
# What the lexer takes when the text behind it changes

The lexer decides by looking ahead: letters before a quote open a literal, a number swallows
letters, of two punctuators the longer one is taken. `Respelled` relates two texts that differ in
the spelling of names in ASCII, at any places and of any lengths. No decision of the lexer tells
such texts apart, since every test on what follows a token looks for a character that begins no
name.

* `StableAt`: a length read off the front of a text that stays when what is behind it is respelled.
  All lengths that the lexer reads are of this kind.
* `measure_respelled`: so is what begins at a character.
* `measure_plainName`: a name in ASCII that is no mark of literals is an identifier, whatever
  follows it.
-/

namespace CudaToHip.Lexer

variable {c : Char} {cs ds : List Char}

/-- A letter of ASCII or an underscore. -/
def startsPlain (c : Char) : Bool := c.isAlpha || c = '_'

/-- A name in ASCII. -/
def isPlainName : List Char → Bool
  | [] => false
  | c :: cs => startsPlain c && cs.all fun d => d.isAlphanum || d = '_'

/-- The second text is the first one with names in ASCII at some places exchanged for others. The
names are any pieces of the text, not only its tokens. -/
inductive Respelled : List Char → List Char → Prop
  | nil : Respelled [] []
  | kept (c : Char) {cs ds : List Char} : Respelled cs ds → Respelled (c :: cs) (c :: ds)
  | renamed {a b : Char} {word word' cs ds : List Char} : isPlainName (a :: word) = true →
      isPlainName (b :: word') = true → Respelled cs ds →
      Respelled (a :: (word ++ cs)) (b :: (word' ++ ds))

/-! ## Names -/

theorem continuesName_of_startsPlain (h : startsPlain c = true) : continuesName c = true := by
  unfold startsPlain at h
  unfold continuesName Char.isAlphanum
  rcases Bool.or_eq_true _ _ ▸ h with h | h
  · simp [h]
  · simp [h]

theorem startsName_of_startsPlain (h : startsPlain c = true) : startsName c = true := by
  unfold startsPlain at h
  unfold startsName
  rw [h]
  rfl

theorem startsPlain_eq_false (h : continuesName c = false) : startsPlain c = false := by
  by_contra hp
  rw [continuesName_of_startsPlain (by simpa using hp)] at h
  cases h

/-- A test tells the characters apart. -/
theorem ne_of_test {p : Char → Bool} {x : Char} (hc : p c = true) (hx : p x = false) : c ≠ x := by
  rintro rfl
  rw [hx] at hc
  cases hc

theorem isDigit_of_startsPlain (h : startsPlain c = true) : c.isDigit = false := by
  unfold startsPlain Char.isAlpha Char.isUpper Char.isLower at h
  simp only [Bool.or_eq_true, Bool.and_eq_true, decide_eq_true_eq, UInt32.le_iff_toNat_le,
    ge_iff_le] at h
  simp only [Char.isDigit, Bool.and_eq_false_iff, decide_eq_false_iff_not, ge_iff_le,
    UInt32.le_iff_toNat_le]
  have hupper : 'A'.val.toNat = 65 := rfl
  have hlower : 'a'.val.toNat = 97 := rfl
  have hnine : '9'.val.toNat = 57 := rfl
  rcases h with h | rfl
  · omega
  · decide

theorem isPlainName_cons {word : List Char} (h : isPlainName (c :: word) = true) :
    startsPlain c = true ∧ ∀ x ∈ word, continuesName x = true := by
  obtain ⟨hc, hword⟩ := Bool.and_eq_true _ _ ▸ h
  refine ⟨hc, fun x hx => ?_⟩
  have hx := List.all_eq_true.mp hword x hx
  simp only [Bool.or_eq_true] at hx
  unfold continuesName
  rcases hx with hx | hx
  · simp [hx]
  · simp [hx]

@[simp] theorem next?_none (cs : List Char) : next? none cs = cs.head? := Option.or_none

/-- What follows is the same when some of what is behind is taken for the range. -/
theorem next?_append (after : Option Char) (us rest : List Char) :
    next? (next? after rest) us = next? after (us ++ rest) := by
  simp only [next?, List.head?_append, Option.or_assoc]

theorem next?_head? (us rest : List Char) : next? rest.head? us = (us ++ rest).head? := by
  rw [← next?_none rest, next?_append, next?_none]

theorem next?_none_eq_some_iff (x : Char) (cs : List Char) :
    next? none cs = some x ↔ cs.head?.any (· == x) = true := by
  cases cs <;> simp [next?]

theorem exists_cons_of_next? {x : Char} (h : next? none cs = some x) : ∃ rest, cs = x :: rest := by
  rw [next?, Option.or_none] at h
  exact List.head?_eq_some_iff.mp h

/-! ## What a respelled text begins with -/

namespace Respelled

theorem refl : ∀ cs : List Char, Respelled cs cs
  | [] => .nil
  | c :: cs => .kept c (refl cs)

theorem append_left (us : List Char) (h : Respelled cs ds) : Respelled (us ++ cs) (us ++ ds) := by
  induction us with
  | nil => exact h
  | cons u us ih => exact .kept u ih

theorem eq_nil (h : Respelled [] ds) : ds = [] := by
  cases h
  rfl

/-- Only a name in ASCII is exchanged, and for one. -/
theorem cons_inv (h : Respelled (c :: cs) ds) :
    (∃ es, ds = c :: es ∧ Respelled cs es) ∨
      startsPlain c = true ∧ ∃ d es, ds = d :: es ∧ startsPlain d = true := by
  cases h with
  | kept _ h => exact Or.inl ⟨_, rfl, h⟩
  | renamed ha hb _ => exact Or.inr ⟨(isPlainName_cons ha).1, _, _, rfl, (isPlainName_cons hb).1⟩

theorem cons_of_not_plain (h : Respelled (c :: cs) ds) (hc : startsPlain c = false) :
    ∃ es, ds = c :: es ∧ Respelled cs es := by
  rcases h.cons_inv with h | ⟨hc', -⟩
  · exact h
  · rw [hc] at hc'
    cases hc'

/-- A test that no beginning of a plain name passes does not tell the texts apart. -/
theorem any_head?_eq {p : Char → Bool} (h : Respelled cs ds)
    (hp : ∀ c, startsPlain c = true → p c = false) : ds.head?.any p = cs.head?.any p := by
  cases h with
  | nil => rfl
  | kept c _ => rfl
  | renamed ha hb _ =>
    simp only [List.head?_cons, Option.any_some, hp _ (isPlainName_cons ha).1,
      hp _ (isPlainName_cons hb).1]

theorem next?_eq_some_iff (h : Respelled cs ds) (x : Char) (hx : startsPlain x = false) :
    next? none ds = some x ↔ next? none cs = some x := by
  have hp : ∀ c, startsPlain c = true → (c == x) = false :=
    fun c hc => beq_eq_false_iff_ne.mpr (ne_of_test hc hx)
  rw [next?_none_eq_some_iff, next?_none_eq_some_iff, h.any_head?_eq hp]

/-- A word of characters that go on no name stands in front of both texts or of neither. -/
theorem isPrefixOf_eq {w : List Char} (h : Respelled cs ds)
    (hw : ∀ x ∈ w, continuesName x = false) : w.isPrefixOf ds = w.isPrefixOf cs := by
  induction w generalizing cs ds with
  | nil => simp
  | cons x w ih =>
    obtain ⟨hx, hw⟩ := List.forall_mem_cons.mp hw
    have hne {a : Char} (ha : startsPlain a = true) : (x == a) = false :=
      beq_eq_false_iff_ne.mpr (ne_of_test ha (startsPlain_eq_false hx)).symm
    cases h with
    | nil => rfl
    | kept c h => rw [List.isPrefixOf_cons_cons, List.isPrefixOf_cons_cons, ih h hw]
    | renamed ha hb _ =>
      rw [List.isPrefixOf_cons_cons, List.isPrefixOf_cons_cons, hne (isPlainName_cons ha).1,
        hne (isPlainName_cons hb).1]
      rfl

end Respelled

/-! ## Lengths that stay -/

/-- The length that is read off the front of `cs` stays when what is behind it is respelled. -/
def StableAt (len : List Char → Nat) (cs : List Char) : Prop :=
  ∀ ds, Respelled (cs.drop (len cs)) ds → len (cs.take (len cs) ++ ds) = len cs

namespace StableAt

variable {len len' : List Char → Nat}

/-- There is nothing behind a length that takes everything. -/
theorem of_length_le (h : cs.length ≤ len cs) : StableAt len cs := by
  intro ds hds
  rw [List.drop_of_length_le h] at hds
  rw [hds.eq_nil, List.append_nil, List.take_of_length_le h]

/-- A length that goes on behind `us` with one that stays. -/
theorem append (us : List Char)
    (hstep : ∀ es, Respelled cs es → len (us ++ es) = us.length + len' es)
    (h : StableAt len' cs) : StableAt len (us ++ cs) := by
  intro ds hds
  rw [hstep cs (.refl cs), List.drop_length_add_append] at hds
  have hes : Respelled cs (cs.take (len' cs) ++ ds) := by
    simpa using hds.append_left (cs.take (len' cs))
  rw [hstep cs (.refl cs), List.take_length_add_append, List.append_assoc, hstep _ hes, h ds hds]

theorem cons (hstep : ∀ es, Respelled cs es → len (c :: es) = 1 + len' es)
    (h : StableAt len' cs) : StableAt len (c :: cs) :=
  append [c] hstep h

/-- A length that ends with `us`, whatever follows. -/
theorem of_front (us : List Char) (h : ∀ es, len (us ++ es) = us.length) :
    StableAt len (us ++ cs) := by
  have hnone : StableAt (fun _ => 0) cs := fun _ _ => rfl
  exact append us (fun es _ => h es) hnone

/-- A length that ends in front of a character that begins no plain name. -/
theorem stop (hc : startsPlain c = false) (hstop : ∀ es, len (c :: es) = 0) :
    StableAt len (c :: cs) := by
  intro ds hds
  rw [hstop cs, List.drop_zero] at hds
  obtain ⟨es, rfl, -⟩ := hds.cons_of_not_plain hc
  rw [hstop cs, List.take_zero, List.nil_append, hstop es]

end StableAt

/-- What a test takes, if all beginnings of plain names pass it. -/
theorem stableAt_takeWhile {p : Char → Bool} (hp : ∀ c, startsPlain c = true → p c = true)
    (cs : List Char) : StableAt (fun cs => (cs.takeWhile p).length) cs := by
  induction cs with
  | nil => exact .of_length_le (Nat.le_refl _)
  | cons c cs ih =>
    cases hc : p c with
    | true =>
      refine .cons (fun es _ => ?_) ih
      rw [List.takeWhile_cons_of_pos hc, List.length_cons, Nat.add_comm]
    | false =>
      have hplain : startsPlain c = false := by
        by_contra hplain
        rw [hp c (by simpa using hplain)] at hc
        cases hc
      refine .stop hplain fun es => ?_
      rw [List.takeWhile_cons_of_neg (by simp [hc])]
      rfl

theorem stableAt_blockCommentLength (cs : List Char) : StableAt (blockCommentLength none) cs := by
  induction cs with
  | nil => exact .of_length_le (Nat.le_refl _)
  | cons c cs ih =>
    by_cases hend : c = '*' ∧ next? none cs = some '/'
    · obtain ⟨rfl, hnext⟩ := hend
      obtain ⟨cs, rfl⟩ := exists_cons_of_next? hnext
      exact .of_front ['*', '/'] fun es => by simp [blockCommentLength, next?]
    · refine .cons (fun es hes => ?_) ih
      rw [← hes.next?_eq_some_iff '/' (by decide)] at hend
      rw [blockCommentLength, if_neg hend]

/-- Neither an escape nor the end of the line. -/
theorem quotedLength_cons {quote : Char} (hescape : c ≠ '\\') (hline : c ≠ '\n')
    (cs : List Char) :
    quotedLength quote (c :: cs) = if c = quote then 1 else 1 + quotedLength quote cs := by
  rw [quotedLength]
  · exact fun h => absurd h hescape
  · exact fun _ _ h => absurd h hescape
  · exact hline

/-- What is neither the last escape nor one with a character behind it is none. -/
theorem ne_escape (hlast : c = '\\' → cs = [] → False)
    (hmore : ∀ d es, c = '\\' → cs = d :: es → False) : c ≠ '\\' := fun hc => by
  cases cs with
  | nil => exact hlast hc rfl
  | cons d es => exact hmore d es hc rfl

theorem stableAt_quotedLength (quote : Char) (cs : List Char) :
    StableAt (quotedLength quote) cs := by
  fun_induction quotedLength quote cs with
  | case1 => exact .of_length_le (Nat.le_refl _)
  | case2 => exact .of_length_le (Nat.le_refl _)
  | case3 d cs ih => exact .append ['\\', d] (fun es _ => by simp [quotedLength]) ih
  | case4 cs => exact .stop (by decide) fun es => by simp [quotedLength]
  | case5 cs hlast hmore hline =>
    refine .of_front [quote] fun es => ?_
    rw [List.singleton_append, quotedLength_cons (ne_escape hlast hmore) hline, if_pos rfl]
    rfl
  | case6 c cs hlast hmore hline hc ih =>
    refine .cons (fun es _ => ?_) ih
    rw [quotedLength_cons (ne_escape hlast hmore) hline, if_neg hc]

theorem stableAt_numberLength (last : Char) (cs : List Char) :
    StableAt (numberLength last) cs := by
  fun_induction numberLength last cs with
  | case1 => exact .of_length_le (Nat.le_refl _)
  | case2 last c cs hc ih =>
    refine .cons (fun es _ => ?_) ih
    rw [numberLength, if_pos hc]
  | case3 last c cs hc hsign ih =>
    refine .cons (fun es _ => ?_) ih
    rw [numberLength, if_neg hc, if_pos hsign]
  | case4 last c cs hc hsign =>
    have hplain : startsPlain c = false := by
      simp only [Char.isAlphanum, Bool.or_eq_true, not_or, Bool.not_eq_true] at hc
      simp only [startsPlain, Bool.or_eq_false_iff]
      exact ⟨hc.1.1.1.1, hc.1.1.2⟩
    refine .stop hplain fun es => ?_
    rw [numberLength, if_neg hc, if_neg hsign]

/-- A test takes the characters in front of the first that fails it. -/
theorem takeWhile_append_stop {p : Char → Bool} (h : ∀ x ∈ cs, p x = true)
    (hstop : ds.head?.any p = false) : (cs ++ ds).takeWhile p = cs := by
  rw [List.takeWhile_append_of_pos h]
  cases ds with
  | nil => rw [List.takeWhile_nil, List.append_nil]
  | cons d ds =>
    rw [List.takeWhile_cons_of_neg (by simpa using hstop), List.append_nil]

/-- Every text divides into what a test takes and what begins with a character that fails it. -/
theorem exists_divided (p : Char → Bool) (cs : List Char) :
    ∃ us vs, cs = us ++ vs ∧ (∀ x ∈ us, p x = true) ∧ vs.head?.any p = false := by
  refine ⟨cs.takeWhile p, cs.dropWhile p, List.takeWhile_append_dropWhile.symm,
    fun x hx => List.mem_takeWhile_imp hx, ?_⟩
  cases h : cs.dropWhile p with
  | nil => rfl
  | cons d ds =>
    have hhead := List.head?_dropWhile_not p cs
    rw [h] at hhead
    simpa using hhead

theorem countBefore_append_self (w es : List Char) : countBefore w (w ++ es) = some 0 := by
  cases h : w ++ es with
  | nil =>
    rw [(List.append_eq_nil_iff.mp h).1]
    rfl
  | cons c cs =>
    have hprefix : w.isPrefixOf (c :: cs) = true := h ▸ List.isPrefixOf_iff_prefix.mpr ⟨es, rfl⟩
    rw [countBefore, if_pos hprefix]

/-- Where a word is found does not depend on what comes behind it. -/
theorem countBefore_eq_some {w : List Char} {n : Nat} (h : countBefore w cs = some n) :
    ∃ us vs, cs = us ++ w ++ vs ∧ us.length = n ∧
      ∀ es, countBefore w (us ++ w ++ es) = some n := by
  fun_induction countBefore w cs generalizing n with
  | case1 hw =>
    obtain rfl := List.isEmpty_iff.mp hw
    obtain rfl := Option.some.inj h
    exact ⟨[], [], rfl, rfl, countBefore_append_self []⟩
  | case2 => cases h
  | case3 c cs hprefix =>
    obtain ⟨vs, hvs⟩ := List.isPrefixOf_iff_prefix.mp hprefix
    obtain rfl := Option.some.inj h
    exact ⟨[], vs, hvs.symm, rfl, countBefore_append_self w⟩
  | case4 c cs hprefix ih =>
    obtain ⟨m, hm, rfl⟩ := Option.map_eq_some_iff.mp h
    obtain ⟨us, vs, rfl, hus, hfound⟩ := ih hm
    refine ⟨c :: us, vs, rfl, congrArg (· + 1) hus, fun es => ?_⟩
    have hnot : ¬ w.isPrefixOf (c :: (us ++ w ++ es)) = true := by
      rw [List.isPrefixOf_iff_prefix] at hprefix ⊢
      intro hes
      have hshort : w <+: c :: (us ++ w) :=
        List.prefix_of_prefix_length_le hes ⟨es, rfl⟩ (by simp; omega)
      exact hprefix (hshort.trans ⟨vs, rfl⟩)
    rw [List.cons_append, List.cons_append, countBefore, if_neg hnot, hfound]
    rfl

/-- The length of a raw string by the parts in front of and from its opening parenthesis on. -/
theorem rawLength_append {delimiter rest : List Char} (hdelimiter : ∀ x ∈ delimiter, x ≠ '(')
    (hrest : rest.head?.any (· ≠ '(') = false) :
    rawLength (delimiter ++ rest) =
      ((countBefore (')' :: delimiter ++ ['"']) rest).map
        (delimiter.length + · + (delimiter.length + 2))).getD (delimiter ++ rest).length := by
  have htake : (delimiter ++ rest).takeWhile (· ≠ '(') = delimiter :=
    takeWhile_append_stop (by simpa using hdelimiter) hrest
  unfold rawLength
  simp only [htake, List.drop_left]
  cases h : countBefore (')' :: delimiter ++ ['"']) rest with
  | none => rfl
  | some n => simp

theorem stableAt_rawLength (cs : List Char) : StableAt rawLength cs := by
  obtain ⟨delimiter, rest, rfl, hdelimiter, hrest⟩ := exists_divided (· ≠ '(') cs
  replace hdelimiter : ∀ x ∈ delimiter, x ≠ '(' := by simpa using hdelimiter
  cases hfound : countBefore (')' :: delimiter ++ ['"']) rest with
  | none =>
    refine .of_length_le ?_
    rw [rawLength_append hdelimiter hrest, hfound]
    exact Nat.le_refl _
  | some n =>
    obtain ⟨us, vs, rfl, hn, hes⟩ := countBefore_eq_some hfound
    rw [← List.append_assoc]
    refine .of_front _ fun es => ?_
    have hhead : (us ++ (')' :: delimiter ++ ['"']) ++ es).head?.any (· ≠ '(') = false := by
      cases us with
      | nil => exact hrest
      | cons u us => exact hrest
    rw [List.append_assoc, rawLength_append hdelimiter hhead, hes]
    simp [hn]
    omega

/-! ## What begins at a character -/

/-- The literal that a word introduces in front of a character: its kind, and how much of what is
behind that character belongs to it. -/
def literal? (word : List Char) : Option Char → Option (TokenKind × (List Char → Nat))
  | some '"' =>
    if rawMarks.contains word then some (.string, rawLength)
    else if encodings.contains word then some (.string, quotedLength '"')
    else none
  | some '\'' => if encodings.contains word then some (.char, quotedLength '\'') else none
  | _ => none

/-- What a word introduces is a raw string or a quoted literal. -/
theorem literal?_cases {word : List Char} {next : Option Char} {kind : TokenKind}
    {len : List Char → Nat} (h : literal? word next = some (kind, len)) :
    (next = some '"' ∧ word ∈ rawMarks ∧ kind = .string ∧ len = rawLength) ∨
      ∃ quote, next = some quote ∧ (quote = '"' ∧ kind = .string ∨ quote = '\'' ∧ kind = .char) ∧
        word ∈ encodings ∧ len = quotedLength quote := by
  unfold literal? at h
  split at h
  · split_ifs at h with hraw hencoding
    · cases h
      exact Or.inl ⟨rfl, List.contains_iff_mem.mp hraw, rfl, rfl⟩
    · cases h
      exact Or.inr ⟨'"', rfl, Or.inl ⟨rfl, rfl⟩, List.contains_iff_mem.mp hencoding, rfl⟩
  · split_ifs at h with hencoding
    cases h
    exact Or.inr ⟨'\'', rfl, Or.inr ⟨rfl, rfl⟩, List.contains_iff_mem.mp hencoding, rfl⟩
  · cases h

/-- What a word has to be to introduce a literal, and what the literal is. -/
theorem literal?_eq_some {word : List Char} {next : Option Char} {kind : TokenKind}
    {len : List Char → Nat} (h : literal? word next = some (kind, len)) :
    word ∈ encodings ++ rawMarks ∧ kind ≠ .identifier ∧ ∀ cs, StableAt len cs := by
  rcases literal?_cases h with ⟨-, hmark, rfl, rfl⟩ | ⟨quote, -, hkind, hmark, rfl⟩
  · exact ⟨List.mem_append_right _ hmark, nofun, stableAt_rawLength⟩
  · refine ⟨List.mem_append_left _ hmark, ?_, stableAt_quotedLength quote⟩
    rcases hkind with ⟨-, rfl⟩ | ⟨-, rfl⟩ <;> nofun

/-- No word introduces a literal in front of a plain name. -/
theorem literal?_of_startsPlain (word : List Char) (hc : startsPlain c = true) :
    literal? word (some c) = none := by
  unfold literal?
  split
  · rename_i h
    cases h
    cases hc
  · rename_i h
    cases h
    cases hc
  · rfl

theorem Respelled.literal?_eq (h : Respelled cs ds) (word : List Char) :
    literal? word ds.head? = literal? word cs.head? := by
  cases h with
  | nil => rfl
  | kept c _ => rfl
  | renamed ha hb _ =>
    rw [List.head?_cons, List.head?_cons, literal?_of_startsPlain word (isPlainName_cons ha).1,
      literal?_of_startsPlain word (isPlainName_cons hb).1]

/-- The name or literal that begins with a word, by what follows the word. -/
theorem measureName_append (after : Option Char) {tail rest : List Char}
    (htail : ∀ x ∈ tail, continuesName x = true) (hrest : rest.head?.any continuesName = false) :
    measureName after c (tail ++ rest) =
      match literal? (c :: tail) (next? after rest) with
      | some (kind, len) => ⟨some kind, tail.length + 1 + len (rest.drop 1)⟩
      | none => ⟨some .identifier, tail.length⟩ := by
  unfold measureName
  simp only [takeWhile_append_stop htail hrest, List.drop_left]
  generalize next? after rest = next
  split
  · simp only [literal?]
    split_ifs <;> rfl
  · simp only [literal?]
    split_ifs <;> rfl
  · rename_i hdouble hsingle
    have hnone : literal? (c :: tail) next = none := by
      unfold literal?
      split
      · exact absurd rfl hdouble
      · exact absurd rfl hsingle
      · rfl
    rw [hnone]

/-- No respelling makes a text go on a name that it did not go on before. -/
theorem Respelled.any_continuesName (h : Respelled cs ds)
    (hcs : cs.head?.any continuesName = false) : ds.head?.any continuesName = false := by
  cases h with
  | nil => rfl
  | kept c _ => exact hcs
  | renamed ha hb _ =>
    rw [List.head?_cons, Option.any_some,
      continuesName_of_startsPlain (isPlainName_cons ha).1] at hcs
    cases hcs

theorem measureName_respelled (h : Respelled (cs.drop (measureName none c cs).further) ds) :
    measureName none c (cs.take (measureName none c cs).further ++ ds) = measureName none c cs := by
  obtain ⟨tail, rest, rfl, htail, hrest⟩ := exists_divided continuesName cs
  have hm := measureName_append (c := c) none htail hrest
  rw [next?_none] at hm
  cases hliteral : literal? (c :: tail) rest.head? with
  | none =>
    rw [hliteral] at hm
    simp only [hm, List.drop_left, List.take_left] at h ⊢
    rw [measureName_append none htail (h.any_continuesName hrest), next?_none, h.literal?_eq,
      hliteral]
  | some literal =>
    obtain ⟨kind, len⟩ := literal
    obtain ⟨quote, body, rfl⟩ : ∃ quote body, rest = quote :: body := by
      cases rest with
      | nil => cases hliteral
      | cons quote body => exact ⟨quote, body, rfl⟩
    rw [hliteral] at hm
    simp only [List.drop_succ_cons, List.drop_zero] at hm
    have hword : tail ++ quote :: body = (tail ++ [quote]) ++ body := by simp
    have hlen : tail.length + 1 + len body = (tail ++ [quote]).length + len body := by simp
    simp only [hm] at h ⊢
    rw [hword, hlen, List.drop_length_add_append] at h
    have hquote : (quote :: (body.take (len body) ++ ds)).head?.any continuesName = false := hrest
    have hliteral' : literal? (c :: tail) (quote :: (body.take (len body) ++ ds)).head? =
        some (kind, len) := hliteral
    rw [hword, hlen, List.take_length_add_append, List.append_assoc, List.append_assoc,
      List.singleton_append, measureName_append none htail hquote, next?_none, hliteral']
    simp only [List.drop_succ_cons, List.drop_zero, (literal?_eq_some hliteral).2.2 body ds h,
      List.length_append, List.length_singleton]

theorem punctFurther_congr (h : ∀ p ∈ longPuncts, p.isPrefixOf ds = p.isPrefixOf cs) :
    punctFurther ds = punctFurther cs := by
  rw [punctFurther, List.find?_congr h, punctFurther]

/-- Punctuators stand in front of both texts or of neither. -/
theorem Respelled.punctFurther_eq (h : Respelled cs ds) : punctFurther ds = punctFurther cs := by
  have hpuncts : ∀ p ∈ longPuncts, ∀ x ∈ p, continuesName x = false := by
    have hall : longPuncts.all (·.all (!continuesName ·)) = true := by decide
    simpa only [List.all_eq_true, Bool.not_eq_true'] using hall
  exact punctFurther_congr fun p hp => h.isPrefixOf_eq (hpuncts p hp)

/-- **What the lexer takes stays**: what begins at a character is the same when the text behind it
is respelled. -/
theorem measure_respelled (h : Respelled (cs.drop (measure none c cs).further) ds) :
    measure none c (cs.take (measure none c cs).further ++ ds) = measure none c cs := by
  obtain ⟨n, hn⟩ : ∃ n, n = (measure none c cs).further := ⟨_, rfl⟩
  rw [← hn] at h ⊢
  have hall : Respelled cs (cs.take n ++ ds) := by
    simpa using h.append_left (cs.take n)
  -- both texts pass the tests that decide what begins here
  have hnl := hall.next?_eq_some_iff '\n' (by decide)
  have hcr := hall.next?_eq_some_iff '\r' (by decide)
  have hslash := hall.next?_eq_some_iff '/' (by decide)
  have hstar := hall.next?_eq_some_iff '*' (by decide)
  have hdigit : (next? none (cs.take n ++ ds)).any Char.isDigit =
      (next? none cs).any Char.isDigit := by
    simpa only [next?, Option.or_none] using hall.any_head?_eq (fun _ => isDigit_of_startsPlain)
  rw [measure] at hn
  rw [measure, measure]
  simp only [hnl, hcr, hslash, hstar, hdigit]
  split_ifs at hn ⊢ with hblank hline hblock hstring hchar hname hnumber
  · rfl
  · -- a comment up to the end of the line
    obtain rfl : n = (cs.takeWhile (· ≠ '\n')).length := hn
    exact congrArg (Measure.mk none)
      (stableAt_takeWhile (fun d hd => decide_eq_true (ne_of_test hd rfl)) cs ds h)
  · -- a comment with an end mark
    obtain ⟨body, rfl⟩ : ∃ body, cs = '*' :: body :=
      exists_cons_of_next? (of_decide_eq_true (Bool.and_eq_true _ _ ▸ hblock).2)
    obtain rfl : n = 1 + blockCommentLength none body := hn
    have hlen : StableAt (fun cs => 1 + blockCommentLength none (cs.drop 1)) ('*' :: body) :=
      .cons (fun _ _ => rfl) (stableAt_blockCommentLength body)
    exact congrArg (Measure.mk none) (hlen ds h)
  · obtain rfl : n = quotedLength '"' cs := hn
    exact congrArg (Measure.mk _) (stableAt_quotedLength '"' cs ds h)
  · obtain rfl : n = quotedLength '\'' cs := hn
    exact congrArg (Measure.mk _) (stableAt_quotedLength '\'' cs ds h)
  · subst hn
    exact measureName_respelled h
  · obtain rfl : n = numberLength c cs := hn
    exact congrArg (Measure.mk _) (stableAt_numberLength c cs ds h)
  · exact congrArg (Measure.mk _) (Respelled.kept c hall).punctFurther_eq

/-! ## Names and what they are exchanged for -/

theorem continuesName_of_startsName (h : startsName c = true) : continuesName c = true := by
  unfold startsName at h
  unfold continuesName Char.isAlphanum
  simp only [Bool.or_eq_true] at h ⊢
  exact h.imp_left (Or.imp_left Or.inl)

theorem isBlank_of_startsName (h : startsName c = true) : isBlank c = false := by
  have hne {x : Char} (hx : startsName x = false) : c ≠ x := ne_of_test h hx
  simp [isBlank, hne (x := ' ') (by decide), hne (x := '\t') (by decide),
    hne (x := '\n') (by decide), hne (x := '\x0c') (by decide), hne (x := '\r') (by decide)]

theorem measure_of_startsName (h : startsName c = true) (after : Option Char) (cs : List Char) :
    measure after c cs = measureName after c cs := by
  have hne {x : Char} (hx : startsName x = false) : c ≠ x := ne_of_test h hx
  simp [measure, h, isBlank_of_startsName h, hne (x := '\\') (by decide),
    hne (x := '/') (by decide), hne (x := '"') (by decide), hne (x := '\'') (by decide)]

/-- An identifier is a word that introduces no literal where it stands. -/
theorem exists_of_identifier (h : (measure none c cs).kind? = some .identifier) :
    ∃ tail rest, cs = tail ++ rest ∧ rest.head?.any continuesName = false ∧
      (measure none c cs).further = tail.length := by
  have hname : startsName c = true := by
    by_contra hname
    rw [measure] at h
    split_ifs at h <;> cases h
  rw [measure_of_startsName hname] at h ⊢
  obtain ⟨tail, rest, rfl, htail, hrest⟩ := exists_divided continuesName cs
  refine ⟨tail, rest, rfl, hrest, ?_⟩
  rw [measureName_append none htail hrest, next?_none] at h ⊢
  cases hliteral : literal? (c :: tail) rest.head? with
  | none => rfl
  | some literal =>
    rw [hliteral] at h
    exact absurd (Option.some.inj h) (literal?_eq_some hliteral).2.1

/-- A plain name that is no mark of literals is an identifier, whatever follows it. -/
theorem measure_plainName {tail rest : List Char} (hname : isPlainName (c :: tail) = true)
    (hmark : c :: tail ∉ encodings ++ rawMarks) (hrest : rest.head?.any continuesName = false) :
    measure none c (tail ++ rest) = ⟨some .identifier, tail.length⟩ := by
  obtain ⟨hc, htail⟩ := isPlainName_cons hname
  rw [measure_of_startsName (startsName_of_startsPlain hc), measureName_append none htail hrest,
    next?_none]
  cases hliteral : literal? (c :: tail) rest.head? with
  | none => rfl
  | some literal => exact absurd (literal?_eq_some hliteral).1 hmark

end CudaToHip.Lexer
