import CudaToHip.Proofs.Token.CursorTokens
import Mathlib.Data.List.Basic

/-!
# A range read by itself

A range of a text is read up to its end, but the lexer is shown the character behind it. That
character can make something else of the last token: letters in front of a quote become a literal, a
point in front of a digit a number, and a backslash or slash the front of a broken line or of a
comment (`Token.kindBefore?`). Where it makes nothing else of it, the range has the tokens of its
own text, moved to where the range starts. Byte by byte, the letters of a raw string in front of its
quote cannot be read at all: what is to stand between the quotes is cut from behind the end of the
range.

* `Lexer.measure_behind`: what begins at a character, with and without the character behind.
* `Lexer.tokens_behind`: so all that is shown differently is a token at the end.
* `range_reads_like_its_text`: what is read of a range.
* `cut_letters_are_a_literal`: letters cut off their literal are still taken for one.
-/

namespace CudaToHip

/-- The token, if the text in front of its own is `n` bytes longer. -/
def Token.moved (n : Nat) (t : Token) : Token := { t with start := n + t.start }

/-- What the lexer takes a token for if it is shown the character `next` behind it: a token of a
certain kind, or something to skip. -/
def Token.kindBefore? (next : Char) (t : Token) : Option TokenKind :=
  match t.kind with
  | .identifier =>
    if next = '"' ∧ t.text.toList ∈ Lexer.encodings ++ Lexer.rawMarks then some .string
    else if next = '\'' ∧ t.text.toList ∈ Lexer.encodings then some .char
    else some .identifier
  | .punct =>
    if t.text = "\\" ∧ (next = '\n' ∨ next = '\r') then none
    else if t.text = "/" ∧ (next = '/' ∨ next = '*') then none
    else if t.text = "." ∧ next.isDigit = true then some .number
    else some .punct
  | kind => some kind

/-- The token, if the character `after` is shown behind the end of the text. -/
def Token.shown? (after : Option Char) (stop : Nat) (t : Token) : Option Token :=
  match after with
  | some next =>
    if t.span.stop = stop then (t.kindBefore? next).map fun kind => { t with kind } else some t
  | none => some t

namespace Lexer

open Text

variable {after : Option Char} {pos : Nat} {c next : Char} {cs us rest : List Char}

/-! ## Moving a text -/

theorem tokens_moved (after : Option Char) (n pos : Nat) (cs : List Char) :
    tokens after (n + pos) cs = (tokens after pos cs).map (Token.moved n) := by
  induction hn : cs.length using Nat.strongRecOn generalizing pos cs with
  | ind k ih =>
    cases cs with
    | nil => rw [tokens, tokens, List.map_nil]
    | cons c cs =>
      have hlt : (cs.drop (Lexer.measure after c cs).further).length < k := by
        rw [← hn, List.length_drop, List.length_cons]
        omega
      rw [tokens_cons rfl, tokens_cons rfl, Nat.add_assoc, ih _ hlt _ _ rfl, List.map_append]
      cases (Lexer.measure after c cs).kind? <;> rfl

/-! ## The character behind the end -/

/-- What a word introduces in front of the character behind the text. -/
theorem kindBefore?_identifier (next : Char) (pos : Nat) (word : List Char) :
    Token.kindBefore? next ⟨.identifier, pos, String.ofList word⟩ =
      some (((literal? word (some next)).map Prod.fst).getD .identifier) := by
  unfold Token.kindBefore? literal?
  simp only [String.toList_ofList, List.contains_iff_mem, List.mem_append]
  by_cases hdouble : next = '"'
  · subst hdouble
    by_cases hraw : word ∈ rawMarks
    · simp [hraw]
    · by_cases hencoding : word ∈ encodings
      · simp [hraw, hencoding]
      · simp [hraw, hencoding]
  · by_cases hsingle : next = '\''
    · subst hsingle
      by_cases hencoding : word ∈ encodings
      · simp [hencoding]
      · simp [hencoding]
    · simp [hdouble, hsingle]

/-- Only identifiers and three single characters are taken for something else. -/
theorem kindBefore?_of_ne {kind : TokenKind} {text : List Char} (next : Char) (pos : Nat)
    (hkind : kind ≠ .identifier) (htext : ∀ x ∈ ['\\', '/', '.'], text ≠ [x]) :
    Token.kindBefore? next ⟨kind, pos, String.ofList text⟩ = some kind := by
  have hne {x : Char} (hx : x ∈ ['\\', '/', '.']) : String.ofList text ≠ String.ofList [x] :=
    String.ofList_inj.not.mpr (htext x hx)
  cases kind with
  | identifier => exact absurd rfl hkind
  | punct =>
    unfold Token.kindBefore?
    dsimp only
    rw [if_neg fun h => hne (x := '\\') (by decide) h.1,
      if_neg fun h => hne (x := '/') (by decide) h.1,
      if_neg fun h => hne (x := '.') (by decide) h.1]
  | number => rfl
  | string => rfl
  | char => rfl

theorem take_blockCommentLength (next : Char) (cs : List Char) :
    cs.take (blockCommentLength (some next) cs) = cs.take (blockCommentLength none cs) := by
  induction cs with
  | nil => rfl
  | cons c cs ih =>
    have hstep (after : Option Char) : blockCommentLength after (c :: cs) =
        if c = '*' ∧ next? after cs = some '/' then 2 else 1 + blockCommentLength after cs := rfl
    rw [hstep (some next), hstep none]
    cases cs with
    | nil => split_ifs <;> rfl
    | cons d cs =>
      have hnext : next? (some next) (d :: cs) = next? none (d :: cs) := rfl
      rw [hnext]
      split_ifs
      · rfl
      · rw [Nat.add_comm 1, Nat.add_comm 1, List.take_succ_cons, List.take_succ_cons, ih]

/-- What is read differently when the character `next` is shown behind `cs`: nothing but the kind of
something that goes on to the end. -/
structure ReadBehind (next c : Char) (cs : List Char) (m m' : Measure) : Prop where
  take : cs.take m'.further = cs.take m.further
  kind? : m'.kind? =
    if cs.length ≤ m.further then
      m.kind?.bind fun kind => Token.kindBefore? next ⟨kind, 0, String.ofList (c :: cs)⟩
    else m.kind?

theorem measureName_behind (next c : Char) (cs : List Char) :
    ReadBehind next c cs (measureName none c cs) (measureName (some next) c cs) := by
  obtain ⟨tail, rest, rfl, htail, hrest⟩ := exists_divided continuesName cs
  rw [measureName_append none htail hrest, measureName_append (some next) htail hrest]
  cases rest with
  | nil =>
    have hnone : literal? (c :: tail) (next? none []) = none := rfl
    have hsome : next? (some next) [] = some next := rfl
    rw [hnone, hsome, List.append_nil]
    cases hliteral : literal? (c :: tail) (some next) with
    | none =>
      refine ⟨rfl, ?_⟩
      simp only [le_refl, if_true, Option.bind_some, kindBefore?_identifier, hliteral]
      rfl
    | some literal =>
      refine ⟨?_, ?_⟩
      · rw [List.take_length, List.take_of_length_le]
        dsimp only
        omega
      · simp only [le_refl, if_true, Option.bind_some, kindBefore?_identifier, hliteral]
        rfl
  | cons d rest =>
    have hsome : next? (some next) (d :: rest) = next? none (d :: rest) := rfl
    rw [hsome]
    cases hliteral : literal? (c :: tail) (next? none (d :: rest)) with
    | none =>
      refine ⟨rfl, ?_⟩
      rw [if_neg]
      simp
    | some literal =>
      refine ⟨rfl, ?_⟩
      have hkind := (literal?_eq_some hliteral).2.1
      have htext : ∀ x ∈ ['\\', '/', '.'], c :: (tail ++ d :: rest) ≠ [x] := by simp
      simp only [Option.bind_some, kindBefore?_of_ne next 0 hkind htext, ite_self]

/-- A single character that begins no name, with the one behind it. -/
theorem kind?_measure_nil (hname : ¬ startsName c = true) (next : Char) :
    (Lexer.measure (some next) c []).kind? =
      (Lexer.measure none c []).kind?.bind fun kind =>
        Token.kindBefore? next ⟨kind, 0, String.ofList [c]⟩ := by
  by_cases hspecial : c ∈ ['\\', '/', '.']
  · simp only [List.mem_cons, List.not_mem_nil, or_false] at hspecial
    rcases hspecial with rfl | rfl | rfl
    · by_cases hline : next = '\n' ∨ next = '\r'
      · rcases hline with rfl | rfl <;> decide
      · simp [Lexer.measure, next?, Token.kindBefore?, Lexer.isBlank, startsName, hline]
    · by_cases hcomment : next = '/' ∨ next = '*'
      · rcases hcomment with rfl | rfl <;> decide
      · rw [not_or] at hcomment
        simp [Lexer.measure, next?, Token.kindBefore?, Lexer.isBlank, startsName, hcomment]
    · by_cases hdigit : next.isDigit = true
      · simp [Lexer.measure, next?, Token.kindBefore?, Lexer.isBlank, startsName, hdigit]
      · simp [Lexer.measure, next?, Token.kindBefore?, Lexer.isBlank, startsName, hdigit]
  · have hpoint : c ≠ '.' := by
      rintro rfl
      exact hspecial (by decide)
    have hslash : c ≠ '/' := by
      rintro rfl
      exact hspecial (by decide)
    have hbackslash : c ≠ '\\' := by
      rintro rfl
      exact hspecial (by decide)
    have hkept {kind : TokenKind} (hkind : kind ≠ .identifier) :
        some kind = Token.kindBefore? next ⟨kind, 0, String.ofList [c]⟩ := by
      refine (kindBefore?_of_ne next 0 hkind fun x hx h => ?_).symm
      exact hspecial ((List.cons.inj h).1 ▸ hx)
    unfold Lexer.measure
    simp only [hpoint, hslash, hbackslash, hname, decide_false, Bool.false_and, Bool.or_false,
      Bool.false_eq_true, if_false]
    split_ifs
    · rfl
    · exact hkept (by decide)
    · exact hkept (by decide)
    · exact hkept (by decide)
    · exact hkept (by decide)

/-- **What begins at a character** is the same without the character behind the text, but for
something that goes on to the end. -/
theorem measure_behind (next c : Char) (cs : List Char) :
    ReadBehind next c cs (Lexer.measure none c cs) (Lexer.measure (some next) c cs) := by
  by_cases hname : startsName c = true
  · rw [measure_of_startsName hname, measure_of_startsName hname]
    exact measureName_behind next c cs
  cases cs with
  | nil => exact ⟨by rw [List.take_nil, List.take_nil], kind?_measure_nil hname next⟩
  | cons d cs =>
    have hnext : next? (some next) (d :: cs) = next? none (d :: cs) := rfl
    have htext : ∀ x ∈ ['\\', '/', '.'], c :: d :: cs ≠ [x] := by simp
    have hkept {kind : TokenKind} {n : Nat} (hkind : kind ≠ .identifier) :
        ReadBehind next c (d :: cs) ⟨some kind, n⟩ ⟨some kind, n⟩ := by
      refine ⟨rfl, ?_⟩
      rw [Option.bind_some, kindBefore?_of_ne next 0 hkind htext, ite_self]
    have hskipped {n n' : Nat} (h : (d :: cs).take n' = (d :: cs).take n) :
        ReadBehind next c (d :: cs) ⟨none, n⟩ ⟨none, n'⟩ := ⟨h, (ite_self _).symm⟩
    unfold Lexer.measure
    rw [hnext]
    dsimp only
    split_ifs
    · exact hskipped rfl
    · exact hskipped rfl
    · refine hskipped ?_
      rw [Nat.add_comm 1, Nat.add_comm 1, List.take_succ_cons, List.take_succ_cons]
      exact congrArg (d :: ·) (take_blockCommentLength next cs)
    · exact hkept nofun
    · exact hkept nofun
    · exact hkept nofun
    · exact hkept nofun

theorem ReadBehind.drop {m m' : Measure} (h : ReadBehind next c cs m m') :
    cs.drop m'.further = cs.drop m.further := by
  have hcs := (List.take_append_drop m'.further cs).trans (List.take_append_drop m.further cs).symm
  rw [h.take] at hcs
  exact List.append_cancel_left hcs

/-- The first thing, with the character behind the text. -/
theorem ReadBehind.first {m m' : Measure} (h : ReadBehind next c cs m m') (pos : Nat) :
    (m'.kind?.map (⟨·, pos, String.ofList (c :: cs.take m'.further)⟩)).toList =
      (m.kind?.map (⟨·, pos, String.ofList (c :: cs.take m.further)⟩)).toList.filterMap
        (Token.shown? (some next) (pos + byteLength (c :: cs))) := by
  have hstop (kind : TokenKind) :
      (Token.span ⟨kind, pos, String.ofList (c :: cs.take m.further)⟩).stop =
        pos + byteLength (c :: cs) ↔ cs.length ≤ m.further := by
    have hcs : byteLength (c :: cs) =
        byteLength (c :: cs.take m.further) + byteLength (cs.drop m.further) := by
      rw [← byteLength_append, List.cons_append, List.take_append_drop]
    rw [stop_ofList, hcs, ← List.drop_eq_nil_iff]
    constructor
    · intro h
      exact eq_nil_of_byteLength (by omega)
    · intro h
      rw [h, byteLength, Nat.add_zero]
  rw [h.take, h.kind?]
  cases hkind : m.kind? with
  | none => simp
  | some kind =>
    simp only [Option.map_some, Option.toList_some, List.filterMap_cons, List.filterMap_nil,
      Token.shown?, hstop]
    split_ifs with hlen
    · have hpos : Token.kindBefore? next ⟨kind, pos, String.ofList (c :: cs)⟩ =
          Token.kindBefore? next ⟨kind, 0, String.ofList (c :: cs)⟩ := rfl
      rw [List.take_of_length_le hlen, hpos, Option.bind_some]
      cases Token.kindBefore? next ⟨kind, 0, String.ofList (c :: cs)⟩ <;> rfl
    · rfl

/-- **Only a token at the end** is shown differently. -/
theorem tokens_behind (after : Option Char) (pos : Nat) (cs : List Char) :
    tokens after pos cs =
      (tokens none pos cs).filterMap (Token.shown? after (pos + byteLength cs)) := by
  cases after with
  | none => exact List.filterMap_some.symm
  | some next =>
    induction hn : cs.length using Nat.strongRecOn generalizing pos cs with
    | ind k ih =>
      cases cs with
      | nil => rw [tokens, tokens, List.filterMap_nil]
      | cons c cs =>
        have h := measure_behind next c cs
        have hlt : (cs.drop (Lexer.measure none c cs).further).length < k := by
          rw [← hn, List.length_drop, List.length_cons]
          omega
        have hend : pos + byteLength (c :: cs.take (Lexer.measure none c cs).further) +
            byteLength (cs.drop (Lexer.measure none c cs).further) =
              pos + byteLength (c :: cs) := by
          rw [Nat.add_assoc, ← byteLength_append, List.cons_append, List.take_append_drop]
        rw [tokens_cons rfl, tokens_cons rfl, h.first, h.take, h.drop, ih _ hlt _ _ rfl,
          List.filterMap_append, hend]

end Lexer

/-! ## Byte by byte -/

namespace Cursor

open Lexer Text

variable {source : String} {stop i : Nat} {c : Char} {cs us rest : List Char}

theorem startsName_of_mem_rawMarks (h : c :: us ∈ rawMarks) :
    startsName c = true ∧ ∀ x ∈ us, continuesName x = true := by
  have hall : ∀ w ∈ rawMarks, w.head?.all startsName = true ∧ w.all continuesName = true := by
    decide
  obtain ⟨hfront, hword⟩ := hall _ h
  exact ⟨hfront, (List.forall_mem_cons.mp (List.all_eq_true.mp hword)).2⟩

/-- Nothing is cut from behind the end of the range. -/
theorem skipRaw?_behind (source : String) (stop : Nat) : skipRaw? source stop stop = none := by
  have hcut : slice? source (stop + 1) stop = none := dif_neg fun h => Nat.not_succ_le_self _ h.1
  unfold skipRaw?
  rw [hcut]
  rfl

/-- **Letters of a raw string** in front of its quote, which is out of the range, cannot be read. -/
theorem step?_of_mem_rawMarks (h : Reads source i (c :: us ++ rest))
    (hstop : stop = i + byteLength (c :: us)) (hmark : c :: us ∈ rawMarks)
    (hquote : rest.head? = some '"') : step? source stop i = none := by
  obtain ⟨hname, hus⟩ := startsName_of_mem_rawMarks hmark
  have hword : (c :: us).takeWhile continuesName = c :: us :=
    List.takeWhile_eq_self_iff.mpr
      (List.forall_mem_cons.mpr ⟨continuesName_of_startsName hname, hus⟩)
  have hlook : look? source (i + byteLength (c :: us)) = some '"' :=
    (h.append.look?_eq_some_iff (by decide)).mpr hquote
  rw [step?_of_startsName h hname]
  unfold name?
  rw [skipWhile?_eq flat_continuesName h hstop, hword]
  simp only [Option.bind_eq_bind, Option.bind_some, h.cut, String.toList_ofList, hlook,
    List.contains_iff_mem, hmark, and_self, if_true]
  rw [← hstop, skipRaw?_behind]
  rfl

/-- A mark in front of a quote out of the range takes all of the range. -/
theorem mem_rawMarks_of_measure (h : (Lexer.measure (some '"') c cs).kind? = some .string)
    (hmark : c :: cs.take (Lexer.measure (some '"') c cs).further ∈ rawMarks) :
    c :: cs ∈ rawMarks := by
  have hbehind := measure_behind '"' c cs
  rw [hbehind.take] at hmark
  rw [hbehind.kind?] at h
  split_ifs at h with hlen
  · rwa [List.take_of_length_le hlen] at hmark
  · have hquote : ∀ w ∈ rawMarks, '"' ∉ w := by decide
    exact absurd (quote_mem_of_string h) (hquote _ hmark)

/-- **The cursor fails** where such letters are at the end of the range. -/
theorem readFrom?_eq_none (h : Reads source i (us ++ rest)) (hstop : stop = i + byteLength us)
    (hmarks : ¬ KeepsMarks rest.head? (tokens rest.head? i us)) :
    readFrom? source stop i = none := by
  induction hn : us.length using Nat.strongRecOn generalizing us i with
  | ind n ih =>
    cases us with
    | nil =>
      rw [tokens] at hmarks
      exact absurd (fun _ _ ht => absurd ht List.not_mem_nil) hmarks
    | cons c cs =>
      by_cases hfront : rest.head? = some '"' ∧ c :: cs ∈ rawMarks
      · have hlen := c.utf8Size_pos
        rw [readFrom?, if_pos (by rw [hstop, byteLength]; omega),
          step?_of_mem_rawMarks h hstop hfront.2 hfront.1]
      · obtain ⟨hround, hreads, hend⟩ :=
          readFrom?_cons rfl h hstop fun hquote hmark => hfront ⟨hquote, hmark⟩
        rw [tokens_cons rfl] at hmarks
        have hlt : (cs.drop (Lexer.measure rest.head? c cs).further).length < n := by
          rw [← hn, List.length_drop, List.length_cons]
          omega
        -- the letters are not the first thing, as that would take all of the range
        have htail : ¬ KeepsMarks rest.head? (tokens rest.head?
            (i + byteLength (c :: cs.take (Lexer.measure rest.head? c cs).further))
            (cs.drop (Lexer.measure rest.head? c cs).further)) := by
          refine fun hkept => hmarks fun hquote t ht hkind hmark => ?_
          rcases List.mem_append.mp ht with ht | ht
          · obtain ⟨kind, hk, rfl⟩ := Option.map_eq_some_iff.mp (Option.mem_toList.mp ht)
            obtain rfl : kind = .string := hkind
            rw [hquote] at hk hmark
            rw [String.toList_ofList] at hmark
            exact hfront ⟨hquote, mem_rawMarks_of_measure hk hmark⟩
          · exact hkept hquote t ht hkind hmark
        rw [hround, ih _ hlt hreads hend htail rfl, Option.map_none]

theorem kind_of_kindBefore? {t : Token} {next : Char}
    (h : t.kindBefore? next = some .string) : t.kind = .identifier ∨ t.kind = .string := by
  unfold Token.kindBefore? at h
  split at h
  · exact Or.inl ‹_›
  · split_ifs at h <;> cases h
  · exact Or.inr (Option.some.inj h)

theorem shown?_of_mem_rawMarks {t : Token} (hkind : t.kind = .identifier)
    (hstop : t.span.stop = stop) (hmark : t.text.toList ∈ rawMarks) :
    t.shown? (some '"') stop = some { t with kind := .string } := by
  have hbefore : t.kindBefore? '"' = some .string := by
    unfold Token.kindBefore?
    rw [hkind]
    exact if_pos ⟨rfl, List.mem_append_right _ hmark⟩
  rw [Token.shown?, if_pos hstop, hbefore, Option.map_some]

/-- The text ends with the letters of a raw string, and the quote is behind it. -/
def CutMark (next : Option Char) (piece : String) : Prop :=
  next = some '"' ∧ ∃ t ∈ tokenize piece, t.kind = .identifier ∧
    t.span.stop = piece.utf8ByteSize ∧ t.text.toList ∈ rawMarks

theorem keepsMarks_moved (next : Option Char) (n : Nat) (ts : List Token) :
    KeepsMarks next (ts.map (Token.moved n)) ↔ KeepsMarks next ts := by
  simp only [KeepsMarks, List.forall_mem_map]
  rfl

/-- Letters that are shown their quote are an identifier of the text by itself. -/
theorem keepsMarks_iff (next : Option Char) (pos : Nat) (piece : String) :
    KeepsMarks next (tokens next pos piece.toList) ↔ ¬ CutMark next piece := by
  have hmoved := tokens_moved next pos 0 piece.toList
  rw [Nat.add_zero] at hmoved
  rw [hmoved, keepsMarks_moved, tokens_behind, Nat.zero_add, byteLength_toList, ← not_iff_not,
    not_not, KeepsMarks, Classical.not_imp]
  refine and_congr_right fun hnext => ?_
  subst hnext
  have hnone := keepsMarks_tokens (some '"') 0 piece.toList rfl
  simp only [not_forall, not_not, exists_prop]
  constructor
  · rintro ⟨t', ht', hkind, hmark⟩
    obtain ⟨t, ht, hshown⟩ := List.mem_filterMap.mp ht'
    unfold Token.shown? at hshown
    dsimp only at hshown
    split_ifs at hshown with hstop
    · obtain ⟨kind, hk, rfl⟩ := Option.map_eq_some_iff.mp hshown
      obtain rfl : kind = .string := hkind
      rcases kind_of_kindBefore? hk with hkind | hkind
      · exact ⟨t, ht, hkind, hstop, hmark⟩
      · exact absurd hmark (hnone t ht hkind)
    · obtain rfl := Option.some.inj hshown
      exact absurd hmark (hnone t ht hkind)
  · rintro ⟨t, ht, hkind, hstop, hmark⟩
    have hshown := shown?_of_mem_rawMarks hkind hstop hmark
    exact ⟨_, List.mem_filterMap.mpr ⟨t, ht, hshown⟩, rfl, hmark⟩

/-- **The cursor reads a range or fails**, and fails at cut letters only. -/
theorem readIn?_cases {vs : List Char} {piece : String}
    (h : source.toList = us ++ piece.toList ++ vs) :
    readIn? source (.ofLength (byteLength us) (byteLength piece.toList)) =
        some (tokens vs.head? (byteLength us) piece.toList) ∧ ¬ CutMark vs.head? piece ∨
      readIn? source (.ofLength (byteLength us) (byteLength piece.toList)) = none ∧
        CutMark vs.head? piece := by
  obtain ⟨hread, hreads⟩ := readIn?_of_toList h
  rw [hread]
  by_cases hcut : CutMark vs.head? piece
  · have hlost := (keepsMarks_iff vs.head? (byteLength us) piece).not.mpr (not_not_intro hcut)
    exact Or.inr ⟨readFrom?_eq_none hreads rfl hlost, hcut⟩
  · have hkept := (keepsMarks_iff vs.head? (byteLength us) piece).mpr hcut
    exact Or.inl ⟨readFrom?_eq hreads rfl hkept, hcut⟩

end Cursor

/-! ## The text of a range -/

open Text

variable {source piece : String} {range : Span}

/-- The character behind a range. -/
def Text.behind? (source : String) (range : Span) : Option Char :=
  (dropBytes range.stop source.toList).head?

/-- How a range is read whose text is `piece`. -/
structure ReadsLikeItsText (source : String) (range : Span) (piece : String) : Prop where
  /-- It has the tokens of its text, but for one at the end that the character behind is shown
  with. -/
  tokens : tokenizeIn source range =
    ((tokenize piece).filterMap (Token.shown? (behind? source range) piece.utf8ByteSize)).map
      (Token.moved range.start)
  /-- Byte by byte it is read as well. -/
  read : ∀ ts, Cursor.readIn? source range = some ts → ts = tokenizeIn source range
  /-- A cut is out of range exactly if the range ends between the letters and the quote of a raw
  string. -/
  fails_iff : Cursor.readIn? source range = none ↔ Cursor.CutMark (behind? source range) piece
  /-- The tokens are those of its text exactly if the character behind makes nothing else of any of
  them. -/
  same_iff : Cursor.readIn? source range = some ((tokenize piece).map (Token.moved range.start)) ↔
    ∀ t ∈ tokenize piece, t.shown? (behind? source range) piece.utf8ByteSize = some t

theorem Token.moved_injective (n : Nat) : Function.Injective (Token.moved n) := by
  rintro ⟨kind, start, text⟩ ⟨kind', start', text'⟩ h
  simpa [Token.moved] using h

/-- Nothing is shown differently if every token is shown as it is. -/
theorem filterMap_shown?_iff {after : Option Char} {stop : Nat} {ts : List Token} :
    ts.filterMap (Token.shown? after stop) = ts ↔ ∀ t ∈ ts, t.shown? after stop = some t := by
  have h := List.filterMap_eq_map_iff_forall_eq_some (f := Token.shown? after stop) (g := id)
    (l := ts)
  rwa [List.map_id] at h

/-- A range with a text stands between two parts of the source. -/
theorem exists_toList_of_text? (h : range.text? source = some piece) :
    ∃ us vs, source.toList = us ++ piece.toList ++ vs ∧
      range = .ofLength (byteLength us) (byteLength piece.toList) ∧
      behind? source range = vs.head? := by
  obtain ⟨u, v, rfl, hstart, hstop⟩ := slice?_eq_some_iff.mp h
  refine ⟨u.toList, v.toList, by simp, ?_, ?_⟩
  · rw [byteLength_toList, byteLength_toList, ← hstart, Span.ofLength, ← hstop]
  · have hfront : range.stop = byteLength (u ++ piece).toList := by
      rw [byteLength_toList, String.utf8ByteSize_append, hstop, hstart]
    have hsource : (u ++ piece ++ v).toList = (u ++ piece).toList ++ v.toList :=
      String.toList_append
    rw [behind?, hfront, hsource, dropBytes_byteLength]

/-- The tokens in front of the character behind, from those of the text by itself. -/
theorem tokens_eq_shown (after : Option Char) (pos : Nat) (piece : String) :
    Lexer.tokens after pos piece.toList =
      ((tokenize piece).filterMap (Token.shown? after piece.utf8ByteSize)).map
        (Token.moved pos) := by
  have hmoved := Lexer.tokens_moved after pos 0 piece.toList
  rw [Nat.add_zero] at hmoved
  rw [hmoved, Lexer.tokens_behind, Nat.zero_add, byteLength_toList]
  rfl

/-- Cut letters are shown as a literal. -/
theorem Cursor.CutMark.shown {next : Option Char} (h : CutMark next piece) :
    ¬ ∀ t ∈ tokenize piece, t.shown? next piece.utf8ByteSize = some t := by
  obtain ⟨rfl, t, ht, hkind, hstop, hmark⟩ := h
  intro hall
  have hshown := hall t ht
  rw [shown?_of_mem_rawMarks hkind hstop hmark] at hshown
  have hstring := congrArg Token.kind (Option.some.inj hshown)
  rw [hkind] at hstring
  cases hstring

/-- **A range is read like its text**, but for a last token that the character behind it makes
something else of. -/
theorem range_reads_like_its_text (h : range.text? source = some piece) :
    ReadsLikeItsText source range piece := by
  obtain ⟨us, vs, hsource, hrange, hbehind⟩ := exists_toList_of_text? h
  have hstart : range.start = byteLength us := congrArg Span.start hrange
  have htokens : tokenizeIn source range = Lexer.tokens vs.head? (byteLength us) piece.toList := by
    rw [hrange, tokenizeIn_eq hsource]
  have hcases := Cursor.readIn?_cases hsource
  rw [← hrange] at hcases
  refine ⟨by rw [htokens, hbehind, hstart, tokens_eq_shown], fun ts hts => ?_, ?_, ?_⟩
  · rcases hcases with ⟨hread, -⟩ | ⟨hnone, -⟩
    · rw [hread] at hts
      rw [htokens, Option.some.inj hts]
    · rw [hnone] at hts
      cases hts
  · rw [hbehind]
    rcases hcases with ⟨hread, hkept⟩ | ⟨hnone, hcut⟩
    · rw [hread]
      exact iff_of_false nofun hkept
    · exact iff_of_true hnone hcut
  · rw [hbehind, hstart]
    rcases hcases with ⟨hread, -⟩ | ⟨hnone, hcut⟩
    · rw [hread, tokens_eq_shown, Option.some_inj, ← filterMap_shown?_iff]
      exact (List.map_injective_iff.mpr (Token.moved_injective _)).eq_iff
    · rw [hnone]
      exact iff_of_false nofun hcut.shown

/-- A literal of two bytes behind a character of two, in front of letters of its own. -/
theorem range_reads_like_its_text_literal :
    let source := "é u8\"é\"R"
    let range : Span := ⟨3, 9⟩
    range.text? source = some "u8\"é\"" ∧
    Cursor.readIn? source range = some [⟨.string, 3, "u8\"é\""⟩] := by
  intro source range
  have htext : range.text? source = some "u8\"é\"" := by decide +kernel
  refine ⟨htext, ?_⟩
  have hread := (range_reads_like_its_text htext).same_iff.mpr (by decide +kernel)
  exact hread.trans (by decide +kernel)

/-- **Letters cut off their literal** are taken for a literal, which they are not by themselves;
those of a raw string are not read at all. -/
theorem cut_letters_are_a_literal :
    Span.text? ⟨0, 1⟩ "L\"x\"" = some "L" ∧
    (tokenize "L").map (Token.moved 0) = [⟨.identifier, 0, "L"⟩] ∧
    tokenizeIn "L\"x\"" ⟨0, 1⟩ = [⟨.string, 0, "L"⟩] ∧
    Cursor.readIn? "L\"x\"" ⟨0, 1⟩ = some [⟨.string, 0, "L"⟩] ∧
    Span.text? ⟨0, 1⟩ "R\"(x)\"" = some "R" ∧
    Cursor.readIn? "R\"(x)\"" ⟨0, 1⟩ = none := by
  decide +kernel

end CudaToHip
