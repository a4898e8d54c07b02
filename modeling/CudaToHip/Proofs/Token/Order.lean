import CudaToHip.Proofs.Span
import CudaToHip.Proofs.Text.Boundary
import CudaToHip.Token.Lexer

/-!
# Tokens are pieces of their text, in order

The lexer reads from left to right and never reads a character twice. So every token is a nonempty
piece of what was read (`exists_of_mem_tokens`), and a token ends before the next one starts
(`pairwise_tokens`). On a whole text a token stands at its place
(`text?_eq_of_mem_tokenize`); on a range between boundaries its tokens lie inside the range
(`contains_of_mem_tokenizeIn`), where the text has them (`text?_of_mem_tokenizeIn`).
-/

namespace CudaToHip

namespace Lexer

open Text

variable {after : Option Char} {pos : Nat} {c : Char} {cs : List Char} {t : Token}

/-- The first thing read and the tokens of what is behind it. -/
theorem tokens_cons {m : Measure} (hm : measure after c cs = m) (pos : Nat) :
    tokens after pos (c :: cs) =
      (m.kind?.map (⟨·, pos, String.ofList (c :: cs.take m.further)⟩)).toList ++
        tokens after (pos + byteLength (c :: cs.take m.further)) (cs.drop m.further) := by
  subst hm
  rw [tokens]
  cases (measure after c cs).kind? <;> rfl

/-- A token goes as far as its characters. -/
theorem stop_ofList {kind : TokenKind} :
    (Token.span ⟨kind, pos, String.ofList cs⟩).stop = pos + byteLength cs := by
  show pos + (String.ofList cs).utf8ByteSize = _
  rw [← byteLength_toList, String.toList_ofList]

/-- **Every token is a piece of the characters read**, and no token is empty. -/
theorem exists_of_mem_tokens (h : t ∈ tokens after pos cs) :
    ∃ a b, cs = a ++ t.text.toList ++ b ∧ t.start = pos + byteLength a ∧ t.text.toList ≠ [] := by
  fun_induction tokens after pos cs with
  | case1 => cases h
  | case2 pos c cs m text rest kind hkind ih =>
    rcases List.mem_cons.mp h with rfl | h
    · refine ⟨[], cs.drop m.further, ?_, rfl, ?_⟩
      · rw [String.toList_ofList, List.nil_append, List.cons_append, List.take_append_drop]
      · rw [String.toList_ofList]
        exact List.cons_ne_nil _ _
    · obtain ⟨a, b, hcs, hstart, hne⟩ := ih h
      refine ⟨text ++ a, b, ?_, ?_, hne⟩
      · rw [List.append_assoc, List.append_assoc, ← List.append_assoc a, ← hcs,
          List.cons_append, List.take_append_drop]
      · rw [hstart, byteLength_append, Nat.add_assoc]
  | case3 pos c cs m text rest hkind ih =>
    obtain ⟨a, b, hcs, hstart, hne⟩ := ih h
    refine ⟨text ++ a, b, ?_, ?_, hne⟩
    · rw [List.append_assoc, List.append_assoc, ← List.append_assoc a, ← hcs,
        List.cons_append, List.take_append_drop]
    · rw [hstart, byteLength_append, Nat.add_assoc]

theorem start_of_mem_tokens (h : t ∈ tokens after pos cs) : pos ≤ t.start := by
  obtain ⟨a, _, _, hstart, _⟩ := exists_of_mem_tokens h
  omega

theorem stop_of_mem_tokens (h : t ∈ tokens after pos cs) :
    t.span.stop ≤ pos + byteLength cs := by
  obtain ⟨a, b, hcs, hstart, _⟩ := exists_of_mem_tokens h
  have hlen := congrArg byteLength hcs
  rw [byteLength_append, byteLength_append, byteLength_toList] at hlen
  show t.start + t.text.utf8ByteSize ≤ _
  omega

theorem start_lt_stop_of_mem_tokens (h : t ∈ tokens after pos cs) :
    t.span.start < t.span.stop := by
  obtain ⟨_, _, _, _, hne⟩ := exists_of_mem_tokens h
  have hsize : t.text.utf8ByteSize ≠ 0 := by
    intro h0
    rw [String.utf8ByteSize_eq_zero_iff.mp h0] at hne
    exact hne rfl
  show t.start < t.start + t.text.utf8ByteSize
  omega

/-- **Every token ends before the next one starts.** -/
theorem pairwise_tokens : (tokens after pos cs).Pairwise fun a b => a.span.stop ≤ b.start := by
  fun_induction tokens after pos cs with
  | case1 => exact .nil
  | case2 pos c cs m text rest kind hkind ih =>
    refine List.pairwise_cons.mpr ⟨fun t ht => ?_, ih⟩
    have hstart : pos + byteLength text ≤ t.start := start_of_mem_tokens ht
    show pos + (String.ofList text).utf8ByteSize ≤ t.start
    rwa [← byteLength_toList, String.toList_ofList]
  | case3 _ _ _ _ _ _ _ ih => exact ih

end Lexer

variable {source : String} {range : Span} {t : Token}

/-- **The text of a token stands at its place.** -/
theorem text?_eq_of_mem_tokenize (h : t ∈ tokenize source) :
    t.span.text? source = some t.text := by
  obtain ⟨a, b, hcs, hstart, _⟩ := Lexer.exists_of_mem_tokens h
  have hcut := Text.slice?_of_toList hcs
  rw [String.ofList_toList, Text.byteLength_toList, ← Nat.zero_add (Text.byteLength a),
    ← hstart] at hcut
  exact hcut

theorem text?_of_mem_tokenize (h : t ∈ tokenize source) : (t.span.text? source).isSome :=
  Option.isSome_of_eq_some (text?_eq_of_mem_tokenize h)

/-- The tokens of a range between boundaries are those of its characters, in front of what is behind
the range. -/
theorem tokenizeIn_eq {us cs vs : List Char} (h : source.toList = us ++ cs ++ vs) :
    tokenizeIn source (.ofLength (Text.byteLength us) (Text.byteLength cs)) =
      Lexer.tokens vs.head? (Text.byteLength us) cs := by
  unfold tokenizeIn
  rw [h, List.append_assoc]
  simp only [Span.ofLength, Nat.add_sub_cancel_left, Text.dropBytes_byteLength,
    Text.takeBytes_byteLength]

/-- The characters that the lexer takes for a range between boundaries are those of its text. -/
theorem takeBytes_of_range {r : String} (hr : range.text? source = some r) :
    Text.takeBytes (range.stop - range.start) (Text.dropBytes range.start source.toList) =
      r.toList := by
  obtain ⟨u, v, rfl, hstart, hstop⟩ := Text.slice?_eq_some_iff.mp hr
  have hlen : range.stop - range.start = Text.byteLength r.toList := by
    rw [Text.byteLength_toList]
    omega
  rw [hlen, hstart, String.toList_append, String.toList_append, List.append_assoc,
    ← Text.byteLength_toList u, Text.dropBytes_byteLength, Text.takeBytes_byteLength]

theorem byteLength_of_range (hr : (range.text? source).isSome) :
    range.start + Text.byteLength (Text.takeBytes (range.stop - range.start)
      (Text.dropBytes range.start source.toList)) = range.stop := by
  obtain ⟨r, hr⟩ := Option.isSome_iff_exists.mp hr
  have hstop := Text.utf8ByteSize_of_slice? hr
  rw [takeBytes_of_range hr, Text.byteLength_toList, ← hstop]

/-- The text of a token stands at its place, for the tokens of a range as well. -/
theorem text?_of_mem_tokenizeIn (hr : (range.text? source).isSome)
    (h : t ∈ tokenizeIn source range) : t.span.text? source = some t.text := by
  obtain ⟨r, hr⟩ := Option.isSome_iff_exists.mp hr
  obtain ⟨a, b, hcs, hstart, -⟩ := Lexer.exists_of_mem_tokens h
  rw [takeBytes_of_range hr] at hcs
  obtain ⟨u, v, rfl, hu, -⟩ := Text.slice?_eq_some_iff.mp hr
  have hsource : u ++ r ++ v = u ++ String.ofList a ++ t.text ++ (String.ofList b ++ v) := by
    rw [← String.toList_inj]
    simp [hcs]
  refine Text.slice?_eq_some_iff.mpr ⟨u ++ String.ofList a, String.ofList b ++ v, hsource, ?_, rfl⟩
  rw [String.utf8ByteSize_append, ← Text.byteLength_toList (String.ofList a),
    String.toList_ofList, ← hu]
  exact hstart

/-- **The tokens of a range lie inside the range.** -/
theorem contains_of_mem_tokenizeIn (hr : (range.text? source).isSome)
    (h : t ∈ tokenizeIn source range) : range.contains t.span = true := by
  have hstop := Lexer.stop_of_mem_tokens h
  rw [byteLength_of_range hr] at hstop
  exact Span.contains_iff.mpr ⟨Lexer.start_of_mem_tokens h, hstop⟩

/-- Two tokens of a range are the same, or their spans are apart. -/
theorem eq_or_apart_of_mem_tokenizeIn {a b : Token} (ha : a ∈ tokenizeIn source range)
    (hb : b ∈ tokenizeIn source range) : a = b ∨ a.span.Apart b.span :=
  eq_or_of_pairwise Lexer.pairwise_tokens ha hb

end CudaToHip
