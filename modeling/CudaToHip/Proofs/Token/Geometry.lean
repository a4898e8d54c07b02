import CudaToHip.Proofs.Text.Bytes
import CudaToHip.Proofs.Token.Blanked
import Mathlib.Data.List.Induction

/-!
# Blanking keeps the geometry of the text

A place that is blanked goes from the start of one token to the end of another, over all tokens
between them, and the next place begins behind it. As no place divides a character, blanking works
byte by byte: inside the places every byte but a line break becomes a space, outside of them every
byte stays. So offsets, lines and columns mean the same in the source and in what is handed to the
grammar (`neutralize_keeps_geometry`).

* `BlankedSite.ends_of_at?`: what one place takes.
* `BlankedSite.pairwise_all`, `BlankedSite.exists_contains_of_mem`: the places of a text stand in
  order, and no qualifier is outside of them.
* `byte?_blankSpans`: blanking byte by byte.
-/

namespace CudaToHip

open Text

variable {source : String} {t u v : Token} {ts : List Token} {site : BlankedSite} {n : Nat}

/-! ## What a place takes -/

/-- A configuration that was read ends with the last token read. -/
theorem LaunchConfig.stop_of_read? {depth : Nat} {run : Option Span} {r : LaunchConfig.Reading}
    (h : LaunchConfig.read? source depth run ts = some r) :
    ∃ u, (t :: ts)[r.count]? = some u ∧ r.stop = u.span.stop := by
  induction ts generalizing t depth run r with
  | nil => cases h
  | cons t' ts ih =>
    rcases LaunchConfig.read?_cons_cases h with ⟨d, r', hr', rfl⟩ | rfl | ⟨r', hr', rfl⟩
    · exact ih hr'
    · exact ⟨t', rfl, rfl⟩
    · exact ih hr'

namespace BlankedSite

/-- A qualifier goes to the end of its token, or of the one that closes its arguments. -/
theorem ends_of_ofQualifier (kind : Qualifier) (t : Token) (ts : List Token) :
    ∃ u, (t :: ts)[(ofQualifier kind t ts).2]? = some u ∧
      (ofQualifier kind t ts).1.span = ⟨t.start, u.span.stop⟩ := by
  unfold ofQualifier
  dsimp only
  split
  · split
    · split
      · rename_i closing hclosing
        exact ⟨closing, hclosing, rfl⟩
      · exact ⟨t, rfl, rfl⟩
    · exact ⟨t, rfl, rfl⟩
  · exact ⟨t, rfl, rfl⟩

/-- **A place goes from its first token to the end of its last one.** -/
theorem ends_of_at? (h : at? source t ts = (some site, n)) :
    ∃ u, (t :: ts)[n]? = some u ∧ site.span = ⟨t.start, u.span.stop⟩ := by
  unfold at? at h
  split at h
  · split at h
    · rename_i kind _
      cases h
      exact ends_of_ofQualifier kind t ts
    · cases h
  · split at h
    · split at h
      · cases h
        rename_i r hr
        obtain ⟨u, hu, hstop⟩ := LaunchConfig.stop_of_read? (t := t) hr
        exact ⟨u, hu, congrArg (Span.mk t.start) hstop⟩
      · cases h
    · cases h

/-- Where no place begins no token is passed over. -/
theorem eq_zero_of_at? (h : at? source t ts = (none, n)) : n = 0 := by
  unfold at? at h
  split at h
  · split at h <;> cases h
    rfl
  · split at h
    · split at h <;> cases h
      rfl
    · cases h
      rfl

/-- At every qualifier a place begins. -/
theorem isSome_at? (hkind : t.kind = .identifier)
    (hword : (Qualifier.ofKeyword? t.text).isSome = true) : (at? source t ts).1.isSome = true := by
  obtain ⟨kind, hword⟩ := Option.isSome_iff_exists.mp hword
  rw [at?, if_pos hkind]
  simp only [hword, Option.isSome_some]

/-! ## The places of a text -/

/-- Every place goes from the start of a token to the end of that one or of one behind it. -/
theorem exists_ends_of_mem_all (hord : ts.Pairwise fun a b => a.span.stop ≤ b.start)
    (h : site ∈ all source ts) :
    ∃ t ∈ ts, ∃ u ∈ ts, site.span = ⟨t.span.start, u.span.stop⟩ ∧ t.start ≤ u.start := by
  obtain ⟨t, rest, hsuffix, hat⟩ := exists_at?_of_mem_all h
  obtain ⟨u, hu, hspan⟩ := ends_of_at? (n := (at? source t rest).2) (Prod.ext hat rfl)
  have hmem : u ∈ t :: rest := List.mem_of_getElem? hu
  refine ⟨t, hsuffix.subset List.mem_cons_self, u, hsuffix.subset hmem, hspan, ?_⟩
  rcases List.mem_cons.mp hmem with rfl | hrest
  · exact Nat.le_refl _
  · have hbehind := (List.pairwise_cons.mp (hord.sublist hsuffix.sublist)).1 u hrest
    exact Nat.le_trans (Nat.le_add_right _ _) hbehind

/-- **The places stand in order**, one behind the other. -/
theorem pairwise_all (hord : ts.Pairwise fun a b => a.span.stop ≤ b.start) :
    (all source ts).Pairwise fun a b => a.span.stop ≤ b.span.start := by
  fun_induction all source ts with
  | case1 => exact .nil
  | case2 t ts site? n hat ih =>
    have hts := (List.pairwise_cons.mp hord).2
    have hdrop := hts.sublist (List.drop_sublist n ts)
    refine List.pairwise_append.mpr ⟨?_, ih hdrop, ?_⟩
    · cases site? with
      | none => exact .nil
      | some site => exact List.pairwise_singleton _ _
    · intro a ha b hb
      obtain rfl := Option.mem_toList.mp ha
      obtain ⟨u, hu, hspan⟩ := ends_of_at? hat
      obtain ⟨v, hv, _, -, hspan', -⟩ := exists_ends_of_mem_all hdrop hb
      rw [eq_take_append_drop hu] at hord
      rw [hspan, hspan']
      exact (List.pairwise_cons.mp (List.pairwise_append.mp hord).2.1).1 v hv

/-- **No qualifier is outside of the places.** -/
theorem exists_contains_of_mem (hord : ts.Pairwise fun a b => a.span.stop ≤ b.start)
    (hv : v ∈ ts) (hkind : v.kind = .identifier)
    (hword : (Qualifier.ofKeyword? v.text).isSome = true) :
    ∃ site ∈ all source ts, site.span.contains v.span = true := by
  fun_induction all source ts with
  | case1 => cases hv
  | case2 t ts site? n hat ih =>
    obtain ⟨hbehind, hts⟩ := List.pairwise_cons.mp hord
    have hdrop (hv : v ∈ ts.drop n) :
        ∃ site ∈ site?.toList ++ all source (ts.drop n), site.span.contains v.span = true := by
      obtain ⟨site, hsite, hcontains⟩ := ih (hts.sublist (List.drop_sublist n ts)) hv
      exact ⟨site, List.mem_append_right _ hsite, hcontains⟩
    cases site? with
    | none =>
      obtain rfl := eq_zero_of_at? hat
      rcases List.mem_cons.mp hv with rfl | hv
      · have hsome : (at? source v ts).1.isSome = true := isSome_at? hkind hword
        rw [hat] at hsome
        cases hsome
      · exact hdrop hv
    | some site =>
      obtain ⟨u, hu, hspan⟩ := ends_of_at? hat
      have hstart : t.start ≤ v.start := by
        rcases List.mem_cons.mp hv with rfl | hv
        · exact Nat.le_refl _
        · exact Nat.le_trans (Nat.le_add_right _ _) (hbehind v hv)
      have hcontains (hstop : v.span.stop ≤ u.span.stop) :
          ∃ s ∈ (some site).toList ++ all source (ts.drop n), s.span.contains v.span = true :=
        ⟨site, List.mem_append_left _ List.mem_cons_self,
          Span.contains_iff.mpr (hspan ▸ ⟨hstart, hstop⟩)⟩
      -- the token is one of those in the place, or stands behind it
      rw [eq_take_append_drop hu] at hord hv
      rcases List.mem_append.mp hv with hfront | hv
      · have hvu := (List.pairwise_append.mp hord).2.2 v hfront u List.mem_cons_self
        exact hcontains (Nat.le_trans hvu (Nat.le_add_right _ _))
      · rcases List.mem_cons.mp hv with rfl | hv
        · exact hcontains (Nat.le_refl _)
        · exact hdrop hv

end BlankedSite

/-! ## Blanking characters -/

variable {spans : List Span} {c : Char} {us vs : List Char} {pos i : Nat}

theorem blankSpans_append (spans : List Span) (pos : Nat) (us vs : List Char) :
    blankSpans spans pos (us ++ vs) =
      blankSpans spans pos us ++ blankSpans spans (pos + byteLength us) vs := by
  induction us generalizing pos with
  | nil => rfl
  | cons c us ih =>
    rw [List.cons_append, blankSpans, blankSpans, ih, byteLength, List.append_assoc, Nat.add_assoc]

theorem byteLength_replicate_space (n : Nat) : byteLength (List.replicate n ' ') = n := by
  induction n with
  | zero => rfl
  | succ n ih =>
    rw [List.replicate_succ, byteLength, ih, Nat.add_comm]
    rfl

/-- A blanked character takes as many bytes as before. -/
theorem byteLength_blankChar (c : Char) : byteLength (blankChar c) = c.utf8Size := by
  unfold blankChar
  split
  · rfl
  · exact byteLength_replicate_space c.utf8Size

theorem byteLength_blankSpans (spans : List Span) (pos : Nat) (cs : List Char) :
    byteLength (blankSpans spans pos cs) = byteLength cs := by
  induction cs generalizing pos with
  | nil => rfl
  | cons c cs ih =>
    rw [blankSpans, byteLength_append, ih, byteLength]
    split
    · rw [byteLength_blankChar]
    · rfl

/-- What a byte is blanked to: a line break stays, and anything else becomes a space. -/
def blankByte (b : UInt8) : UInt8 :=
  if b = '\n'.toUInt8 ∨ b = '\r'.toUInt8 then b else ' '.toUInt8

/-- A character is blanked byte by byte. -/
theorem encode_blankChar (c : Char) :
    encode (blankChar c) = (String.utf8EncodeChar c).map blankByte := by
  unfold blankChar
  split
  · rename_i hbreak
    rcases hbreak with rfl | rfl <;> rfl
  · rename_i hbreak
    have hspace : ∀ b ∈ String.utf8EncodeChar c, blankByte b = ' '.toUInt8 := by
      intro b hb
      refine if_neg fun hb' => hbreak ?_
      rcases hb' with rfl | rfl
      · exact Or.inl (eq_of_mem_utf8EncodeChar (by decide) hb)
      · exact Or.inr (eq_of_mem_utf8EncodeChar (by decide) hb)
    rw [List.map_congr_left hspace, List.map_const', String.length_utf8EncodeChar]
    induction c.utf8Size with
    | zero => rfl
    | succ n ih =>
      rw [List.replicate_succ, encode_cons, ih]
      rfl

/-- A place between boundaries takes a character as a whole. -/
theorem takes_iff {s : Span} {source : String} {j : Nat} (h : (s.text? source).isSome)
    (hdiv : source.toList = us ++ c :: vs) (hj : j < c.utf8Size) :
    s.Takes (byteLength us + j) ↔ s.Takes (byteLength us) := by
  -- a boundary is in front of the character or behind it
  have hside {n : Nat} (hn : IsBoundary source n) :
      n ≤ byteLength us ∨ byteLength us + c.utf8Size ≤ n := by
    obtain ⟨u, v, rfl, rfl⟩ := hn
    rw [String.toList_append] at hdiv
    rw [← byteLength_toList u]
    rcases List.append_eq_append_iff.mp hdiv with ⟨z, hz, -⟩ | ⟨z, hz, hz'⟩
    · rw [hz, byteLength_append]
      exact Or.inl (Nat.le_add_right _ _)
    · cases z with
      | nil =>
        rw [hz, List.append_nil]
        exact Or.inl (Nat.le_refl _)
      | cons d z =>
        obtain ⟨rfl, -⟩ := List.cons.inj hz'
        rw [hz, byteLength_append, byteLength]
        exact Or.inr (by omega)
  obtain ⟨-, hstart, hstop⟩ := slice?_isSome_iff.mp h
  have hstart := hside hstart
  have hstop := hside hstop
  unfold Span.Takes
  omega

/-- **Blanking works byte by byte**, as long as no place divides a character. -/
theorem byte?_blankSpans {source : String} (h : ∀ s ∈ spans, (s.text? source).isSome) (i : Nat) :
    byte? (String.ofList (blankSpans spans 0 source.toList)) i =
      (byte? source i).map fun b => if ∃ s ∈ spans, s.Takes i then blankByte b else b := by
  rcases Nat.lt_or_ge i source.utf8ByteSize with hi | hi
  · rw [← byteLength_toList] at hi
    obtain ⟨us, c, vs, j, hdiv, rfl, hj⟩ := exists_divided_at hi
    have htakes : (∃ s ∈ spans, s.Takes (byteLength us + j)) ↔
        (spans.any fun s => s.start ≤ byteLength us && byteLength us < s.stop) = true := by
      rw [List.any_eq_true]
      refine exists_congr fun s => and_congr_right fun hs => ?_
      rw [takes_iff (h s hs) hdiv hj, Bool.and_eq_true, decide_eq_true_eq, decide_eq_true_eq]
      rfl
    rw [byte?_ofList, byte?_eq, hdiv, getElem?_encode hj, blankSpans_append, blankSpans,
      Nat.zero_add, ← byteLength_blankSpans spans 0 us]
    have hlen : j < (String.utf8EncodeChar c).length := by rwa [String.length_utf8EncodeChar]
    rw [encode_append, encode_append, List.getElem?_append_right (by rw [length_encode]; omega),
      length_encode, Nat.add_sub_cancel_left]
    simp only [byteLength_blankSpans, htakes]
    split
    · rw [encode_blankChar, List.getElem?_append_left (by rwa [List.length_map]), List.getElem?_map]
    · rw [encode_cons, encode, List.flatMap_nil, List.append_nil, List.getElem?_append_left hlen,
        Option.map_id']
  · have hsize : (String.ofList (blankSpans spans 0 source.toList)).utf8ByteSize =
        source.utf8ByteSize := by
      rw [← byteLength_toList, String.toList_ofList, byteLength_blankSpans, byteLength_toList]
    rw [byte?_eq_none hi, byte?_eq_none (by rw [hsize]; exact hi)]
    rfl

/-! ## Lines and columns -/

/-- A blanked character is a line break if it was one. -/
theorem blankChar_cases (c : Char) :
    blankChar c = [c] ∨ c ≠ '\n' ∧ ∀ x ∈ blankChar c, x ≠ '\n' := by
  unfold blankChar
  split
  · exact Or.inl rfl
  · rename_i hbreak
    refine Or.inr ⟨fun hc => hbreak (Or.inl hc), fun x hx => ?_⟩
    rw [List.eq_of_mem_replicate hx]
    decide

/-- What becomes of the last character of a text. -/
theorem blankSpans_concat (spans : List Span) (pos : Nat) (cs : List Char) (c : Char) :
    ∃ piece, blankSpans spans pos (cs ++ [c]) = blankSpans spans pos cs ++ piece ∧
      byteLength piece = c.utf8Size ∧ (piece = [c] ∨ c ≠ '\n' ∧ ∀ x ∈ piece, x ≠ '\n') := by
  refine ⟨_, by rw [blankSpans_append, blankSpans, blankSpans, List.append_nil], ?_, ?_⟩
  · split
    · exact byteLength_blankChar c
    · rfl
  · split
    · exact blankChar_cases c
    · exact Or.inl rfl

theorem byteLength_reverse (cs : List Char) : byteLength cs.reverse = byteLength cs := by
  induction cs with
  | nil => rfl
  | cons c cs ih =>
    rw [List.reverse_cons, byteLength_append, ih, byteLength, byteLength, byteLength, Nat.add_zero,
      Nat.add_comm]

theorem count_blankSpans (spans : List Span) (pos : Nat) (cs : List Char) :
    (blankSpans spans pos cs).count '\n' = cs.count '\n' := by
  induction cs using List.reverseRecOn with
  | nil => rfl
  | append_singleton cs c ih =>
    obtain ⟨piece, hpiece, -, hbreak⟩ := blankSpans_concat spans pos cs c
    rw [hpiece, List.count_append, List.count_append, ih]
    rcases hbreak with rfl | ⟨hc, hnone⟩
    · rfl
    · rw [List.count_eq_zero_of_not_mem fun h => hnone _ h rfl,
        List.count_eq_zero_of_not_mem fun h => hc (List.mem_singleton.mp h).symm]

/-- The last line keeps its length. -/
theorem byteLength_lastLine_blankSpans (spans : List Span) (pos : Nat) (cs : List Char) :
    byteLength ((blankSpans spans pos cs).reverse.takeWhile (· ≠ '\n')) =
      byteLength (cs.reverse.takeWhile (· ≠ '\n')) := by
  induction cs using List.reverseRecOn with
  | nil => rfl
  | append_singleton cs c ih =>
    obtain ⟨piece, hpiece, hlen, hbreak⟩ := blankSpans_concat spans pos cs c
    rw [hpiece, List.reverse_append, List.reverse_append, List.reverse_singleton]
    by_cases hc : c = '\n'
    · obtain rfl := hbreak.resolve_right fun h => h.1 hc
      simp [hc]
    · have hnone : ∀ x ∈ piece.reverse, decide (x ≠ '\n') = true := by
        intro x hx
        rw [List.mem_reverse] at hx
        rcases hbreak with rfl | ⟨-, hnone⟩
        · rw [List.mem_singleton.mp hx]
          exact decide_eq_true hc
        · exact decide_eq_true (hnone x hx)
      have hkept : decide (c ≠ '\n') = true := decide_eq_true hc
      rw [List.takeWhile_append_of_pos hnone, byteLength_append, byteLength_reverse, hlen, ih,
        List.singleton_append, List.takeWhile_cons, if_pos hkept, byteLength]

/-- **Lines and columns stay put.** -/
theorem lineAndColumn_blankSpans {source : String} (spans : List Span)
    (h : IsBoundary source i) :
    lineAndColumn (String.ofList (blankSpans spans 0 source.toList)) i =
      lineAndColumn source i := by
  obtain ⟨u, v, rfl, rfl⟩ := h
  have hlen : u.utf8ByteSize = byteLength (blankSpans spans 0 u.toList) := by
    rw [byteLength_blankSpans, byteLength_toList]
  have hblanked : takeBytes u.utf8ByteSize (blankSpans spans 0 (u ++ v).toList) =
      blankSpans spans 0 u.toList := by
    rw [String.toList_append, blankSpans_append, hlen, takeBytes_byteLength]
  have hbefore : takeBytes u.utf8ByteSize (u ++ v).toList = u.toList := by
    rw [String.toList_append, ← byteLength_toList, takeBytes_byteLength]
  unfold lineAndColumn
  simp only [String.toList_ofList, hblanked, hbefore, count_blankSpans,
    byteLength_lastLine_blankSpans]

/-! ## A neutralized text -/

namespace Neutralized

/-- The spans of all places that are blanked. -/
def blanked (n : Neutralized) : List Span :=
  n.qualifiers.map QualifierSite.span ++ n.launches.map LaunchConfig.span

/-- The text is that of the source but for the places recorded, which go over whole tokens, over
all qualifiers among them, and read as blanks. -/
structure KeepsGeometry (source : String) (n : Neutralized) : Prop where
  size : n.code.utf8ByteSize = source.utf8ByteSize
  apart : n.blanked.Pairwise Span.Apart
  qualifiersInOrder : n.qualifiers.Pairwise fun a b => a.span.stop ≤ b.span.start
  launchesInOrder : n.launches.Pairwise fun a b => a.span.stop ≤ b.span.start
  /-- Every place takes text, and begins and ends where tokens do. -/
  ends : ∀ s ∈ n.blanked, s.start < s.stop ∧ (∃ t ∈ tokenize source, s.start = t.span.start) ∧
    ∃ u ∈ tokenize source, s.stop = u.span.stop
  /-- Inside a place line breaks stay, and all other bytes are spaces. -/
  inside : ∀ s ∈ n.blanked, ∀ i, s.Takes i → ∃ b, byte? source i = some b ∧
    byte? n.code i = some (if b = '\n'.toUInt8 ∨ b = '\r'.toUInt8 then b else ' '.toUInt8)
  /-- Outside of all places nothing changes. -/
  outside : ∀ i, (∀ s ∈ n.blanked, ¬ s.Takes i) → byte? n.code i = byte? source i
  positions : ∀ i, IsBoundary source i → lineAndColumn n.code i = lineAndColumn source i
  keywords : ∀ t ∈ tokenize source, t.kind = .identifier →
    (Qualifier.ofKeyword? t.text).isSome = true → ∃ s ∈ n.blanked, s.contains t.span = true

end Neutralized

/-- What is recorded are the places of the text. -/
theorem mem_blanked_neutralize {s : Span} : s ∈ (neutralize source).blanked ↔
    ∃ site ∈ BlankedSite.all source (tokenize source), site.span = s := by
  unfold Neutralized.blanked
  rw [List.mem_append, List.mem_map, List.mem_map]
  constructor
  · rintro (⟨q, hq, rfl⟩ | ⟨c, hc, rfl⟩)
    · obtain ⟨site, hsite, hq⟩ := List.mem_filterMap.mp hq
      cases site with
      | qualifier q' =>
        obtain rfl := Option.some.inj hq
        exact ⟨_, hsite, rfl⟩
      | launch => cases hq
    · obtain ⟨site, hsite, hc⟩ := List.mem_filterMap.mp hc
      cases site with
      | qualifier => cases hc
      | launch c' =>
        obtain rfl := Option.some.inj hc
        exact ⟨_, hsite, rfl⟩
  · rintro ⟨site, hsite, rfl⟩
    cases site with
    | qualifier q => exact Or.inl ⟨q, List.mem_filterMap.mpr ⟨_, hsite, rfl⟩, rfl⟩
    | launch c => exact Or.inr ⟨c, List.mem_filterMap.mpr ⟨_, hsite, rfl⟩, rfl⟩

/-- A place of the text stands between boundaries and takes text. -/
theorem text?_span_of_mem_all (h : site ∈ BlankedSite.all source (tokenize source)) :
    (site.span.text? source).isSome ∧ site.span.start < site.span.stop := by
  obtain ⟨t, ht, u, hu, hspan, hle⟩ :=
    BlankedSite.exists_ends_of_mem_all Lexer.pairwise_tokens h
  have hlt : u.span.start < u.span.stop := Lexer.start_lt_stop_of_mem_tokens hu
  have htu : t.span.start < u.span.stop := Nat.lt_of_le_of_lt hle hlt
  obtain ⟨-, hstart, -⟩ := slice?_isSome_iff.mp (text?_of_mem_tokenize ht)
  obtain ⟨-, -, hstop⟩ := slice?_isSome_iff.mp (text?_of_mem_tokenize hu)
  rw [hspan]
  exact ⟨slice?_isSome_iff.mpr ⟨Nat.le_of_lt htu, hstart, hstop⟩, htu⟩

/-- A byte of the neutralized text is that of the source, blanked if it is in a place. -/
theorem byte?_neutralize (source : String) (i : Nat) :
    byte? (neutralize source).code i = (byte? source i).map fun b =>
      if ∃ s ∈ (neutralize source).blanked, s.Takes i then blankByte b else b := by
  have hspans : ∀ s ∈ (BlankedSite.all source (tokenize source)).map BlankedSite.span,
      (s.text? source).isSome := by
    intro s hs
    obtain ⟨site, hsite, rfl⟩ := List.mem_map.mp hs
    exact (text?_span_of_mem_all hsite).1
  have hplaces : (∃ s ∈ (neutralize source).blanked, s.Takes i) ↔
      ∃ s ∈ (BlankedSite.all source (tokenize source)).map BlankedSite.span, s.Takes i :=
    exists_congr fun s => and_congr_left' (mem_blanked_neutralize.trans List.mem_map.symm)
  simp only [hplaces]
  exact byte?_blankSpans hspans i

/-- What is recorded of the places of one kind is recorded in order. -/
theorem pairwise_filterMap_all {α : Type} {f : BlankedSite → Option α} {span : α → Span}
    (hf : ∀ site x, f site = some x → span x = site.span) :
    ((BlankedSite.all source (tokenize source)).filterMap f).Pairwise fun a b =>
      (span a).stop ≤ (span b).start := by
  refine List.pairwise_filterMap.mpr ?_
  refine (BlankedSite.pairwise_all Lexer.pairwise_tokens).imp fun {a b} hab x hx y hy => ?_
  rw [hf a x hx, hf b y hy]
  exact hab

/-- The recorded places are apart, those of one list in order. -/
theorem ordered_neutralize (source : String) :
    (neutralize source).blanked.Pairwise Span.Apart ∧
      ((neutralize source).qualifiers.Pairwise fun a b => a.span.stop ≤ b.span.start) ∧
      (neutralize source).launches.Pairwise fun a b => a.span.stop ≤ b.span.start := by
  have hqualifiers : (neutralize source).qualifiers.Pairwise fun a b =>
      a.span.stop ≤ b.span.start :=
    pairwise_filterMap_all fun site q hq => by cases site <;> cases hq; rfl
  have hlaunches : (neutralize source).launches.Pairwise fun a b =>
      a.span.stop ≤ b.span.start :=
    pairwise_filterMap_all fun site c hc => by cases site <;> cases hc; rfl
  refine ⟨List.pairwise_append.mpr ⟨List.pairwise_map.mpr (hqualifiers.imp Or.inl),
    List.pairwise_map.mpr (hlaunches.imp Or.inl), fun s hs s' hs' => ?_⟩, hqualifiers, hlaunches⟩
  -- a qualifier and a launch are different places
  obtain ⟨q, hq, rfl⟩ := List.mem_map.mp hs
  obtain ⟨c, hc, rfl⟩ := List.mem_map.mp hs'
  obtain ⟨site, hsite, hq⟩ := List.mem_filterMap.mp hq
  obtain ⟨site', hsite', hc⟩ := List.mem_filterMap.mp hc
  cases site <;> cases hq
  cases site' <;> cases hc
  rcases eq_or_of_pairwise (BlankedSite.pairwise_all Lexer.pairwise_tokens) hsite hsite' with
    heq | hbefore
  · cases heq
  · exact hbefore

/-- **Blanking keeps the geometry of the text**, and takes out every qualifier. -/
theorem neutralize_keeps_geometry (source : String) :
    (neutralize source).KeepsGeometry source where
  size := by
    rw [← byteLength_toList, neutralize, String.toList_ofList, byteLength_blankSpans,
      byteLength_toList]
  apart := (ordered_neutralize source).1
  qualifiersInOrder := (ordered_neutralize source).2.1
  launchesInOrder := (ordered_neutralize source).2.2
  ends := by
    intro s hs
    obtain ⟨site, hsite, rfl⟩ := mem_blanked_neutralize.mp hs
    obtain ⟨t, ht, u, hu, hspan, -⟩ :=
      BlankedSite.exists_ends_of_mem_all Lexer.pairwise_tokens hsite
    exact ⟨(text?_span_of_mem_all hsite).2, ⟨t, ht, by rw [hspan]⟩, u, hu, by rw [hspan]⟩
  inside := by
    intro s hs i hi
    obtain ⟨site, hsite, rfl⟩ := mem_blanked_neutralize.mp hs
    have hstop := (slice?_isSome_iff.mp (text?_span_of_mem_all hsite).1).2.2.le
    obtain ⟨b, hb⟩ := Option.isSome_iff_exists.mp
      (byte?_isSome (Nat.lt_of_lt_of_le hi.2 hstop))
    refine ⟨b, hb, ?_⟩
    rw [byte?_neutralize, hb, Option.map_some, if_pos ⟨_, hs, hi⟩]
    rfl
  outside := by
    intro i hi
    have hnone : ¬ ∃ s ∈ (neutralize source).blanked, s.Takes i := fun ⟨s, hs, htakes⟩ =>
      hi s hs htakes
    rw [byte?_neutralize]
    simp only [if_neg hnone, Option.map_id']
  positions := fun _ hi => lineAndColumn_blankSpans _ hi
  keywords := by
    intro t ht hkind hword
    obtain ⟨site, hsite, hcontains⟩ :
        ∃ site ∈ BlankedSite.all source (tokenize source), site.span.contains t.span = true :=
      BlankedSite.exists_contains_of_mem Lexer.pairwise_tokens ht hkind hword
    exact ⟨site.span, mem_blanked_neutralize.mpr ⟨site, hsite, rfl⟩, hcontains⟩

end CudaToHip
