import CudaToHip.Proofs.Replacement.Overlap
import Mathlib.Data.List.Permutation
import Mathlib.Data.List.ProdSigma

/-!
# Pairs of overlapping edits

The list of overlapping pairs is made by comparing each accepted edit with those behind it, up to
the first one that starts behind its end. In order of the spans nothing overlaps from there on,
whether spans are empty or inverted (`overlaps_of_stop_lt`), so that no pair is lost.

The sweep compares no pairs. It only knows where the last edit that went in ends. For spans that are
ranges of the text this comes to the same: an edit is skipped exactly if it forms a pair with an
edit in front of it that went in.

* `overlappingPairs_eq_filter`: the pairs are all pairs of accepted edits in order that overlap.
* `skips_agree_with_pairs`: something is skipped exactly if there is a pair, and what is skipped is
  the second edit of one.
* `both_applied_iff`: of two edits alone, both go in exactly if their spans do not overlap.
-/

namespace CudaToHip

/-- Where the wanted members and all those in front of a wanted one pass a test, none is lost when
the search ends at the first member that does not pass. -/
theorem filter_takeWhile_of_pairwise {α : Type} {p q : α → Bool} {l : List α}
    (hself : ∀ a ∈ l, q a = true → p a = true)
    (hfront : l.Pairwise fun a b => q b = true → p a = true) :
    (l.takeWhile p).filter q = l.filter q := by
  induction l with
  | nil => rfl
  | cons a l ih =>
    obtain ⟨ha, hl⟩ := List.pairwise_cons.mp hfront
    obtain ⟨haa, hll⟩ := List.forall_mem_cons.mp hself
    by_cases hp : p a = true
    · rw [List.takeWhile_cons_of_pos hp, List.filter_cons, List.filter_cons, ih hll hl]
    · have hnone : ∀ b ∈ a :: l, ¬ q b = true := by
        intro b hb hq
        rcases List.mem_cons.mp hb with rfl | hb
        · exact hp (haa hq)
        · exact hp (ha b hb hq)
      rw [List.takeWhile_cons_of_neg hp, List.filter_nil, List.filter_eq_nil_iff.mpr hnone]

namespace Span

variable {a b : Span}

theorem start_le_of_before (h : a.before b = true) : a.start ≤ b.start := by
  rw [before_iff] at h
  omega

/-- A span that starts behind the end of one in front of it does not overlap that one. The spans may
be empty or inverted. -/
theorem overlaps_of_stop_lt (h : a.before b = true) (hstop : a.stop < b.start) :
    a.overlaps b = false := by
  have hstart := start_le_of_before h
  unfold overlaps
  rw [if_neg (ne_of_before h)]
  split_ifs <;>
    simp only [strictlyContains, Bool.and_eq_false_iff, decide_eq_false_iff_not] <;>
    omega

/-- Of two spans in order that are not inverted, the second overlaps the first exactly if it starts
in front of its end. -/
theorem overlaps_iff_of_before (ha : a.start ≤ a.stop) (hb : b.start ≤ b.stop)
    (h : a.before b = true) : a.overlaps b = true ↔ b.start < a.stop := by
  rw [← Bool.not_eq_false, overlaps_eq_false_iff ha hb]
  simp only [ne_eq, ne_of_before h, not_false_eq_true, true_and]
  rw [before_iff] at h
  omega

end Span

namespace ReplacementSet

variable {s : ReplacementSet} {e d : Edit} {es front : List Edit}

/-! ## No pair is lost -/

/-- The pair is in order and its spans overlap. -/
def isOverlap (p : Edit × Edit) : Bool :=
  p.1.span.before p.2.span && p.1.span.overlaps p.2.span

/-- **The early end loses nothing**: in front of sorted edits, all that overlap are found. -/
theorem overlapping_eq_filter (h : Sorted (e :: es)) :
    overlapping e es = es.filter fun d => e.span.overlaps d.span := by
  obtain ⟨he, hes⟩ := List.pairwise_cons.mp h
  have hstop : ∀ d ∈ es, e.span.overlaps d.span = true → d.span.start ≤ e.span.stop := by
    intro d hd hover
    by_contra hlt
    rw [Span.overlaps_of_stop_lt (he d hd) (Nat.lt_of_not_le hlt)] at hover
    exact Bool.false_ne_true hover
  refine filter_takeWhile_of_pairwise (fun d hd hover => decide_eq_true (hstop d hd hover)) ?_
  refine hes.imp_of_mem fun {c d} _ hd hcd hover => decide_eq_true ?_
  exact Nat.le_trans (Span.start_le_of_before hcd) (hstop d hd hover)

/-- The pairs of sorted edits whose first edit is `e`. -/
theorem filter_map_isOverlap (h : Sorted (front ++ e :: es)) :
    ((front ++ e :: es).map (e, ·)).filter isOverlap = (overlapping e es).map (e, ·) := by
  obtain ⟨-, hes, hfront⟩ := List.pairwise_append.mp h
  have hnone : front.filter (isOverlap ∘ (e, ·)) = [] := by
    refine List.filter_eq_nil_iff.mpr fun d hd hover => ?_
    have hde := hfront d hd e List.mem_cons_self
    exact Span.not_before_self _ (Span.before_trans hde (Bool.and_eq_true_iff.mp hover).1)
  have hself : ¬ (isOverlap ∘ (e, ·)) e = true := fun hover =>
    Span.not_before_self _ (Bool.and_eq_true_iff.mp hover).1
  have hbehind : es.filter (isOverlap ∘ (e, ·)) = es.filter fun d => e.span.overlaps d.span := by
    refine List.filter_congr fun d hd => ?_
    have hed := (List.pairwise_cons.mp hes).1 d hd
    simp only [isOverlap, Function.comp_apply, hed, Bool.true_and]
  rw [List.filter_map, List.filter_append, List.filter_cons_of_neg hself, hnone, hbehind,
    overlapping_eq_filter hes, List.nil_append]

/-- The pairs of the sorted edits behind `front`. -/
theorem pairs_eq_filter_behind (h : Sorted (front ++ es)) :
    pairs es = (es ×ˢ (front ++ es)).filter isOverlap := by
  induction es generalizing front with
  | nil => rfl
  | cons e es ih =>
    have hrest : pairs es = (es ×ˢ (front ++ e :: es)).filter isOverlap := by
      rw [List.append_cons] at h ⊢
      exact ih h
    rw [pairs, List.product_cons, List.filter_append, filter_map_isOverlap h, hrest]

/-- **The pairs of sorted edits** are all pairs in order that overlap. -/
theorem pairs_eq_filter (h : Sorted es) : pairs es = (es ×ˢ es).filter isOverlap :=
  @pairs_eq_filter_behind es [] h

theorem mem_pairs (h : Sorted es) : (d, e) ∈ pairs es ↔
    (d ∈ es ∧ e ∈ es) ∧ d.span.before e.span = true ∧ d.span.overlaps e.span = true := by
  rw [pairs_eq_filter h, List.mem_filter, List.mem_product, isOverlap, Bool.and_eq_true]

/-- **The pairs are exactly the accepted edits in order that overlap**, whatever the policy and the
spans, in lexicographic order of their positions among the accepted edits, which are sorted. Under
`overlap` there are none. -/
theorem overlappingPairs_eq_filter (policy : ConflictPolicy) (proposals : List Edit) :
    let s := (empty policy).proposeAll proposals
    Sorted s.edits ∧
    s.overlappingPairs = (s.edits ×ˢ s.edits).filter
      (fun p => p.1.span.before p.2.span && p.1.span.overlaps p.2.span) ∧
    ((empty .overlap).proposeAll proposals).overlappingPairs = [] := by
  intro s
  have hsorted : Sorted s.edits := sorted_of_run policy proposals
  exact ⟨hsorted, pairs_eq_filter hsorted, pairs_eq_nil_of_noOverlap (noOverlap_run proposals)⟩

end ReplacementSet

/-! ## What the sweep skips -/

namespace Applied

variable {source : String} {cursor n : Nat} {e : Edit} {es : List Edit}

/-- The cursor is behind a byte if it was so before the sweep, or if an edit went in that ends
behind the byte. -/
theorem lt_cursorAfter_iff : n < cursorAfter source cursor es ↔
    n < cursor ∨ ∃ d ∈ appliedEdits source cursor es, n < d.span.stop := by
  induction es generalizing cursor with
  | nil => simp [cursorAfter, appliedEdits]
  | cons e es ih =>
    rw [cursorAfter]
    cases hr : refusal? source cursor e with
    | some reason => rw [appliedEdits_of_refused hr, ← ih]
    | none =>
      obtain ⟨-, hcursor, htext⟩ := refusal?_eq_none_iff.mp hr
      have hspan : e.span.start ≤ e.span.stop := (Text.slice?_isSome_iff.mp htext).1
      rw [appliedEdits_of_not_refused hr, List.exists_mem_cons_iff]
      simp only [ih]
      -- the cursor never goes back
      exact ⟨Or.inr, fun h => h.elim (fun hn => Or.inl (by omega)) id⟩

/-- Among sorted edits whose spans are ranges of the text, an edit is skipped exactly if an edit in
front of it goes in and ends behind its start. -/
theorem mem_skippedEdits_iff_exists_stop {before after : List Edit}
    (hsorted : ReplacementSet.Sorted (before ++ e :: after))
    (htext : (e.span.text? source).isSome = true) :
    e ∈ (sweep source 0 (before ++ e :: after)).skippedEdits ↔
      ∃ d ∈ before, d ∉ (sweep source 0 (before ++ e :: after)).skippedEdits ∧
        e.span.start < d.span.stop := by
  have hstop : e.span.stop ≤ source.utf8ByteSize := (Text.slice?_isSome_iff.mp htext).2.2.le
  have hin : before.filter (· ∉ (sweep source 0 (before ++ e :: after)).skippedEdits) =
      appliedEdits source 0 before := filter_skippedEdits_append hsorted.nodup
  rw [mem_skippedEdits_iff hsorted.nodup, refusal?_ne_none_iff, lt_cursorAfter_iff, ← hin]
  simp only [Nat.not_lt.mpr hstop, Nat.not_lt_zero, Option.isSome_iff_ne_none.mp htext, false_or,
    or_false, List.mem_filter, decide_eq_true_eq, and_assoc]

/-- **An edit is skipped exactly if it overlaps one in front of it that goes in.** -/
theorem mem_skippedEdits_iff_exists_pair (hsorted : ReplacementSet.Sorted es)
    (htext : ∀ d ∈ es, (d.span.text? source).isSome = true) :
    e ∈ (sweep source 0 es).skippedEdits ↔
      ∃ d, d ∉ (sweep source 0 es).skippedEdits ∧ (d, e) ∈ ReplacementSet.pairs es := by
  by_cases he : e ∈ es
  · have hle : ∀ d ∈ es, d.span.start ≤ d.span.stop := fun d hd =>
      (Text.slice?_isSome_iff.mp (htext d hd)).1
    obtain ⟨before, after, rfl⟩ := List.append_of_mem he
    obtain ⟨-, hafter, hbefore⟩ := List.pairwise_append.mp hsorted
    rw [mem_skippedEdits_iff_exists_stop hsorted (htext e he)]
    refine exists_congr fun d => ?_
    rw [ReplacementSet.mem_pairs hsorted]
    constructor
    · rintro ⟨hd, hin, hstop⟩
      have hmem : d ∈ before ++ e :: after := List.mem_append_left _ hd
      have hde := hbefore d hd e List.mem_cons_self
      exact ⟨hin, ⟨hmem, he⟩, hde,
        (Span.overlaps_iff_of_before (hle d hmem) (hle e he) hde).mpr hstop⟩
    · rintro ⟨hin, ⟨hmem, -⟩, hde, hover⟩
      have hstop := (Span.overlaps_iff_of_before (hle d hmem) (hle e he) hde).mp hover
      -- neither the edit itself nor one behind it comes before it
      rcases List.mem_append.mp hmem with hd | hd
      · exact ⟨hd, hin, hstop⟩
      rcases List.mem_cons.mp hd with rfl | hd
      · exact absurd hde (Span.not_before_self _)
      · have hed := (List.pairwise_cons.mp hafter).1 d hd
        exact absurd (Span.before_trans hde hed) (Span.not_before_self _)
  · refine iff_of_false (fun h => he (mem_of_mem_skippedEdits h)) ?_
    rintro ⟨d, -, hpair⟩
    exact he ((ReplacementSet.mem_pairs hsorted).mp hpair).1.2

theorem skippedEdits_eq_nil_iff {a : Applied} : a.skippedEdits = [] ↔ a.skipped = [] :=
  List.map_eq_nil_iff

end Applied

namespace ReplacementSet

open Text

/-- **The overlapping pairs tell what will be skipped.** For every set that proposals lead to and
every text that the accepted spans are ranges of: there are no overlapping pairs exactly if nothing
is skipped; every edit that is skipped is the second edit of a pair; and, pair by pair, an edit is
skipped exactly if the first edit of one of its pairs is not. -/
theorem skips_agree_with_pairs (policy : ConflictPolicy) (proposals : List Edit) (source : String)
    (hspans : ∀ e ∈ ((empty policy).proposeAll proposals).edits,
      e.span.start ≤ e.span.stop ∧ e.span.stop ≤ source.utf8ByteSize ∧
        IsBoundary source e.span.start ∧ IsBoundary source e.span.stop) :
    let s := (empty policy).proposeAll proposals
    let result := s.applyTo source
    (s.overlappingPairs = [] ↔ result.skipped = []) ∧
    (∀ skip ∈ result.skipped, ∃ d, (d, skip.edit) ∈ s.overlappingPairs) ∧
    ∀ e, e ∈ result.skippedEdits ↔
      ∃ d, d ∉ result.skippedEdits ∧ (d, e) ∈ s.overlappingPairs := by
  intro s result
  have hsorted : Sorted s.edits := sorted_of_run policy proposals
  have htext : ∀ e ∈ s.edits, (e.span.text? source).isSome = true := fun e he =>
    slice?_isSome_iff.mpr ⟨(hspans e he).1, (hspans e he).2.2⟩
  have hskip : ∀ e, e ∈ result.skippedEdits ↔
      ∃ d, d ∉ result.skippedEdits ∧ (d, e) ∈ s.overlappingPairs := fun e =>
    Applied.mem_skippedEdits_iff_exists_pair hsorted htext
  refine ⟨?_, fun skip h => ?_, hskip⟩
  · rw [← Applied.skippedEdits_eq_nil_iff, List.eq_nil_iff_forall_not_mem,
      List.eq_nil_iff_forall_not_mem]
    constructor
    · intro hpairs e he
      obtain ⟨d, -, hpair⟩ := (hskip e).mp he
      exact hpairs _ hpair
    · rintro hnone ⟨d, e⟩ hpair
      exact hnone e ((hskip e).mpr ⟨d, hnone d, hpair⟩)
  · obtain ⟨d, -, hpair⟩ := (hskip skip.edit).mp (List.mem_map_of_mem h)
    exact ⟨d, hpair⟩

/-- Three edits in a chain: the second overlaps the first and is skipped, so the third goes in,
though it overlaps the second. -/
theorem skips_agree_with_pairs_chain :
    let a : Edit := ⟨⟨0, 4⟩, "a", .callRename⟩
    let b : Edit := ⟨⟨2, 6⟩, "b", .typeRename⟩
    let c : Edit := ⟨⟨5, 8⟩, "c", .stringLiteral⟩
    let s := (empty .exactSpan).proposeAll [c, a, b]
    let result := s.applyTo "é234567"
    (∀ e ∈ s.edits, (e.span.text? "é234567").isSome = true) ∧
    s.overlappingPairs = [(a, b), (b, c)] ∧ result.skipped.map Skip.edit = [b] ∧
    (s.overlappingPairs = [] ↔ result.skipped = []) ∧
    (∀ skip ∈ result.skipped, ∃ d, (d, skip.edit) ∈ s.overlappingPairs) ∧
    ∀ e, e ∈ result.skippedEdits ↔
      ∃ d, d ∉ result.skippedEdits ∧ (d, e) ∈ s.overlappingPairs := by
  intro a b c s result
  have hedits : s.edits = [a, b, c] := by decide
  have htext : ∀ e ∈ s.edits, (e.span.text? "é234567").isSome = true := by
    rw [hedits]
    decide
  have hspans : ∀ e ∈ s.edits, e.span.start ≤ e.span.stop ∧
      e.span.stop ≤ "é234567".utf8ByteSize ∧ IsBoundary "é234567" e.span.start ∧
        IsBoundary "é234567" e.span.stop := fun e he =>
    let ⟨hle, hstart, hstop⟩ := slice?_isSome_iff.mp (htext e he)
    ⟨hle, hstop.le, hstart, hstop⟩
  exact ⟨htext, by decide, by decide, skips_agree_with_pairs .exactSpan [c, a, b] "é234567" hspans⟩

end ReplacementSet

/-! ## Two edits alone -/

namespace Applied

variable {source : String} {d e : Edit}

/-- Behind an edit that went in, the next one on a range of the text is refused exactly if they
overlap. -/
theorem refusal?_behind (hbefore : d.span.before e.span = true)
    (hd : (d.span.text? source).isSome = true) (he : (e.span.text? source).isSome = true) :
    refusal? source d.span.stop e =
      if d.span.overlaps e.span then some (.overlapsApplied e.span) else none := by
  obtain ⟨hdle, -, -⟩ := Text.slice?_isSome_iff.mp hd
  obtain ⟨hele, -, hstop⟩ := Text.slice?_isSome_iff.mp he
  have hover := Span.overlaps_iff_of_before hdle hele hbefore
  by_cases hlt : e.span.start < d.span.stop
  · rw [if_pos (hover.mpr hlt), refusal?, if_neg (Nat.not_lt.mpr hstop.le), if_pos hlt]
  · rw [if_neg fun h => hlt (hover.mp h)]
    exact refusal?_eq_none_iff.mpr ⟨hstop.le, Nat.le_of_not_lt hlt, he⟩

/-- Of two edits in order on ranges of the text, the first one goes in, and the second one exactly
if it does not overlap the first. -/
theorem sweep_pair (hbefore : d.span.before e.span = true)
    (hd : (d.span.text? source).isSome = true) (he : (e.span.text? source).isSome = true) :
    appliedEdits source 0 [d, e] = (if d.span.overlaps e.span then [d] else [d, e]) ∧
      (sweep source 0 [d, e]).skipped =
        if d.span.overlaps e.span then [⟨e, .overlapsApplied e.span⟩] else [] := by
  have hfirst : refusal? source 0 d = none :=
    refusal?_eq_none_iff.mpr ⟨(Text.slice?_isSome_iff.mp hd).2.2.le, Nat.zero_le _, hd⟩
  have hsecond := refusal?_behind hbefore hd he
  split_ifs at hsecond ⊢ with hover
  · exact ⟨by simp [appliedEdits, hfirst, hsecond], by simp [sweep, hfirst, hsecond]⟩
  · exact ⟨by simp [appliedEdits, hfirst, hsecond], by simp [sweep, hfirst, hsecond]⟩

end Applied

namespace ReplacementSet

open Text

variable {s : ReplacementSet} {source : String} {d e : Edit}

/-- Under `exactSpan` two edits of different spans are both accepted. -/
theorem proposeAll_pair (hne : d.span ≠ e.span) :
    ((empty .exactSpan).proposeAll [d, e]).edits.Perm [d, e] := by
  have hfirst : (empty .exactSpan).propose d = ⟨.exactSpan, [d], []⟩ := rfl
  have hfree : conflict? ⟨.exactSpan, [d], []⟩ e = none := by
    rw [conflict?_exactSpan rfl, get?_eq_none_iff.mpr (by simpa using hne), Option.map_none]
  have hrun : (empty .exactSpan).proposeAll [d, e] = ⟨.exactSpan, insertBySpan e [d], []⟩ := by
    show ((empty .exactSpan).propose d).propose e = _
    rw [hfirst, propose_of_not_conflict hfree]
  rw [hrun, List.perm_pair]
  by_cases hbefore : d.span.before e.span = true
  · exact Or.inl (by simp [insertBySpan, hbefore])
  · exact Or.inr (by simp [insertBySpan, hbefore])

/-- What becomes of two accepted edits on ranges of the text. -/
theorem applyTo_pair (hedits : s.edits = [d, e]) (hsorted : Sorted s.edits)
    (hd : (d.span.text? source).isSome = true) (he : (e.span.text? source).isSome = true) :
    let result := s.applyTo source
    (d.span.overlaps e.span = false → result.applied = 2 ∧ result.skipped = [] ∧
      Applied.replaceAll? source [d, e] = some result.text) ∧
    (d.span.overlaps e.span = true → result.applied = 1 ∧
      result.skipped = [⟨e, .overlapsApplied e.span⟩] ∧
      Applied.replaceAll? source [d] = some result.text) := by
  intro result
  have hresult : result = Applied.sweep source 0 [d, e] := congrArg (Applied.sweep source 0) hedits
  rw [hedits] at hsorted
  have hbefore : d.span.before e.span = true := List.rel_of_pairwise_cons hsorted List.mem_cons_self
  obtain ⟨hin, hskipped⟩ := Applied.sweep_pair hbefore hd he
  have hcount := Applied.applied_sweep source 0 [d, e]
  have htext := Applied.replaceAll?_appliedEdits (slice?_self (isBoundary_zero source)) [d, e]
  rw [String.empty_append] at htext
  rw [hin] at hcount htext
  rw [hresult]
  constructor
  · intro hover
    simp only [hover, Bool.false_eq_true, if_false] at hcount hskipped htext
    exact ⟨hcount, hskipped, htext⟩
  · intro hover
    simp only [hover, if_true] at hcount hskipped htext
    exact ⟨hcount, hskipped, htext⟩

/-- **Two spans overlap exactly if they cannot both be applied.** Between spans that are not
inverted, overlap is symmetric, and there is none exactly if the spans differ and one of them ends
at or before the start of the other. Two edits of different spans are both accepted under
`exactSpan`. Whatever else was proposed to a set that holds just these two, in every text that has
the ends of the spans on character boundaries both go in, as if made one at a time, exactly if the
spans do not overlap. If they do, the one that comes first goes in, and the other one is skipped
for it. -/
theorem both_applied_iff (a b : Span) (ha : a.start ≤ a.stop) (hb : b.start ≤ b.stop) :
    a.overlaps b = b.overlaps a ∧
    (a.overlaps b = false ↔ a ≠ b ∧ (a.stop ≤ b.start ∨ b.stop ≤ a.start)) ∧
    ∀ (source : String) (d e : Edit), d.span = a → e.span = b → a ≠ b →
      IsBoundary source a.start ∧ IsBoundary source a.stop →
      IsBoundary source b.start ∧ IsBoundary source b.stop →
      ((empty .exactSpan).proposeAll [d, e]).edits.Perm [d, e] ∧
      ∀ proposals,
        let s := (empty .exactSpan).proposeAll proposals
        let result := s.applyTo source
        s.edits.Perm [d, e] →
        (result.applied = 2 ↔ a.overlaps b = false) ∧
        ∃ first second, s.edits = [first, second] ∧
          (a.overlaps b = false → result.skipped = [] ∧
            Applied.replaceAll? source [first, second] = some result.text) ∧
          (a.overlaps b = true → result.skipped = [⟨second, .overlapsApplied second.span⟩] ∧
            Applied.replaceAll? source [first] = some result.text) := by
  refine ⟨Span.overlaps_comm a b, Span.overlaps_eq_false_iff ha hb, ?_⟩
  rintro source d e rfl rfl hne ⟨hdstart, hdstop⟩ ⟨hestart, hestop⟩
  refine ⟨proposeAll_pair hne, ?_⟩
  intro proposals s result hperm
  have hsorted : Sorted s.edits := sorted_of_run .exactSpan proposals
  have hd : (d.span.text? source).isSome = true := slice?_isSome_iff.mpr ⟨ha, hdstart, hdstop⟩
  have he : (e.span.text? source).isSome = true := slice?_isSome_iff.mpr ⟨hb, hestart, hestop⟩
  -- the set holds the two edits in order, whichever was accepted first
  obtain ⟨first, second, hedits, hover, hfirst, hsecond⟩ : ∃ first second : Edit,
      s.edits = [first, second] ∧ first.span.overlaps second.span = d.span.overlaps e.span ∧
        (first.span.text? source).isSome = true ∧ (second.span.text? source).isSome = true := by
    rcases List.perm_pair.mp hperm with h | h
    · exact ⟨d, e, h, rfl, hd, he⟩
    · exact ⟨e, d, h, Span.overlaps_comm e.span d.span, he, hd⟩
  obtain ⟨hapart, hmeet⟩ := applyTo_pair hedits hsorted hfirst hsecond
  rw [hover] at hapart hmeet
  refine ⟨⟨fun happlied => ?_, fun h => (hapart h).1⟩, first, second, hedits,
    fun h => (hapart h).2, fun h => (hmeet h).2⟩
  by_contra h
  have hone := (hmeet (Bool.not_eq_false _ ▸ h)).1
  exact absurd (happlied.symm.trans hone) (by decide)

/-- An insertion at the edge of a range goes in with it, and one inside the range does not. -/
theorem both_applied_iff_insertions :
    let range : Edit := ⟨⟨2, 4⟩, "xyz", .callRename⟩
    let edge : Edit := ⟨⟨4, 4⟩, "(", .kernelParameters⟩
    let inside : Edit := ⟨⟨3, 3⟩, "-", .kernelParameters⟩
    let source := "é234"
    let result (e : Edit) := ((empty .exactSpan).proposeAll [range, e]).applyTo source
    (range.span.start ≤ range.span.stop ∧ edge.span.start ≤ edge.span.stop ∧
      inside.span.start ≤ inside.span.stop) ∧
    (range.span ≠ edge.span ∧ range.span ≠ inside.span) ∧
    (∀ n ∈ [2, 3, 4], IsBoundary source n) ∧
    (result edge).applied = 2 ∧ (result inside).applied ≠ 2 := by
  intro range edge inside source result
  have hspans : range.span.start ≤ range.span.stop ∧ edge.span.start ≤ edge.span.stop ∧
      inside.span.start ≤ inside.span.stop := by decide
  have hne : range.span ≠ edge.span ∧ range.span ≠ inside.span := by decide
  have hbounds : ∀ n ∈ [2, 3, 4], IsBoundary source n := by
    have hslices : ∀ n ∈ [2, 3, 4], (slice? source n n).isSome = true := by decide
    exact fun n hn => (slice?_isSome_iff.mp (hslices n hn)).2.1
  have hrange := And.intro (hbounds 2 (by decide)) (hbounds 4 (by decide))
  obtain ⟨-, -, hedge⟩ := both_applied_iff range.span edge.span hspans.1 hspans.2.1
  obtain ⟨-, -, hinside⟩ := both_applied_iff range.span inside.span hspans.1 hspans.2.2
  obtain ⟨hheld, hedge⟩ := hedge source range edge rfl rfl hne.1 hrange
    ⟨hbounds 4 (by decide), hbounds 4 (by decide)⟩
  obtain ⟨hheld', hinside⟩ := hinside source range inside rfl rfl hne.2 hrange
    ⟨hbounds 3 (by decide), hbounds 3 (by decide)⟩
  refine ⟨hspans, hne, hbounds, (hedge _ hheld).1.mpr (by decide), fun h => ?_⟩
  exact absurd ((hinside _ hheld').1.mp h) (by decide)

end ReplacementSet

end CudaToHip
