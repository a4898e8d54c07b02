import CudaToHip.Proofs.Replacement.Accepted
import CudaToHip.Proofs.Text.Boundary
import CudaToHip.Replacement.Apply
import Mathlib.Data.List.Nodup

/-!
# The sweep and back-to-front replacement

The sweep builds the new text from the front, behind a cursor in the old one. The text it builds is
what comes out when the edits that go in are made one at a time, from the last to the first, each by
a plain replacement of its range (`replaceAll?_appliedEdits`). Such a replacement never moves the
range of an edit further in front, so every edit is made in the coordinates of the old text.

* `appliedEdits`: the edits that go in, and `cursorAfter`: where the cursor stands behind them.
* `sweep?`: the sweep with checked slices. It is the sweep (`sweep?_eq_some_sweep`), so no slice of
  the sweep is ever out of range.
* `sweep_of_row`: edits in order that do not overlap all go in.
* `SweepsTo`: what the edits make of the text from a place on, piece by piece.
-/

namespace CudaToHip

/-- The text with the bytes `start` to `stop` exchanged for `new`, if they are a range of it that
splits no character. -/
def Text.replaceRange? (s : String) (start stop : Nat) (new : String) : Option String := do
  let before ← slice? s 0 start
  let _ ← slice? s start stop
  let after ← slice? s stop s.utf8ByteSize
  return before ++ new ++ after

namespace Applied

open Text

variable {source : String} {cursor : Nat} {e d : Edit} {es : List Edit}

/-- The edits of a sweep that go in. -/
def appliedEdits (source : String) (cursor : Nat) : List Edit → List Edit
  | [] => []
  | e :: es =>
    match refusal? source cursor e with
    | some _ => appliedEdits source cursor es
    | none => e :: appliedEdits source e.span.stop es

/-- Where the cursor stands after a sweep. -/
def cursorAfter (source : String) (cursor : Nat) : List Edit → Nat
  | [] => cursor
  | e :: es =>
    match refusal? source cursor e with
    | some _ => cursorAfter source cursor es
    | none => cursorAfter source e.span.stop es

/-- The sweep with every slice checked. -/
def sweep? (source : String) (cursor : Nat) : List Edit → Option Applied
  | [] => do
    let tail ← slice? source cursor source.utf8ByteSize
    return ⟨tail, 0, []⟩
  | e :: es =>
    match refusal? source cursor e with
    | some reason => do
      let rest ← sweep? source cursor es
      return { rest with skipped := ⟨e, reason⟩ :: rest.skipped }
    | none => do
      let kept ← slice? source cursor e.span.start
      let rest ← sweep? source e.span.stop es
      return { rest with
        text := kept ++ e.newText ++ rest.text
        applied := rest.applied + 1 }

/-- The edits made one at a time, from the last to the first. -/
def replaceAll? (source : String) (es : List Edit) : Option String :=
  es.foldrM (fun e text => replaceRange? text e.span.start e.span.stop e.newText) source

/-! ## When an edit is refused -/

theorem refusal?_eq_none_iff : refusal? source cursor e = none ↔
    e.span.stop ≤ source.utf8ByteSize ∧ cursor ≤ e.span.start ∧
      (e.span.text? source).isSome = true := by
  unfold refusal?
  dsimp only
  split_ifs with hstop hstart htext
  · simp [Nat.not_le.mpr hstop]
  · simp [Nat.not_le.mpr hstart]
  · rw [Option.isNone_iff_eq_none] at htext
    simp [htext]
  · rw [Option.isNone_iff_eq_none, ← ne_eq, Option.ne_none_iff_isSome] at htext
    simp [htext, Nat.le_of_not_lt hstop, Nat.le_of_not_lt hstart]

theorem refusal?_ne_none_iff : refusal? source cursor e ≠ none ↔
    source.utf8ByteSize < e.span.stop ∨ e.span.start < cursor ∨ e.span.text? source = none := by
  rw [ne_eq, refusal?_eq_none_iff, not_and_or, not_and_or, Nat.not_le, Nat.not_le,
    Option.not_isSome_iff_eq_none]

/-- The slices on both sides of an edit that goes in. -/
theorem slices_of_not_refused (hcursor : IsBoundary source cursor)
    (h : refusal? source cursor e = none) :
    slice? source cursor e.span.start = some (between source cursor e.span.start) ∧
      IsBoundary source e.span.stop ∧ e.span.start ≤ e.span.stop := by
  obtain ⟨-, hle, htext⟩ := refusal?_eq_none_iff.mp h
  obtain ⟨hspan, hstart, hstop⟩ := slice?_isSome_iff.mp htext
  exact ⟨slice?_eq_between hle hcursor hstart, hstop, hspan⟩

/-- An edit that is refused leaves no trace in the text. -/
theorem text_sweep_of_refused (h : refusal? source cursor e ≠ none) :
    (sweep source cursor (e :: es)).text = (sweep source cursor es).text := by
  obtain ⟨reason, hr⟩ := Option.ne_none_iff_exists'.mp h
  rw [sweep]
  simp only [hr]

theorem text_sweep_of_not_refused (h : refusal? source cursor e = none) :
    (sweep source cursor (e :: es)).text =
      between source cursor e.span.start ++ e.newText ++ (sweep source e.span.stop es).text := by
  rw [sweep]
  simp only [h]

/-! ## Checked slices -/

/-- **No slice of the sweep is out of range.** -/
theorem sweep?_eq_some_sweep (hcursor : IsBoundary source cursor) (es : List Edit) :
    sweep? source cursor es = some (sweep source cursor es) := by
  induction es generalizing cursor with
  | nil =>
    unfold sweep? sweep
    rw [slice?_eq_between hcursor.le hcursor (isBoundary_utf8ByteSize source)]
    rfl
  | cons e es ih =>
    unfold sweep? sweep
    cases hr : refusal? source cursor e with
    | some reason =>
      simp only [ih hcursor]
      rfl
    | none =>
      obtain ⟨hkept, hstop, -⟩ := slices_of_not_refused hcursor hr
      simp only [hkept, ih hstop]
      rfl

/-! ## Which edits go in -/

theorem applied_sweep (source : String) (cursor : Nat) (es : List Edit) :
    (sweep source cursor es).applied = (appliedEdits source cursor es).length := by
  induction es generalizing cursor with
  | nil => rfl
  | cons e es ih =>
    unfold sweep appliedEdits
    cases refusal? source cursor e with
    | some reason => exact ih cursor
    | none => exact congrArg (· + 1) (ih e.span.stop)

/-- The edits that are skipped. -/
def skippedEdits (a : Applied) : List Edit := a.skipped.map Skip.edit

theorem skippedEdits_sweep_of_refused {reason : SkipReason}
    (h : refusal? source cursor e = some reason) :
    (sweep source cursor (e :: es)).skippedEdits = e :: (sweep source cursor es).skippedEdits := by
  unfold skippedEdits
  rw [sweep]
  simp only [h, List.map_cons]

theorem skippedEdits_sweep_of_not_refused (h : refusal? source cursor e = none) :
    (sweep source cursor (e :: es)).skippedEdits =
      (sweep source e.span.stop es).skippedEdits := by
  unfold skippedEdits
  rw [sweep]
  simp only [h]

theorem appliedEdits_of_refused {reason : SkipReason}
    (h : refusal? source cursor e = some reason) :
    appliedEdits source cursor (e :: es) = appliedEdits source cursor es := by
  rw [appliedEdits]
  simp only [h]

theorem appliedEdits_of_not_refused (h : refusal? source cursor e = none) :
    appliedEdits source cursor (e :: es) = e :: appliedEdits source e.span.stop es := by
  rw [appliedEdits]
  simp only [h]

theorem mem_of_mem_skippedEdits (h : d ∈ (sweep source cursor es).skippedEdits) : d ∈ es := by
  induction es generalizing cursor with
  | nil => exact absurd h List.not_mem_nil
  | cons e es ih =>
    cases hr : refusal? source cursor e with
    | some reason =>
      rw [skippedEdits_sweep_of_refused hr] at h
      rcases List.mem_cons.mp h with rfl | h
      · exact List.mem_cons_self
      · exact List.mem_cons_of_mem e (ih h)
    | none =>
      rw [skippedEdits_sweep_of_not_refused hr] at h
      exact List.mem_cons_of_mem e (ih h)

/-- **Every edit goes in or is skipped**: of edits without repetition, those that go in are the ones
not skipped, and the skipped ones are listed once each and in order. -/
theorem filter_skippedEdits (source : String) (cursor : Nat) (hes : es.Nodup) :
    es.filter (· ∉ (sweep source cursor es).skippedEdits) = appliedEdits source cursor es ∧
    es.filter (· ∈ (sweep source cursor es).skippedEdits) =
      (sweep source cursor es).skippedEdits := by
  induction es generalizing cursor with
  | nil => exact ⟨rfl, rfl⟩
  | cons e es ih =>
    obtain ⟨he, hes⟩ := List.nodup_cons.mp hes
    cases hr : refusal? source cursor e with
    | some reason =>
      obtain ⟨hin, hout⟩ := ih cursor hes
      rw [skippedEdits_sweep_of_refused hr, appliedEdits_of_refused hr,
        List.filter_cons_of_neg (by simp), List.filter_cons_of_pos (by simp)]
      constructor
      · rw [← hin]
        refine List.filter_congr fun x hx => ?_
        have : x ≠ e := fun h => he (h ▸ hx)
        simp [this]
      · refine congrArg (e :: ·) (Eq.trans (List.filter_congr fun x hx => ?_) hout)
        have : x ≠ e := fun h => he (h ▸ hx)
        simp [this]
    | none =>
      obtain ⟨hin, hout⟩ := ih e.span.stop hes
      have hskip : e ∉ (sweep source e.span.stop es).skippedEdits :=
        fun h => he (mem_of_mem_skippedEdits h)
      rw [skippedEdits_sweep_of_not_refused hr, appliedEdits_of_not_refused hr,
        List.filter_cons_of_pos (by simp [hskip]), List.filter_cons_of_neg (by simp [hskip])]
      exact ⟨congrArg (e :: ·) hin, hout⟩

/-! ## Where the cursor stands -/

theorem skippedEdits_append (source : String) (cursor : Nat) (es ds : List Edit) :
    (sweep source cursor (es ++ ds)).skippedEdits =
      (sweep source cursor es).skippedEdits ++
        (sweep source (cursorAfter source cursor es) ds).skippedEdits := by
  induction es generalizing cursor with
  | nil => rfl
  | cons e es ih =>
    rw [List.cons_append, cursorAfter]
    cases hr : refusal? source cursor e with
    | some reason =>
      rw [skippedEdits_sweep_of_refused hr, skippedEdits_sweep_of_refused hr, ih,
        List.cons_append]
    | none => rw [skippedEdits_sweep_of_not_refused hr, skippedEdits_sweep_of_not_refused hr, ih]

/-- The cursor stands behind the last edit that went in. -/
theorem cursorAfter_eq (source : String) (cursor : Nat) (es : List Edit) :
    cursorAfter source cursor es =
      ((appliedEdits source cursor es).getLast?.map (·.span.stop)).getD cursor := by
  induction es generalizing cursor with
  | nil => rfl
  | cons e es ih =>
    rw [cursorAfter]
    cases hr : refusal? source cursor e with
    | some reason => rw [appliedEdits_of_refused hr, ← ih]
    | none =>
      rw [appliedEdits_of_not_refused hr, List.getLast?_cons, Option.map_some, Option.getD_some]
      simp only [ih]
      cases (appliedEdits source e.span.stop es).getLast? <;> rfl

/-- An edit is skipped exactly if it is refused where the cursor stands behind those before it. -/
theorem mem_skippedEdits_iff {before after : List Edit} (hnodup : (before ++ e :: after).Nodup) :
    e ∈ (sweep source cursor (before ++ e :: after)).skippedEdits ↔
      refusal? source (cursorAfter source cursor before) e ≠ none := by
  obtain ⟨hbefore, hafter⟩ := List.nodup_cons.mp (List.nodup_middle.mp hnodup)
  rw [List.mem_append, not_or] at hbefore
  rw [skippedEdits_append, List.mem_append]
  cases hr : refusal? source (cursorAfter source cursor before) e with
  | some reason => simp [skippedEdits_sweep_of_refused hr]
  | none =>
    rw [skippedEdits_sweep_of_not_refused hr]
    refine ⟨fun h => ?_, fun h => absurd rfl h⟩
    rcases h with h | h
    · exact absurd (mem_of_mem_skippedEdits h) hbefore.1
    · exact absurd (mem_of_mem_skippedEdits h) hbefore.2

/-- The edits in front of one that go in do not depend on what comes behind them. -/
theorem filter_skippedEdits_append {before after : List Edit} (hnodup : (before ++ after).Nodup) :
    before.filter (· ∉ (sweep source cursor (before ++ after)).skippedEdits) =
      appliedEdits source cursor before := by
  obtain ⟨hbefore, -, hdisjoint⟩ := List.nodup_append.mp hnodup
  rw [← (filter_skippedEdits source cursor hbefore).1, skippedEdits_append]
  refine List.filter_congr fun x hx => ?_
  have hx' : x ∉ (sweep source (cursorAfter source cursor before) after).skippedEdits :=
    fun h => hdisjoint x hx x (mem_of_mem_skippedEdits h) rfl
  simp [hx']

/-! ## One replacement at a time -/

theorem replaceRange?_append {u m v : String} {start stop : Nat} (new : String)
    (hstart : start = u.utf8ByteSize) (hstop : stop = start + m.utf8ByteSize) :
    replaceRange? (u ++ m ++ v) start stop new = some (u ++ new ++ v) := by
  have hm : slice? (u ++ m ++ v) start stop = some m :=
    slice?_eq_some_iff.mpr ⟨u, v, rfl, hstart, hstop⟩
  have hu : slice? (u ++ m ++ v) 0 start = some u :=
    slice?_eq_some_iff.mpr ⟨"", m ++ v, by simp [String.append_assoc], by simp, by simp [hstart]⟩
  have hv : slice? (u ++ m ++ v) stop (u ++ m ++ v).utf8ByteSize = some v :=
    slice?_eq_some_iff.mpr ⟨u ++ m, "", by simp, by simp [String.utf8ByteSize_append, hstop, hstart],
      by simp [String.utf8ByteSize_append, hstop, hstart]⟩
  unfold replaceRange?
  rw [hm, hu, hv]
  rfl

/-- **The sweep and back-to-front replacement agree.** The edits that go in, made one at a time from
the last to the first, leave the text up to the cursor alone and turn the rest into the text of the
sweep. -/
theorem replaceAll?_appliedEdits {front : String} (hfront : slice? source 0 cursor = some front)
    (es : List Edit) :
    replaceAll? source (appliedEdits source cursor es) =
      some (front ++ (sweep source cursor es).text) := by
  have hcursor : IsBoundary source cursor :=
    (slice?_isSome_iff.mp (Option.isSome_of_eq_some hfront)).2.2
  induction es generalizing cursor front with
  | nil =>
    have htail := slice?_eq_between hcursor.le hcursor (isBoundary_utf8ByteSize source)
    have hall : slice? source 0 source.utf8ByteSize = some source :=
      slice?_eq_some_iff.mpr ⟨"", "", by simp, by simp, by simp⟩
    exact hall.symm.trans (slice?_join hfront htail)
  | cons e es ih =>
    cases hr : refusal? source cursor e with
    | some reason =>
      rw [appliedEdits_of_refused hr, ih hfront hcursor, sweep]
      simp only [hr]
    | none =>
      obtain ⟨hkept, hstop, -⟩ := slices_of_not_refused hcursor hr
      obtain ⟨mid, hmid⟩ := Option.isSome_iff_exists.mp (refusal?_eq_none_iff.mp hr).2.2
      have hstart := slice?_join hfront hkept
      have hrest := ih (slice?_join hstart hmid) hstop
      rw [appliedEdits_of_not_refused hr, sweep]
      simp only [hr]
      unfold replaceAll? at hrest ⊢
      rw [List.foldrM_cons, hrest]
      have hs := utf8ByteSize_of_slice? hstart
      have hm := utf8ByteSize_of_slice? hmid
      rw [Nat.zero_add] at hs
      simp only [Option.bind_eq_bind, Option.bind_some]
      rw [replaceRange?_append e.newText hs hm]
      simp only [String.append_assoc]

/-! ## Edits in a row -/

/-- Edits on valid ranges, each behind the one before it, all go in. -/
theorem sweep_of_row (hrow : es.Pairwise fun a b => a.span.stop ≤ b.span.start)
    (hcursor : ∀ e ∈ es, cursor ≤ e.span.start)
    (htext : ∀ e ∈ es, (e.span.text? source).isSome = true) :
    (sweep source cursor es).skipped = [] := by
  induction es generalizing cursor with
  | nil => rfl
  | cons e es ih =>
    obtain ⟨he, hes⟩ := List.pairwise_cons.mp hrow
    have hstop : e.span.stop ≤ source.utf8ByteSize :=
      (slice?_isSome_iff.mp (htext e List.mem_cons_self)).2.2.le
    have hr : refusal? source cursor e = none :=
      refusal?_eq_none_iff.mpr ⟨hstop, hcursor e List.mem_cons_self, htext e List.mem_cons_self⟩
    rw [sweep]
    simp only [hr]
    exact ih hes he fun d hd => htext d (List.mem_cons_of_mem e hd)

/-! ## The text from a place on -/

/-- From byte `pos` on, the edits make the text `out`: behind every cursor in front of it, the sweep
keeps the text up to `pos` and goes on with `out`. -/
def SweepsTo (source : String) (pos : Nat) (es : List Edit) (out : String) : Prop :=
  ∀ cursor kept, slice? source cursor pos = some kept →
    (sweep source cursor es).text = kept ++ out

namespace SweepsTo

variable {pos stop : Nat} {piece out : String}

/-- Without edits the rest of the text is kept. -/
theorem nil : SweepsTo source source.utf8ByteSize [] "" := by
  intro cursor kept hkept
  rw [String.append_empty]
  exact between_of_slice? hkept

/-- A piece in front of all edits is kept. -/
theorem kept (hpiece : slice? source pos stop = some piece) (h : SweepsTo source stop es out) :
    SweepsTo source pos es (piece ++ out) := by
  intro cursor kept hkept
  rw [← String.append_assoc]
  exact h cursor _ (slice?_join hkept hpiece)

/-- A piece that the first edit stands for is exchanged. -/
theorem replaced (hpiece : e.span.text? source = some piece)
    (h : SweepsTo source e.span.stop es out) :
    SweepsTo source e.span.start (e :: es) (e.newText ++ out) := by
  intro cursor kept hkept
  have hin := Option.isSome_of_eq_some hpiece
  have hstop := (slice?_isSome_iff.mp hin).2.2
  have hgoes : refusal? source cursor e = none :=
    refusal?_eq_none_iff.mpr
      ⟨hstop.le, (slice?_isSome_iff.mp (Option.isSome_of_eq_some hkept)).1, hin⟩
  have hrest := h e.span.stop "" (slice?_self hstop)
  rw [String.empty_append] at hrest
  rw [sweep]
  simp only [hgoes, hrest, between_of_slice? hkept, String.append_assoc]

end SweepsTo

end Applied

/-- **Applying a set is exact.** For every set that proposals lead to and every text: no slice is out
of range; each accepted edit is counted once, as applied or as skipped; an edit is skipped exactly
if it ends behind the text, or starts before the end of the last edit applied in front of it, or its
span is no slice of the text; and the new text is the old one with the applied edits made one at a
time from the last to the first. -/
theorem ReplacementSet.applyTo_exact (policy : ConflictPolicy) (proposals : List Edit)
    (source : String) :
    let s := (ReplacementSet.empty policy).proposeAll proposals
    let result := s.applyTo source
    let applied := s.edits.filter (· ∉ result.skippedEdits)
    ReplacementSet.Sorted s.edits ∧
    Applied.sweep? source 0 s.edits = some result ∧
    (result.applied = applied.length ∧
      s.edits.filter (· ∈ result.skippedEdits) = result.skippedEdits ∧
      result.applied + result.skipped.length = s.size) ∧
    (∀ before e after, s.edits = before ++ e :: after →
      (e ∈ result.skippedEdits ↔
        source.utf8ByteSize < e.span.stop ∨
        (∃ d, (before.filter (· ∉ result.skippedEdits)).getLast? = some d ∧
          e.span.start < d.span.stop) ∨
        e.span.text? source = none)) ∧
    Applied.replaceAll? source applied = some result.text := by
  intro s result applied
  have hsorted : ReplacementSet.Sorted s.edits := ReplacementSet.sorted_of_run policy proposals
  obtain ⟨happlied, hskipped⟩ := Applied.filter_skippedEdits source 0 hsorted.nodup
  refine ⟨hsorted, Applied.sweep?_eq_some_sweep (Text.isBoundary_zero source) s.edits,
    ⟨?_, hskipped, Applied.applied_add_skipped source 0 s.edits⟩, ?_, ?_⟩
  · exact (Applied.applied_sweep source 0 s.edits).trans (congrArg List.length happlied.symm)
  · intro before e after hsplit
    have hnodup : (before ++ e :: after).Nodup := hsplit ▸ hsorted.nodup
    have hresult : result = Applied.sweep source 0 (before ++ e :: after) := by
      rw [← hsplit]
      rfl
    rw [hresult, Applied.mem_skippedEdits_iff hnodup, Applied.refusal?_ne_none_iff,
      Applied.filter_skippedEdits_append hnodup, Applied.cursorAfter_eq]
    refine or_congr Iff.rfl (or_congr ?_ Iff.rfl)
    cases (Applied.appliedEdits source 0 before).getLast? with
    | none => simp
    | some d => simp
  · have hfront : Text.slice? source 0 0 = some "" :=
      Text.slice?_eq_some_iff.mpr ⟨"", source, by simp, by simp, by simp⟩
    have happly := Applied.replaceAll?_appliedEdits hfront s.edits
    rw [String.empty_append] at happly
    exact (congrArg (Applied.replaceAll? source) happlied).trans happly

end CudaToHip
