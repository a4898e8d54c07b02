import CudaToHip.Proofs.Replacement.Sweep

/-!
# Edits of a divided text

Where no edit reaches over a place of the text, the sweep may be made on each side of it by itself:
the edits behind the place are then counted from there (`Edit.rebase`).

* `text_sweep_rebase`: a sweep that begins behind the front part never looks at it.
* `text_sweep_cursor`: what stands between the cursor and all edits is kept.
* `text_sweep_divide`: the text of a sweep is that of both parts.
-/

namespace CudaToHip

/-- The edit with its offsets counted from byte `n`. -/
def Edit.rebase (n : Nat) (e : Edit) : Edit :=
  { e with span := ⟨e.span.start - n, e.span.stop - n⟩ }

theorem Edit.rebase_rebase (m n : Nat) (e : Edit) : (e.rebase m).rebase n = e.rebase (m + n) := by
  simp only [rebase, Nat.sub_sub]

/-- Both ends of the edit are at byte `n` or behind it. -/
def Edit.IsFrom (n : Nat) (e : Edit) : Prop := n ≤ e.span.start ∧ n ≤ e.span.stop

namespace Applied

open Text

variable {u v : String} {cursor : Nat} {e : Edit} {es before after : List Edit}

/-- What is in the way of an edit behind the front part does not depend on that part. -/
theorem refusal?_rebase (h : e.IsFrom u.utf8ByteSize) :
    refusal? (u ++ v) (u.utf8ByteSize + cursor) e = none ↔
      refusal? v cursor (e.rebase u.utf8ByteSize) = none := by
  obtain ⟨hstart, hstop⟩ := h
  have htext : e.span.text? (u ++ v) = (e.rebase u.utf8ByteSize).span.text? v := by
    have hslice := @slice?_append_right u v (e.span.start - u.utf8ByteSize)
      (e.span.stop - u.utf8ByteSize)
    rw [Nat.add_sub_cancel' hstart, Nat.add_sub_cancel' hstop] at hslice
    exact hslice
  rw [refusal?_eq_none_iff, refusal?_eq_none_iff, htext, String.utf8ByteSize_append]
  dsimp only [Edit.rebase]
  exact and_congr (by omega) (and_congr (by omega) Iff.rfl)

/-- **A sweep behind the front part** is a sweep over the rest alone. -/
theorem text_sweep_rebase (hes : ∀ e ∈ es, e.IsFrom u.utf8ByteSize) :
    (sweep (u ++ v) (u.utf8ByteSize + cursor) es).text =
      (sweep v cursor (es.map (Edit.rebase u.utf8ByteSize))).text := by
  induction es generalizing cursor with
  | nil =>
    show between _ _ _ = between _ _ _
    rw [between, between, String.utf8ByteSize_append, slice?_append_right]
  | cons e es ih =>
    obtain ⟨he, hes⟩ := List.forall_mem_cons.mp hes
    rw [List.map_cons]
    by_cases hr : refusal? (u ++ v) (u.utf8ByteSize + cursor) e = none
    · have hkept := @slice?_append_right u v cursor (e.span.start - u.utf8ByteSize)
      have hrest := @ih (e.span.stop - u.utf8ByteSize) hes
      rw [Nat.add_sub_cancel' he.1] at hkept
      rw [Nat.add_sub_cancel' he.2] at hrest
      rw [text_sweep_of_not_refused hr, text_sweep_of_not_refused ((refusal?_rebase he).mp hr),
        hrest, between, hkept]
      rfl
    · rw [text_sweep_of_refused hr, text_sweep_of_refused ((refusal?_rebase he).not.mp hr), ih hes]

/-- What is in the way of an edit of the front part does not depend on the rest. -/
theorem refusal?_front (h : e.span.stop ≤ u.utf8ByteSize) :
    refusal? (u ++ v) cursor e = none ↔ refusal? u cursor e = none := by
  have htext : e.span.text? (u ++ v) = e.span.text? u := slice?_append_left h
  rw [refusal?_eq_none_iff, refusal?_eq_none_iff, htext, String.utf8ByteSize_append]
  exact and_congr (by omega) Iff.rfl

/-- The text between the cursor and a place in front of all edits is kept. -/
theorem text_sweep_cursor {source : String} {pos : Nat} (hcursor : IsBoundary source cursor)
    (hpos : IsBoundary source pos) (hle : cursor ≤ pos) (hes : ∀ e ∈ es, pos ≤ e.span.start) :
    (sweep source cursor es).text = between source cursor pos ++ (sweep source pos es).text := by
  have hkept := slice?_eq_between hle hcursor hpos
  induction es with
  | nil =>
    have htail := slice?_eq_between hpos.le hpos (isBoundary_utf8ByteSize source)
    exact between_of_slice? (slice?_join hkept htail)
  | cons e es ih =>
    obtain ⟨he, hes⟩ := List.forall_mem_cons.mp hes
    have hsame : refusal? source cursor e = none ↔ refusal? source pos e = none := by
      rw [refusal?_eq_none_iff, refusal?_eq_none_iff]
      exact and_congr Iff.rfl (and_congr (by omega) Iff.rfl)
    by_cases hr : refusal? source cursor e = none
    · have hr' := hsame.mp hr
      have hgap := (slices_of_not_refused hpos hr').1
      rw [text_sweep_of_not_refused hr, text_sweep_of_not_refused hr',
        between_of_slice? (slice?_join hkept hgap)]
      simp only [String.append_assoc]
    · rw [text_sweep_of_refused hr, text_sweep_of_refused (hsame.not.mp hr), ih hes]

/-- Edits behind the front part leave what is left of it as it is. -/
theorem text_sweep_from (hcursor : IsBoundary u cursor)
    (hes : ∀ e ∈ es, e.IsFrom u.utf8ByteSize) :
    (sweep (u ++ v) cursor es).text =
      since u cursor ++ (sweep v 0 (es.map (Edit.rebase u.utf8ByteSize))).text := by
  have hfront : between (u ++ v) cursor u.utf8ByteSize = since u cursor := by
    rw [between, slice?_append_left (Nat.le_refl _)]
    rfl
  rw [text_sweep_cursor ((isBoundary_append_left hcursor.le).mpr hcursor) ⟨u, v, rfl, rfl⟩
    hcursor.le fun e he => (hes e he).1, hfront]
  have hrest : (sweep (u ++ v) (u.utf8ByteSize + 0) es).text =
      (sweep v 0 (es.map (Edit.rebase u.utf8ByteSize))).text := text_sweep_rebase hes
  exact congrArg (since u cursor ++ ·) hrest

/-- **A text divided where no edit reaches over** is edited part by part. -/
theorem text_sweep_divide (hcursor : IsBoundary u cursor)
    (hbefore : ∀ e ∈ before, e.span.stop ≤ u.utf8ByteSize)
    (hafter : ∀ e ∈ after, e.IsFrom u.utf8ByteSize) :
    (sweep (u ++ v) cursor (before ++ after)).text =
      (sweep u cursor before).text ++
        (sweep v 0 (after.map (Edit.rebase u.utf8ByteSize))).text := by
  induction before generalizing cursor with
  | nil => exact text_sweep_from hcursor hafter
  | cons e before ih =>
    obtain ⟨he, hbefore⟩ := List.forall_mem_cons.mp hbefore
    rw [List.cons_append]
    by_cases hr : refusal? (u ++ v) cursor e = none
    · have hr' := (refusal?_front he).mp hr
      obtain ⟨-, hstop, hspan⟩ := slices_of_not_refused hcursor hr'
      have hkept : between (u ++ v) cursor e.span.start = between u cursor e.span.start := by
        rw [between, slice?_append_left (Nat.le_trans hspan he)]
        rfl
      rw [text_sweep_of_not_refused hr, text_sweep_of_not_refused hr', ih hstop hbefore, hkept]
      simp only [String.append_assoc]
    · rw [text_sweep_of_refused hr, text_sweep_of_refused ((refusal?_front he).not.mp hr),
        ih hcursor hbefore]

end Applied

end CudaToHip
