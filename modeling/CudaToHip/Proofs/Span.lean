import CudaToHip.Span
import Mathlib.Data.List.Pairwise
import Mathlib.Tactic.SplitIfs

/-!
# Spans: order and overlap

`before` is the lexicographic order of the ends (`before_iff`), a strict linear order. `overlaps`
is stated in the code by three rules, for identical spans, for an empty one and for two ranges.
Between spans that are not inverted these say one thing: two different spans overlap unless one of
them ends where the other starts, or before (`overlaps_eq_false_iff`).

* `overlaps_comm`: overlap is symmetric, for inverted spans too.
* `Apart`: one of the spans ends at or before the start of the other. Nonempty spans that are apart
  share no text, and neither do spans within them.
* `Clear`: the spans do not even touch.
* `Takes`: the byte at an offset lies in the span.
-/

namespace CudaToHip

/-- Two members of a list in order are the same, or one of them comes before the other. -/
theorem eq_or_of_pairwise {α : Type} {R : α → α → Prop} {l : List α} {a b : α} (h : l.Pairwise R)
    (ha : a ∈ l) (hb : b ∈ l) : a = b ∨ R a b ∨ R b a := by
  by_cases hab : a = b
  · exact Or.inl hab
  · have hsymm : Std.Symm fun a b => R a b ∨ R b a := ⟨fun _ _ h => h.symm⟩
    have hall : l.Pairwise fun a b => R a b ∨ R b a := h.imp Or.inl
    exact Or.inr (hall.forall ha hb hab)

/-- A list at one of its members. -/
theorem eq_take_append_drop {α : Type} {l : List α} {a : α} {n : Nat} (h : l[n]? = some a) :
    l = l.take n ++ a :: l.drop (n + 1) := by
  obtain ⟨hn, rfl⟩ := List.getElem?_eq_some_iff.mp h
  rw [List.getElem_cons_drop, List.take_append_drop]

/-- A recursion through the members of a list needs to know that they are members. What it collects
does not depend on it. -/
theorem flatMap_attach {α β : Type} (l : List α) (f : α → List β) :
    (l.attach.flatMap fun a => f a.1) = l.flatMap f := by
  rw [List.flatMap_subtype fun _ _ => rfl, List.unattach_attach]

namespace Span

variable {a b c : Span}

/-! ## Order -/

theorem before_iff :
    a.before b = true ↔ a.start < b.start ∨ a.start = b.start ∧ a.stop < b.stop := by
  unfold before
  rw [show compare a b = (compare a.start b.start).then (compare a.stop b.stop) from rfl]
  simp only [Nat.compare_eq_ite_lt]
  split_ifs <;> simp_all <;> omega

theorem not_before_self (a : Span) : ¬ a.before a = true := by
  rw [before_iff]; omega

theorem before_trans (hab : a.before b = true) (hbc : b.before c = true) : a.before c = true := by
  rw [before_iff] at *; omega

theorem ne_of_before (h : a.before b = true) : a ≠ b := by
  rintro rfl
  exact not_before_self a h

/-- Of two different spans one comes before the other. -/
theorem before_of_not_before (h : ¬ a.before b = true) (hne : a ≠ b) : b.before a = true := by
  rw [before_iff] at *
  have : ¬ (a.start = b.start ∧ a.stop = b.stop) := fun ⟨h₁, h₂⟩ =>
    hne (by cases a; cases b; simp_all)
  omega

/-! ## Overlap -/

theorem overlaps_self (a : Span) : a.overlaps a = true := by
  unfold overlaps
  rw [if_pos rfl]

theorem overlaps_comm (a b : Span) : a.overlaps b = b.overlaps a := by
  by_cases hab : a = b
  · rw [hab]
  · unfold overlaps
    rw [if_neg hab, if_neg (Ne.symm hab)]
    by_cases ha : a.isEmpty = true <;> by_cases hb : b.isEmpty = true
    · -- both are insertions, at different offsets
      rw [if_pos ha, if_pos hb, Bool.eq_iff_iff]
      simp only [isEmpty, beq_iff_eq] at ha hb
      simp only [strictlyContains, Bool.and_eq_true, decide_eq_true_eq]
      omega
    · rw [if_pos ha, if_neg hb, if_pos ha]
    · rw [if_neg ha, if_pos hb, if_pos hb]
    · rw [if_neg ha, if_neg hb, if_neg hb, if_neg ha]
      exact Bool.and_comm _ _

/-- **When spans do not overlap**: they differ, and one ends at or before the start of the other. -/
theorem overlaps_eq_false_iff (ha : a.start ≤ a.stop) (hb : b.start ≤ b.stop) :
    a.overlaps b = false ↔ a ≠ b ∧ (a.stop ≤ b.start ∨ b.stop ≤ a.start) := by
  by_cases hab : a = b
  · simp [hab, overlaps_self]
  · have hends : ¬ (a.start = b.start ∧ a.stop = b.stop) := fun ⟨h₁, h₂⟩ =>
      hab (by cases a; cases b; simp_all)
    unfold overlaps
    rw [if_neg hab]
    simp only [isEmpty, beq_iff_eq, strictlyContains]
    split_ifs <;>
      simp only [ne_eq, hab, not_false_eq_true, true_and, Bool.and_eq_false_iff,
        decide_eq_false_iff_not] <;>
      omega

/-! ## Spans apart -/

/-- One of the spans ends at or before the start of the other. -/
def Apart (a b : Span) : Prop := a.stop ≤ b.start ∨ b.stop ≤ a.start

theorem Apart.symm (h : a.Apart b) : b.Apart a := Or.symm h

theorem contains_iff : a.contains b = true ↔ a.start ≤ b.start ∧ b.stop ≤ a.stop := by
  simp [contains]

theorem contains_self (a : Span) : a.contains a = true :=
  contains_iff.mpr ⟨Nat.le_refl _, Nat.le_refl _⟩

theorem contains_trans (hab : a.contains b = true) (hbc : b.contains c = true) :
    a.contains c = true := by
  rw [contains_iff] at *; omega

/-- Spans within spans that are apart are apart. -/
theorem Apart.mono {a' b' : Span} (h : a.Apart b) (ha : a.contains a' = true)
    (hb : b.contains b' = true) : a'.Apart b' := by
  rw [contains_iff] at ha hb
  unfold Apart at *
  omega

/-- The byte at an offset lies in the span. -/
def Takes (s : Span) (i : Nat) : Prop := s.start ≤ i ∧ i < s.stop

instance (s : Span) (i : Nat) : Decidable (s.Takes i) := inferInstanceAs (Decidable (_ ∧ _))

/-! ## Clear spans -/

/-- Both ends of the first span are in front of both ends of the second. -/
def InFront (a b : Span) : Prop :=
  (a.start < b.start ∧ a.start < b.stop) ∧ a.stop < b.start ∧ a.stop < b.stop

/-- The spans neither overlap nor touch. -/
def Clear (a b : Span) : Prop := a.InFront b ∨ b.InFront a

instance (a b : Span) : Decidable (a.InFront b) := inferInstanceAs (Decidable (_ ∧ _))

instance (a b : Span) : Decidable (a.Clear b) := inferInstanceAs (Decidable (_ ∨ _))

theorem Clear.symm (h : a.Clear b) : b.Clear a := Or.symm h

/-- Of spans that are not inverted, one ends strictly before the start of the other. -/
theorem clear_iff (ha : a.start ≤ a.stop) (hb : b.start ≤ b.stop) :
    a.Clear b ↔ a.stop < b.start ∨ b.stop < a.start := by
  unfold Clear InFront
  omega

theorem Clear.ne (h : a.Clear b) : a ≠ b := by
  rintro rfl
  unfold Clear InFront at h
  omega

/-- Clear spans do not overlap, inverted or not. -/
theorem overlaps_of_clear (h : a.Clear b) : a.overlaps b = false := by
  unfold overlaps
  rw [if_neg h.ne]
  unfold Clear InFront at h
  split_ifs <;>
    simp only [strictlyContains, Bool.and_eq_false_iff, decide_eq_false_iff_not] <;>
    omega

end Span

end CudaToHip
