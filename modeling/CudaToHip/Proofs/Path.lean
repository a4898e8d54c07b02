import CudaToHip.Path

/-!
# Paths: order and sameness

Paths are compared by their components, so comparing them is a linear order up to spelling: two
paths compare equal exactly if they are the `same` path (`compare_eq_iff_same`).
-/

namespace CudaToHip.Path

instance : Std.TransOrd Component :=
  inferInstanceAs (Std.TransCmp (compareLex (compareOn Component.rank) (compareOn Component.text)))

/-- A component is determined by its rank and its text. -/
theorem Component.eq_of_rank_of_text {a b : Component} (hr : a.rank = b.rank)
    (ht : a.text = b.text) : a = b := by
  cases a <;> cases b <;> simp_all [Component.rank, Component.text]

instance : Std.LawfulEqOrd Component where
  eq_of_compare h := by
    obtain ⟨hr, ht⟩ := compareLex_eq_eq.mp h
    exact Component.eq_of_rank_of_text (Std.LawfulEqOrd.eq_of_compare hr)
      (Std.LawfulEqOrd.eq_of_compare ht)

instance : Std.TransOrd Path := inferInstanceAs (Std.TransCmp (compareOn components))

theorem same_iff {a b : Path} : a.same b = true ↔ a.components = b.components := by
  unfold same
  rw [beq_iff_eq]

theorem same_self (a : Path) : a.same a = true := same_iff.mpr rfl

theorem same_comm (a b : Path) : a.same b = b.same a := by
  rw [Bool.eq_iff_iff, same_iff, same_iff]
  exact eq_comm

/-- **Paths compare equal exactly if they are the same path.** -/
theorem compare_eq_iff_same {a b : Path} : compare a b = .eq ↔ a.same b = true := by
  rw [same_iff]
  exact Std.LawfulEqOrd.compare_eq_iff_eq (α := List Component)

/-- What comes before a path is not the same as it. -/
theorem same_eq_false_of_lt {a b : Path} (h : compare a b = .lt) : a.same b = false := by
  rw [← Bool.not_eq_true, ← compare_eq_iff_same, h]
  exact Ordering.noConfusion

end CudaToHip.Path
