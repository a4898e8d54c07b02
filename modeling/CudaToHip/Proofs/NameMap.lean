import CudaToHip.NameMap
import Mathlib.Data.String.Basic
import Mathlib.Tactic.SplitIfs

/-!
# Sorted name maps

Writing entries keeps a map sorted (`sorted_insertAll`), and the map of the entries of a sorted map
is that map (`ofList_eq`).
-/

namespace CudaToHip.NameMap

variable {m : NameMap} {name target : String}

/-- Sorted by name, with one entry for each. -/
def Sorted (m : NameMap) : Prop := m.Pairwise (·.1 < ·.1)

theorem mem_of_mem_insert {e : String × String} (h : e ∈ m.insert name target) :
    e = (name, target) ∨ e ∈ m := by
  induction m with
  | nil => exact Or.inl (List.mem_singleton.mp h)
  | cons x rest ih =>
    obtain ⟨n, t⟩ := x
    unfold insert at h
    split_ifs at h with hlt heq
    · exact List.mem_cons.mp h
    · exact (List.mem_cons.mp h).imp_right (List.mem_cons_of_mem _)
    · rcases List.mem_cons.mp h with rfl | h
      · exact Or.inr List.mem_cons_self
      · exact (ih h).imp_right (List.mem_cons_of_mem _)

theorem sorted_insert (h : m.Sorted) (name target : String) : (m.insert name target).Sorted := by
  induction m with
  | nil => exact List.pairwise_singleton _ _
  | cons x rest ih =>
    obtain ⟨n, t⟩ := x
    obtain ⟨hn, hrest⟩ := List.pairwise_cons.mp h
    unfold insert
    split_ifs with hlt heq
    · refine List.pairwise_cons.mpr ⟨fun e he => ?_, h⟩
      rcases List.mem_cons.mp he with rfl | he
      · exact hlt
      · exact lt_trans hlt (hn e he)
    · subst heq
      exact List.pairwise_cons.mpr ⟨hn, hrest⟩
    · refine List.pairwise_cons.mpr ⟨fun e he => ?_, ih hrest⟩
      rcases mem_of_mem_insert he with rfl | he
      · exact lt_of_le_of_ne (not_lt.mp hlt) (Ne.symm heq)
      · exact hn e he

theorem sorted_insertAll (h : m.Sorted) (entries : List (String × String)) :
    (m.insertAll entries).Sorted := by
  induction entries generalizing m with
  | nil => exact h
  | cons e entries ih => exact ih (sorted_insert h e.1 e.2)

/-- An entry behind all others goes to the end. -/
theorem insert_eq_append (h : ∀ e ∈ m, e.1 < name) (target : String) :
    m.insert name target = m ++ [(name, target)] := by
  induction m with
  | nil => rfl
  | cons x rest ih =>
    obtain ⟨n, t⟩ := x
    obtain ⟨hn, hrest⟩ := List.forall_mem_cons.mp h
    unfold insert
    rw [if_neg (lt_asymm hn), if_neg (ne_of_gt hn), ih hrest]
    rfl

theorem insertAll_eq_append {entries : List (String × String)} (h : Sorted (m ++ entries)) :
    m.insertAll entries = m ++ entries := by
  induction entries generalizing m with
  | nil => exact (List.append_nil m).symm
  | cons e entries ih =>
    have hlast : m.insert e.1 e.2 = m ++ [e] :=
      insert_eq_append (fun x hx => (List.pairwise_append.mp h).2.2 x hx e List.mem_cons_self) e.2
    rw [List.append_cons] at h ⊢
    show (m.insert e.1 e.2).insertAll entries = _
    rw [hlast, ih h]

/-- The entries of a sorted map make that map. -/
theorem ofList_eq (h : m.Sorted) : ofList m = m := insertAll_eq_append h

end CudaToHip.NameMap
