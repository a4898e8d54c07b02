import CudaToHip.Proofs.Tree.Reaches

/-!
# Outermost sites of a tree

The search for outermost sites does not look below a site that it collects.

* `mem_outermost`: it comes to the sites that are *exposed*, which no other one that passes is above
  of.
* `exists_mem_outermost_of_reaches`: every site that passes is one of those that are collected, or
  below one.
* `outermost_eq_filter`: if the test is one of nodes, the search collects the same sites, in the same
  order, as a search of the whole tree for the sites that pass and have no ancestor that passes.
-/

namespace CudaToHip.Tree.Site

variable {s t c : Site} {p : Site → Bool} {q : Node → Bool}

theorem outermost_eq (p : Site → Bool) (s : Site) :
    s.outermost p = if p s then [s] else s.children.flatMap (outermost p) := by
  rw [outermost, ← flatMap_attach _ (outermost p)]

/-! ## What is collected -/

/-- The second site is reached from the first through sites without `p`. -/
inductive Exposed (p : Site → Bool) (s : Site) : Site → Prop
  | self : Exposed p s s
  | child {t c : Site} : Exposed p s t → p t = false → c ∈ t.children → Exposed p s c

namespace Exposed

/-- What is exposed from a child of a site without `p` is exposed from the site. -/
theorem of_child (hp : p s = false) (hc : c ∈ s.children) (h : c.Exposed p t) : s.Exposed p t := by
  induction h with
  | self => exact Exposed.self.child hp hc
  | child _ hpt hd ih => exact ih.child hpt hd

/-- Seen from the site, the first step leads to a child. -/
theorem eq_or_child (h : s.Exposed p t) :
    t = s ∨ (p s = false ∧ ∃ c ∈ s.children, c.Exposed p t) := by
  induction h with
  | self => exact Or.inl rfl
  | @child t d _ hpt hd ih =>
    rcases ih with rfl | ⟨hp, c, hc, ht⟩
    · exact Or.inr ⟨hpt, d, hd, .self⟩
    · exact Or.inr ⟨hp, c, hc, ht.child hpt hd⟩

end Exposed

/-- **What is collected** are the exposed sites with `p`. -/
theorem mem_outermost : t ∈ s.outermost p ↔ s.Exposed p t ∧ p t = true := by
  constructor
  · intro h
    fun_induction outermost p s with
    | case1 s hp =>
      obtain rfl := List.mem_singleton.mp h
      exact ⟨.self, hp⟩
    | case2 s hp ih =>
      obtain ⟨⟨c, hc⟩, -, ht⟩ := List.mem_flatMap.mp h
      obtain ⟨hexposed, hpt⟩ := ih c hc ht
      exact ⟨hexposed.of_child (Bool.eq_false_iff.mpr hp) hc, hpt⟩
  · rintro ⟨h, hpt⟩
    induction hn : sizeOf s.node using Nat.strongRecOn generalizing s with
    | ind n ih =>
      subst hn
      rw [outermost_eq]
      rcases h.eq_or_child with rfl | ⟨hp, c, hc, ht⟩
      · rw [if_pos hpt]
        exact List.mem_singleton_self _
      · rw [if_neg (Bool.eq_false_iff.mp hp)]
        exact List.mem_flatMap.mpr ⟨c, hc, ih _ (below_of_mem_children hc) ht rfl⟩

/-- The way down to a site is exposed as far as nothing on it passes. -/
theorem exposed_or_exists_of_reaches (h : s.Reaches t) :
    s.Exposed p t ∨ ∃ u ∈ s.outermost p, u.Reaches t := by
  induction h with
  | self => exact Or.inl .self
  | @child t c _ hc ih =>
    rcases ih with hexposed | ⟨u, hu, ht⟩
    · cases hp : p t with
      | false => exact Or.inl (hexposed.child hp hc)
      | true => exact Or.inr ⟨t, mem_outermost.mpr ⟨hexposed, hp⟩, .of_mem_children hc⟩
    · exact Or.inr ⟨u, hu, ht.child hc⟩

/-- **Nothing that passes is missed**: it is collected, or something above it is. -/
theorem exists_mem_outermost_of_reaches (h : s.Reaches t) (hp : p t = true) :
    ∃ u ∈ s.outermost p, u.Reaches t := by
  rcases exposed_or_exists_of_reaches h with hexposed | hfound
  · exact ⟨t, mem_outermost.mpr ⟨hexposed, hp⟩, .self⟩
  · exact hfound

/-! ## The search against that of the whole tree -/

/-- The node of the site passes, and no node above it does. -/
def isTopmost (q : Node → Bool) (s : Site) : Bool := q s.node && !s.up.any q

/-- Nothing below a node that passes is topmost. -/
theorem filter_isTopmost_of_up (h : s.up.any q = true) : s.all.filter (isTopmost q) = [] := by
  refine List.filter_eq_nil_iff.mpr fun t ht htop => ?_
  obtain ⟨n, hn, hq⟩ := List.any_eq_true.mp h
  have hup : t.up.any q = true := List.any_eq_true.mpr ⟨n, (mem_all.mp ht).up_subset n hn, hq⟩
  simp [isTopmost, hup] at htop

/-- **The search finds what a search of the whole tree finds**, if no node above its site passes. -/
theorem outermost_eq_filter (h : s.up.any q = false) :
    s.outermost (fun t => q t.node) = s.all.filter (isTopmost q) := by
  induction hn : sizeOf s.node using Nat.strongRecOn generalizing s with
  | ind n ih =>
    subst hn
    have hup {c : Site} (hc : c ∈ s.children) : c.up.any q = q s.node := by
      rw [up_of_mem_children hc, List.any_cons, h, Bool.or_false]
    rw [outermost_eq, all_eq]
    by_cases hq : q s.node = true
    · have htop : isTopmost q s = true := by simp [isTopmost, hq, h]
      have hbelow : (s.children.flatMap all).filter (isTopmost q) = [] := by
        rw [List.filter_flatMap, List.flatMap_eq_nil_iff]
        exact fun c hc => filter_isTopmost_of_up ((hup hc).trans hq)
      rw [if_pos hq, List.filter_cons_of_pos htop, hbelow]
    · have htop : ¬ isTopmost q s = true := by simp [isTopmost, hq]
      rw [if_neg hq, List.filter_cons_of_neg htop, List.filter_flatMap]
      exact List.flatMap_congr fun c hc =>
        ih _ (below_of_mem_children hc) ((hup hc).trans (Bool.eq_false_iff.mpr hq)) rfl

end CudaToHip.Tree.Site
