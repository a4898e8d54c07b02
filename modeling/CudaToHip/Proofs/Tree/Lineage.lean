import CudaToHip.Proofs.Tree.Enclosing

/-!
# The line of sites above a site

If everything within a site is placed, then the sites above one that takes text stand in a line: of
two of them, one is above the other.

* `eq_of_mem_children`: each has one parent.
* `reaches_of_mem_children`: each has one child in the line.
* `Encloses.mem_of_isGate`: so the functions around a site are all those in whose bodies it lies.
-/

namespace CudaToHip.Tree.Site

variable {r s t u c d : Site} {fs : List Site}

theorem not_reaches_of_mem_children (hc : c ∈ s.children) : ¬ c.Reaches s := fun h =>
  Nat.lt_irrefl _ (Nat.lt_of_lt_of_le (below_of_mem_children hc) (sizeOf_le_of_reaches h))

theorem Reaches.antisymm (h : s.Reaches t) (h' : t.Reaches s) : t = s := by
  rcases h.eq_or_child with rfl | ⟨c, hc, hct⟩
  · rfl
  · exact absurd (h'.trans hct) (not_reaches_of_mem_children hc)

section Line

variable (hr : ∀ x, r.Reaches x → x.Placed) (hu : u.span.start < u.span.stop)

include hr hu

/-- Two sites above `u` are not apart. -/
theorem not_apart (hs : r.Reaches s) (ht : r.Reaches t) (hsu : s.Reaches u) (htu : t.Reaches u) :
    ¬ s.span.Apart t.span := by
  have within {x : Site} (hx : r.Reaches x) (hxu : x.Reaches u) :=
    Span.contains_iff.mp (contains_of_reaches (fun y hy => hr y (hy.trans hx)) hxu)
  have hsin := within hs hsu
  have htin := within ht htu
  rintro (h | h) <;> omega

/-- **Of two sites above a third, one is above the other.** -/
theorem reaches_or_reaches (hs : r.Reaches s) (ht : r.Reaches t) (hsu : s.Reaches u)
    (htu : t.Reaches u) : s.Reaches t ∨ t.Reaches s := by
  rcases reaches_or_apart hr hs ht with h | h | hapart
  · exact Or.inl h
  · exact Or.inr h
  · exact absurd hapart (not_apart hr hu hs ht hsu htu)

/-- A site in the line has one parent. -/
theorem eq_of_mem_children (hs : r.Reaches s) (ht : r.Reaches t) (hc : c ∈ s.children)
    (hc' : c ∈ t.children) (hcu : c.Reaches u) : s = t := by
  have hsize : sizeOf s.node = sizeOf t.node := by
    have hup := (up_of_mem_children hc).symm.trans (up_of_mem_children hc')
    rw [(List.cons.inj hup).1]
  -- neither is strictly below the other
  have same {x y : Site} (hxy : x.Reaches y) (hsize : sizeOf x.node = sizeOf y.node) : y = x := by
    rcases hxy.eq_or_child with rfl | ⟨d, hd, hdy⟩
    · rfl
    · have hlt : sizeOf d.node < sizeOf x.node := below_of_mem_children hd
      have hle := sizeOf_le_of_reaches hdy
      omega
  have hsu := hcu.trans (.of_mem_children hc)
  have htu := hcu.trans (.of_mem_children hc')
  rcases reaches_or_reaches hr hu hs ht hsu htu with h | h
  · exact (same h hsize).symm
  · exact same h hsize.symm

/-- A site in the line has one child in the line. -/
theorem reaches_of_mem_children (hs : r.Reaches s) (hc : c ∈ s.children) (hcu : c.Reaches u)
    (hst : s.Reaches t) (htu : t.Reaches u) : t = s ∨ c.Reaches t := by
  rcases hst.eq_or_child with rfl | ⟨d, hd, hdt⟩
  · exact Or.inl rfl
  · have hcd : c = d := by
      by_contra hne
      exact not_apart hr hu (hs.child hc) (hs.child hd) hcu (htu.trans hdt)
        ((hr s hs).apart hc hd hne)
    exact Or.inr (hcd ▸ hdt)

/-- What is above a site is the site or above its parent. -/
theorem eq_or_reaches_of_mem_children (hs : r.Reaches s) (ht : r.Reaches t) (hc : c ∈ t.children)
    (hsc : s.Reaches c) (hcu : c.Reaches u) : s = c ∨ s.Reaches t := by
  cases hsc with
  | self => exact Or.inl rfl
  | @child p _ hsp hp =>
    have hpt : p = t := eq_of_mem_children hr hu (hsp.trans hs) ht hp hc hcu
    exact Or.inr (hpt ▸ hsp)

/-- **The functions around a site** are all those in whose bodies or initializer lists it lies. -/
theorem Encloses.mem_of_isGate (h : r.Encloses fs t) (htu : t.Reaches u) (hs : r.Reaches s)
    (hc : c ∈ s.children) (hgate : s.isGate c = true) (hct : c.Reaches t) : s ∈ fs := by
  -- the last step down to `t` leads to `c` itself, or `c` is further up
  have last {gs : List Site} {p d : Site} (hp : r.Encloses gs p) (hd : d ∈ p.children)
      (hdu : d.Reaches u) (hcd : c.Reaches d) : s = p ∧ c = d ∨ c.Reaches p := by
    rcases eq_or_reaches_of_mem_children hr hu (hs.child hc) hp.reaches hd hcd hdu with rfl | hcp
    · exact Or.inl ⟨eq_of_mem_children hr hu hs hp.reaches hc hd hdu, rfl⟩
    · exact Or.inr hcp
  induction h with
  | self => exact absurd (hs.trans hct) (not_reaches_of_mem_children hc)
  | child hp hd hopen ih =>
    rcases last hp hd htu hct with ⟨rfl, rfl⟩ | hcp
    · rw [hgate] at hopen
      cases hopen
    · exact ih (htu.trans (.of_mem_children hd)) hcp
  | gate hp hd _ ih =>
    rcases last hp hd htu hct with ⟨rfl, rfl⟩ | hcp
    · exact List.mem_append_right _ (List.mem_singleton_self _)
    · exact List.mem_append_left _ (ih (htu.trans (.of_mem_children hd)) hcp)

end Line

end CudaToHip.Tree.Site
