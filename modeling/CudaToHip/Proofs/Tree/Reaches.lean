import CudaToHip.Proofs.Span
import CudaToHip.Tree.Site
import Mathlib.Data.List.Basic
import Mathlib.Data.List.Pairwise

/-!
# Sites within sites

`s.Reaches t` says that `t` is `s` or within it (`mem_all`: the sites reached are those of a preorder
list). A site is *placed* if its children lie inside of it, in order. If everything within a site is
placed, then spans follow the tree:

* `contains_of_reaches`: what is within a site lies inside its span.
* `reaches_or_apart`: of two sites within a third, one is within the other or their spans are
  apart.
* `outermost_before`: what `outermost` collects is collected in order, and text that counts as
  standing before a collected site (`lead`) begins behind all of those collected before it.
-/

namespace CudaToHip.Tree.Site

variable {s t u a b c : Site} {p : Site → Bool}

/-- The second site is the first or somewhere below it. -/
inductive Reaches (s : Site) : Site → Prop where
  | self : Reaches s s
  | child {t c : Site} : Reaches s t → c ∈ t.children → Reaches s c

namespace Reaches

theorem trans (hu : t.Reaches u) (ht : s.Reaches t) : s.Reaches u := by
  induction hu with
  | self => exact ht
  | child _ hc ih => exact ih.child hc

theorem of_mem_children (hc : c ∈ s.children) : s.Reaches c := self.child hc

/-- A site within `s` is `s` or within one of its children. -/
theorem eq_or_child (h : s.Reaches t) : t = s ∨ ∃ c ∈ s.children, c.Reaches t := by
  induction h with
  | self => exact Or.inl rfl
  | @child t c _ hc ih =>
    refine Or.inr ?_
    rcases ih with rfl | ⟨d, hd, ht⟩
    · exact ⟨c, hc, self⟩
    · exact ⟨d, hd, ht.child hc⟩

theorem eq_of_leaf (hs : s.node.children = []) (h : s.Reaches t) : t = s := by
  rcases h.eq_or_child with rfl | ⟨c, hc, _⟩
  · rfl
  · rw [children, hs] at hc
    cases hc

end Reaches

theorem up_of_mem_siblings {up left cs : List Node} (h : c ∈ siblings up left cs) : c.up = up := by
  induction cs generalizing left with
  | nil => cases h
  | cons d ds ih =>
    rcases List.mem_cons.mp h with rfl | h
    · rfl
    · exact ih h

theorem up_of_mem_children (h : c ∈ s.children) : c.up = s.node :: s.up := up_of_mem_siblings h

theorem Reaches.up_subset (h : s.Reaches t) : ∀ n ∈ s.up, n ∈ t.up := by
  induction h with
  | self => exact fun _ hn => hn
  | child _ hc ih =>
    intro n hn
    rw [up_of_mem_children hc]
    exact List.mem_cons_of_mem _ (ih n hn)

/-- A site is one of the ancestors of everything strictly below it. -/
theorem node_mem_up (hc : c ∈ s.children) (h : c.Reaches t) : s.node ∈ t.up := by
  apply h.up_subset
  rw [up_of_mem_children hc]
  exact List.mem_cons_self

theorem sizeOf_le_of_reaches (h : s.Reaches t) : sizeOf t.node ≤ sizeOf s.node := by
  induction h with
  | self => exact Nat.le_refl _
  | child _ hc ih => exact Nat.le_trans (Nat.le_of_lt (below_of_mem_children hc)) ih

/-- In a whole tree, the ancestors of a site are larger than the site. -/
theorem sizeOf_lt_of_mem_up {n m : Node} (h : (root n).Reaches t) (hm : m ∈ t.up) :
    sizeOf t.node < sizeOf m := by
  induction h with
  | self => cases hm
  | @child t c _ hc ih =>
    have hct : sizeOf c.node < sizeOf t.node := below_of_mem_children hc
    rw [up_of_mem_children hc] at hm
    rcases List.mem_cons.mp hm with rfl | hm
    · exact hct
    · exact Nat.lt_trans hct (ih hm)

/-! ## All sites of a tree -/

/-- The sites that are reached from a site, in preorder. -/
def all (s : Site) : List Site := s :: s.children.attach.flatMap fun ⟨t, _⟩ => all t
termination_by sizeOf s.node
decreasing_by exact below_of_mem_children ‹_›

theorem all_eq (s : Site) : s.all = s :: s.children.flatMap all := by
  rw [all, ← flatMap_attach _ all]

theorem mem_all : t ∈ s.all ↔ s.Reaches t := by
  constructor
  · intro h
    fun_induction all s with
    | case1 s ih =>
      rcases List.mem_cons.mp h with rfl | h
      · exact .self
      · obtain ⟨⟨c, hc⟩, -, ht⟩ := List.mem_flatMap.mp h
        exact (ih c hc ht).trans (.of_mem_children hc)
  · intro h
    induction hn : sizeOf s.node using Nat.strongRecOn generalizing s with
    | ind n ih =>
      subst hn
      rw [all_eq]
      rcases h.eq_or_child with rfl | ⟨c, hc, ht⟩
      · exact List.mem_cons_self
      · have hrest : t ∈ c.all := ih _ (below_of_mem_children hc) ht rfl
        exact List.mem_cons_of_mem _ (List.mem_flatMap.mpr ⟨c, hc, hrest⟩)

instance (P : Site → Prop) [DecidablePred P] (s : Site) : Decidable (∀ t, s.Reaches t → P t) :=
  decidable_of_iff (∀ t ∈ s.all, P t) (by simp only [mem_all])

/-! ## Placed sites -/

/-- The first site ends where the second starts, or before. -/
def Precedes (a b : Site) : Prop := a.span.stop ≤ b.span.start

instance : DecidableRel Precedes := fun a b =>
  inferInstanceAs (Decidable (a.span.stop ≤ b.span.start))

/-- The site is not inverted, and its children lie inside of it, in order. -/
structure Placed (s : Site) : Prop where
  le : s.span.start ≤ s.span.stop
  inside : ∀ c ∈ s.children, s.span.contains c.span = true
  ordered : s.children.Pairwise Precedes

theorem contains_of_reaches (hs : ∀ u, s.Reaches u → u.Placed) (h : s.Reaches t) :
    s.span.contains t.span = true := by
  induction h with
  | self => exact Span.contains_self _
  | @child t c ht hc ih => exact Span.contains_trans ih ((hs t ht).inside c hc)

theorem Placed.apart (hs : s.Placed) (ha : a ∈ s.children) (hb : b ∈ s.children) (hne : a ≠ b) :
    a.span.Apart b.span := by
  rcases eq_or_of_pairwise hs.ordered ha hb with rfl | hab | hba
  · exact absurd rfl hne
  · exact Or.inl hab
  · exact Or.inr hba

/-- **Spans follow the tree**: of two sites within a third, one is within the other or their spans
are apart. -/
theorem reaches_or_apart (hs : ∀ u, s.Reaches u → u.Placed) (ha : s.Reaches a) (hb : s.Reaches b) :
    a.Reaches b ∨ b.Reaches a ∨ a.span.Apart b.span := by
  induction hn : sizeOf s.node using Nat.strongRecOn generalizing s with
  | ind n ih =>
    subst hn
    rcases ha.eq_or_child with rfl | ⟨c, hc, hca⟩
    · exact Or.inl hb
    rcases hb.eq_or_child with rfl | ⟨d, hd, hdb⟩
    · exact Or.inr (Or.inl ha)
    have hc' : ∀ u, c.Reaches u → u.Placed := fun u hu => hs u (hu.trans (.of_mem_children hc))
    by_cases hcd : c = d
    · subst hcd
      exact ih _ (below_of_mem_children hc) hc' hca hdb rfl
    · have hd' : ∀ u, d.Reaches u → u.Placed := fun u hu => hs u (hu.trans (.of_mem_children hd))
      have hapart := (hs s .self).apart hc hd hcd
      exact Or.inr (Or.inr
        (hapart.mono (contains_of_reaches hc' hca) (contains_of_reaches hd' hdb)))

/-! ## Text in front of a site -/

/-- All text of the first site stands before the second one and before the text in front of it. -/
def Before (a b : Site) : Prop := a.span.stop ≤ b.lead ∧ a.span.stop ≤ b.span.start

theorem stop_le_lead_of_mem_siblings {up left cs : List Node} {l : Node}
    (hle : ∀ c ∈ cs, c.span.start ≤ c.span.stop) (hl : ∀ c ∈ cs, l.span.stop ≤ c.span.start)
    (hcs : cs.Pairwise fun a b => a.span.stop ≤ b.span.start)
    (h : b ∈ siblings up (l :: left) cs) : l.span.stop ≤ b.lead := by
  induction cs generalizing l left with
  | nil => cases h
  | cons c cs ih =>
    obtain ⟨hc, hcs⟩ := List.pairwise_cons.mp hcs
    rcases List.mem_cons.mp h with rfl | h
    · exact Nat.le_refl _
    · have hcb : c.span.stop ≤ b.lead :=
        ih (fun d hd => hle d (List.mem_cons_of_mem _ hd)) hc hcs h
      have hlc : l.span.stop ≤ c.span.start := hl c List.mem_cons_self
      exact Nat.le_trans hlc (Nat.le_trans (hle c List.mem_cons_self) hcb)

theorem pairwise_siblings {up left cs : List Node}
    (hle : ∀ c ∈ cs, c.span.start ≤ c.span.stop)
    (hcs : cs.Pairwise fun a b => a.span.stop ≤ b.span.start) :
    (siblings up left cs).Pairwise Before := by
  induction cs generalizing left with
  | nil => exact .nil
  | cons c cs ih =>
    obtain ⟨hc, hcs⟩ := List.pairwise_cons.mp hcs
    have hle' : ∀ d ∈ cs, d.span.start ≤ d.span.stop :=
      fun d hd => hle d (List.mem_cons_of_mem _ hd)
    refine List.pairwise_cons.mpr ⟨fun b hb => ⟨?_, ?_⟩, ih hle' hcs⟩
    · exact stop_le_lead_of_mem_siblings hle' hc hcs hb
    · exact hc b.node (node_mem_of_mem_siblings hb)

theorem map_node_siblings (up left cs : List Node) : (siblings up left cs).map node = cs := by
  induction cs generalizing left with
  | nil => rfl
  | cons c cs ih =>
    show c :: (siblings up (c :: left) cs).map node = c :: cs
    rw [ih]

theorem pairwise_children (hs : s.Placed) (hc : ∀ c ∈ s.children, c.Placed) :
    s.children.Pairwise Before := by
  have hnodes : s.node.children = s.children.map node := (map_node_siblings _ _ _).symm
  refine pairwise_siblings ?_ ?_
  · intro n hn
    rw [hnodes] at hn
    obtain ⟨c, hcs, rfl⟩ := List.mem_map.mp hn
    exact (hc c hcs).le
  · rw [hnodes]
    exact List.pairwise_map.mpr hs.ordered

/-- The text in front of a child begins inside its parent, except for children of the root. -/
theorem start_le_lead (hs : s.Placed) (hc : ∀ c ∈ s.children, c.Placed) (hup : s.up ≠ [])
    (hb : b ∈ s.children) : s.span.start ≤ b.lead := by
  obtain ⟨p, ps, hps⟩ := List.exists_cons_of_ne_nil hup
  have hnodes : s.children.map node = s.node.children := map_node_siblings _ _ _
  rw [children] at hb
  cases hcs : s.node.children with
  | nil => rw [hcs] at hb; cases hb
  | cons n ns =>
    have hfirst : (⟨n, [], s.node :: s.up⟩ : Site) ∈ s.children := by
      rw [children, hcs]
      exact List.mem_cons_self
    rw [hcs] at hb
    rcases List.mem_cons.mp hb with rfl | hb
    · rw [hps]
      exact Nat.le_refl _
    · have hpair := pairwise_children hs hc
      rw [children, hcs] at hpair
      have hstop := ((List.pairwise_cons.mp hpair).1 b hb).1
      have hin := Span.contains_iff.mp (hs.inside _ hfirst)
      exact Nat.le_trans hin.1 (Nat.le_trans (hc _ hfirst).le hstop)

/-- What is within a later child stands, with the text in front of it, behind what is within an
earlier one. -/
theorem before_of_reaches (hs : ∀ u, s.Reaches u → u.Placed) (hc : c ∈ s.children)
    (hu : u ∈ s.children) (h : Before c u) (ha : c.Reaches a) (hb : u.Reaches b) : Before a b := by
  have below {d : Site} (hd : d ∈ s.children) : ∀ u, d.Reaches u → u.Placed :=
    fun u hu => hs u (hu.trans (.of_mem_children hd))
  have hca := Span.contains_iff.mp (contains_of_reaches (below hc) ha)
  have hub := Span.contains_iff.mp (contains_of_reaches (below hu) hb)
  have hstart : a.span.stop ≤ u.span.start := Nat.le_trans hca.2 h.2
  refine ⟨?_, Nat.le_trans hstart hub.1⟩
  cases hb with
  | self => exact Nat.le_trans hca.2 h.1
  | @child x b hx hbx =>
    have hx' := Span.contains_iff.mp (contains_of_reaches (below hu) hx)
    have hup : x.up ≠ [] := List.ne_nil_of_mem (node_mem_up hu hx)
    have hlead : x.span.start ≤ b.lead :=
      start_le_lead (below hu x hx) (fun d hd => below hu d (hx.child hd)) hup hbx
    exact Nat.le_trans hstart (Nat.le_trans hx'.1 hlead)

/-! ## Outermost sites -/

theorem of_mem_outermost (h : t ∈ s.outermost p) : s.Reaches t ∧ p t = true := by
  fun_induction outermost p s with
  | case1 s hp =>
    obtain rfl := List.mem_singleton.mp h
    exact ⟨.self, hp⟩
  | case2 s _ ih =>
    obtain ⟨⟨c, hc⟩, _, ht⟩ := List.mem_flatMap.mp h
    obtain ⟨hct, hp⟩ := ih c hc ht
    exact ⟨hct.trans (.of_mem_children hc), hp⟩

/-- **What is collected is collected in order.** -/
theorem outermost_before (hs : ∀ u, s.Reaches u → u.Placed) : (s.outermost p).Pairwise Before := by
  fun_induction outermost p s with
  | case1 s => exact List.pairwise_singleton _ _
  | case2 s _ ih =>
    have below {d : Site} (hd : d ∈ s.children) : ∀ u, d.Reaches u → u.Placed :=
      fun u hu => hs u (hu.trans (.of_mem_children hd))
    have hpair := pairwise_children (hs s .self) fun c hc => below hc c .self
    refine List.pairwise_flatMap.mpr ⟨fun c _ => ih c.1 c.2 (below c.2), ?_⟩
    have hattach : s.children.attach.Pairwise fun c d => Before c.1 d.1 :=
      List.pairwise_map.mp (by rwa [List.attach_map_subtype_val])
    refine hattach.imp fun {c d} hcd a ha b hb => ?_
    exact before_of_reaches hs c.2 d.2 hcd (of_mem_outermost ha).1 (of_mem_outermost hb).1

/-- Two collected sites are the same, or one of them stands before the other. -/
theorem eq_or_before_of_mem_outermost (hs : ∀ u, s.Reaches u → u.Placed)
    (ha : a ∈ s.outermost p) (hb : b ∈ s.outermost p) : a = b ∨ Before a b ∨ Before b a :=
  eq_or_of_pairwise (outermost_before hs) ha hb

end CudaToHip.Tree.Site
