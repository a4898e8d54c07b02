import CudaToHip.Proofs.Tree.Reaches

/-!
# Functions around a site

`s.Encloses fs t` says that `t` is `s` or below it, and that `fs` are the function definitions, from
`s` down to `t` and outermost first, in whose body or initializer list `t` lies. The type, the
declarator and the parameters of a function are none of these (`isGate`).

* `Encloses.trans`: the functions around a site, seen from further up.
* `mem_places`: the sites with their functions are those of a preorder list, so the relation can be
  computed.
-/

namespace CudaToHip.Tree.Site

variable {s t u c : Site} {fs gs : List Site}

/-- The child of a function definition is its body or one of its initializer lists. -/
def isGate (s c : Site) : Bool :=
  s.kind = .functionDefinition && (c.kind = .initializerList || c.isFirstIn .body)

/-- The site `t` is `s` or below it and lies in the bodies or initializer lists of `fs`, which are
function definitions from `s` down to `t`, outermost first. -/
inductive Encloses (s : Site) : List Site → Site → Prop
  | self : Encloses s [] s
  | child {fs : List Site} {t c : Site} : Encloses s fs t → c ∈ t.children →
      t.isGate c = false → Encloses s fs c
  | gate {fs : List Site} {t c : Site} : Encloses s fs t → c ∈ t.children →
      t.isGate c = true → Encloses s (fs ++ [t]) c

namespace Encloses

theorem trans (h : s.Encloses fs t) (hu : t.Encloses gs u) : s.Encloses (fs ++ gs) u := by
  induction hu with
  | self => rwa [List.append_nil]
  | child _ hc hgate ih => exact ih.child hc hgate
  | gate _ hc hgate ih =>
    rw [← List.append_assoc]
    exact ih.gate hc hgate

theorem reaches (h : s.Encloses fs t) : s.Reaches t := by
  induction h with
  | self => exact .self
  | child _ hc _ ih => exact ih.child hc
  | gate _ hc _ ih => exact ih.child hc

theorem of_mem_children (hc : c ∈ s.children) (hgate : s.isGate c = false) : s.Encloses [] c :=
  self.child hc hgate

theorem of_gate (hc : c ∈ s.children) (hgate : s.isGate c = true) : s.Encloses [s] c :=
  self.gate hc hgate

/-- Seen from the site, the first step down to another site leads to a child. -/
theorem eq_or_child (h : s.Encloses fs t) : (fs = [] ∧ t = s) ∨
    ∃ c ∈ s.children, ∃ gs, c.Encloses gs t ∧ fs = if s.isGate c then s :: gs else gs := by
  induction h with
  | self => exact Or.inl ⟨rfl, rfl⟩
  | child _ hc hgate ih =>
    refine Or.inr ?_
    rcases ih with ⟨rfl, rfl⟩ | ⟨d, hd, gs, hin, rfl⟩
    · exact ⟨_, hc, [], .self, by simp [hgate]⟩
    · exact ⟨d, hd, gs, hin.child hc hgate, rfl⟩
  | @gate fs t c _ hc hgate ih =>
    refine Or.inr ?_
    rcases ih with ⟨rfl, rfl⟩ | ⟨d, hd, gs, hin, rfl⟩
    · exact ⟨_, hc, [], .self, by simp [hgate]⟩
    · refine ⟨d, hd, gs ++ [t], hin.gate hc hgate, ?_⟩
      split <;> rfl

end Encloses

/-- The sites that are reached from a site, in preorder, each with the functions around it. -/
def places (s : Site) : List (List Site × Site) :=
  ([], s) :: s.children.attach.flatMap fun ⟨c, _⟩ =>
    (places c).map fun p => (if s.isGate c then s :: p.1 else p.1, p.2)
termination_by sizeOf s.node
decreasing_by exact below_of_mem_children ‹_›

theorem mem_places : (fs, t) ∈ s.places ↔ s.Encloses fs t := by
  induction hn : sizeOf s.node using Nat.strongRecOn generalizing s fs with
  | ind n ih =>
    subst hn
    have below {c : Site} (hc : c ∈ s.children) {gs : List Site} :
        (gs, t) ∈ c.places ↔ c.Encloses gs t := ih _ (below_of_mem_children hc) rfl
    rw [places]
    constructor
    · intro h
      rcases List.mem_cons.mp h with h | h
      · cases h
        exact .self
      · obtain ⟨⟨c, hc⟩, -, hp⟩ := List.mem_flatMap.mp h
        obtain ⟨⟨gs, _⟩, hin, heq⟩ := List.mem_map.mp hp
        obtain ⟨rfl, rfl⟩ := Prod.mk.inj heq
        have hin := (below hc).mp hin
        cases hgate : s.isGate c with
        | true => exact (Encloses.of_gate hc hgate).trans hin
        | false => exact (Encloses.of_mem_children hc hgate).trans hin
    · intro h
      rcases h.eq_or_child with ⟨rfl, rfl⟩ | ⟨c, hc, gs, hin, rfl⟩
      · exact List.mem_cons_self
      · refine List.mem_cons_of_mem _ (List.mem_flatMap.mpr ⟨⟨c, hc⟩, List.mem_attach _ _, ?_⟩)
        exact List.mem_map.mpr ⟨(gs, t), (below hc).mpr hin, rfl⟩

/-! ## Gates -/

theorem isGate_of_ne (hs : s.kind ≠ .functionDefinition) (c : Site) : s.isGate c = false := by
  simp [isGate, hs]

theorem isGate_of_functionDefinition (hs : s.kind = .functionDefinition)
    (hc : c.kind = .initializerList ∨ c.isFirstIn .body = true) : s.isGate c = true := by
  simp only [isGate, hs, decide_true, Bool.true_and, Bool.or_eq_true, decide_eq_true_eq]
  exact hc

/-- Only function definitions have gates. -/
theorem encloses_child (hs : s.kind ≠ .functionDefinition) (hc : c ∈ s.children) :
    s.Encloses [] c := .of_mem_children hc (isGate_of_ne hs c)

theorem isFirstIn_of_find? {f : Field} {up left cs : List Node}
    (hleft : left.any (·.hasField f) = false)
    (h : (siblings up left cs).find? (·.node.hasField f) = some c) : c.isFirstIn f = true := by
  induction cs generalizing left with
  | nil => cases h
  | cons d ds ih =>
    rw [siblings, List.find?_cons] at h
    cases hd : d.hasField f with
    | true =>
      simp only [hd, Option.some.injEq] at h
      subst h
      simp [isFirstIn, hd, hleft]
    | false =>
      simp only [hd] at h
      exact ih (by simp [hd, hleft]) h

/-- The first child in a role has none on its left. -/
theorem isFirstIn_of_child? {f : Field} (h : s.child? f = some c) : c.isFirstIn f = true :=
  isFirstIn_of_find? rfl h

/-- A child in another role than the body is a gate only as an initializer list. -/
theorem isGate_eq_false {f : Field} (hfield : c.node.label.field = some f) (hf : f ≠ .body)
    (hkind : c.kind ≠ .initializerList) : s.isGate c = false := by
  have hbody : c.node.hasField .body = false := by
    simp [Node.hasField, hfield, hf]
  simp [isGate, isFirstIn, hkind, hbody]

end CudaToHip.Tree.Site
