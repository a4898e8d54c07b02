import CudaToHip.Text.Marker
import Mathlib.Data.List.Infix

/-!
# The occurrences of a word

Which occurrences of a word are exchanged is chosen on the untouched text: the first one, the first
one behind that, and so on (`Exchanged`). Reading the text once exchanges these (`exchanged_iff`).

* `exists_firstBehind`: a text divides at the first occurrence of a word, if it has one.
* `Exchanged.absent`: if the two words have no character in common, the first one is gone.
-/

namespace CudaToHip

namespace Text

variable {word into cs ds kept rest : List Char} {c x : Char}

/-! ## Occurrences -/

/-- The text `kept ++ word ++ rest` has the word behind `kept` and nowhere in front of that. -/
def FirstBehind (word kept rest : List Char) : Prop :=
  ∀ us, us ++ word <+: kept ++ word ++ rest → kept.length ≤ us.length

/-- The second text is the first one with its occurrences of `word` exchanged for `into`: the first
one, the first one behind that, and so on. -/
inductive Exchanged (word into : List Char) : List Char → List Char → Prop
  | rest {cs : List Char} : ¬ word <:+: cs → Exchanged word into cs cs
  | first {kept rest ds : List Char} : FirstBehind word kept rest → Exchanged word into rest ds →
      Exchanged word into (kept ++ word ++ rest) (kept ++ into ++ ds)

/-- The word does not stand in front of where it first stands. -/
theorem FirstBehind.not_prefix (h : FirstBehind word (c :: kept) rest) :
    ¬ word <+: c :: (kept ++ word ++ rest) := by
  intro hword
  exact absurd (h [] hword) (Nat.not_succ_le_zero _)

theorem FirstBehind.tail (h : FirstBehind word (c :: kept) rest) : FirstBehind word kept rest := by
  intro us hus
  have hcons : (c :: us) ++ word <+: (c :: kept) ++ word ++ rest :=
    List.cons_prefix_cons.mpr ⟨rfl, hus⟩
  exact Nat.le_of_succ_le_succ (h _ hcons)

theorem FirstBehind.cons (hc : ¬ word <+: c :: (kept ++ word ++ rest))
    (h : FirstBehind word kept rest) : FirstBehind word (c :: kept) rest := by
  intro us hus
  cases us with
  | nil => exact absurd hus hc
  | cons u us => exact Nat.succ_le_succ (h us (List.cons_prefix_cons.mp hus).2)

/-- A text has a first occurrence of the word, or none. -/
theorem exists_firstBehind (word cs : List Char) :
    ¬ word <:+: cs ∨ ∃ kept rest, cs = kept ++ word ++ rest ∧ FirstBehind word kept rest := by
  induction cs with
  | nil =>
    cases word with
    | nil => exact Or.inr ⟨[], [], rfl, fun _ _ => Nat.zero_le _⟩
    | cons w ws => exact Or.inl fun h => nomatch List.infix_nil.mp h
  | cons c cs ih =>
    by_cases hword : word <+: c :: cs
    · obtain ⟨rest, hrest⟩ := hword
      exact Or.inr ⟨[], rest, hrest.symm, fun _ _ => Nat.zero_le _⟩
    · rcases ih with hcs | ⟨kept, rest, rfl, hfirst⟩
      · rw [List.infix_cons_iff, not_or]
        exact Or.inl ⟨hword, hcs⟩
      · exact Or.inr ⟨c :: kept, rest, rfl, hfirst.cons hword⟩

theorem occurs_iff (word cs : List Char) : occurs word cs = true ↔ word <:+: cs := by
  induction cs with
  | nil => rw [occurs, List.isPrefixOf_iff_prefix, List.prefix_nil, List.infix_nil]
  | cons c cs ih =>
    rw [occurs, Bool.or_eq_true, ih, List.isPrefixOf_iff_prefix, List.infix_cons_iff]

/-! ## Reading the text once -/

theorem replaceAll_of_absent (h : ¬ word <:+: cs) : replaceAll word into cs = cs := by
  induction cs with
  | nil => rw [replaceAll]
  | cons c cs ih =>
    rw [List.infix_cons_iff, not_or] at h
    rw [replaceAll, if_neg fun hword => h.1 (List.isPrefixOf_iff_prefix.mp hword.2), ih h.2]

/-- A character that the word does not have is kept. -/
theorem replaceAll_cons (hc : c ∉ word) (cs : List Char) :
    replaceAll word into (c :: cs) = c :: replaceAll word into cs := by
  rw [replaceAll, if_neg]
  rintro ⟨hne, hword⟩
  obtain ⟨w, ws, rfl⟩ := List.exists_cons_of_ne_nil hne
  obtain ⟨rfl, -⟩ := List.cons_prefix_cons.mp (List.isPrefixOf_iff_prefix.mp hword)
  exact hc List.mem_cons_self

/-- The first occurrence is exchanged, and reading goes on behind it. -/
theorem replaceAll_of_first (hne : word ≠ []) (h : FirstBehind word kept rest) :
    replaceAll word into (kept ++ word ++ rest) = kept ++ into ++ replaceAll word into rest := by
  induction kept with
  | nil =>
    obtain ⟨w, ws, rfl⟩ := List.exists_cons_of_ne_nil hne
    have hword : (w :: ws).isPrefixOf (w :: (ws ++ rest)) = true :=
      List.isPrefixOf_iff_prefix.mpr (List.prefix_append _ rest)
    rw [List.nil_append, List.nil_append, List.cons_append, replaceAll, if_pos ⟨hne, hword⟩,
      List.length_cons, Nat.add_sub_cancel, List.drop_left]
  | cons c kept ih =>
    have hword : ¬ word.isPrefixOf (c :: (kept ++ word ++ rest)) = true :=
      List.isPrefixOf_iff_prefix.not.mpr h.not_prefix
    rw [List.cons_append, List.cons_append, replaceAll, if_neg fun hc => hword hc.2, ih h.tail]
    rfl

/-- **Reading the text once** exchanges the occurrences that are chosen on the untouched text. -/
theorem exchanged_iff (hne : word ≠ []) :
    Exchanged word into cs ds ↔ ds = replaceAll word into cs := by
  constructor
  · intro h
    induction h with
    | rest hcs => rw [replaceAll_of_absent hcs]
    | first hfirst _ ih => rw [replaceAll_of_first hne hfirst, ih]
  · rintro rfl
    induction hn : cs.length using Nat.strongRecOn generalizing cs with
    | ind n ih =>
      rcases exists_firstBehind word cs with hcs | ⟨kept, rest, rfl, hfirst⟩
      · rw [replaceAll_of_absent hcs]
        exact .rest hcs
      · have hlen := List.length_pos_iff.mpr hne
        rw [replaceAll_of_first hne hfirst]
        refine .first hfirst (ih _ ?_ rfl)
        rw [← hn, List.length_append, List.length_append]
        omega

/-! ## Words without common characters -/

theorem prefix_of_not_mem (hx : x ∉ word) (h : word <+: cs ++ x :: ds) : word <+: cs := by
  rcases List.prefix_or_prefix_of_prefix h (List.prefix_append cs (x :: ds)) with h | ⟨us, rfl⟩
  · exact h
  · cases us with
    | nil => simp
    | cons u us =>
      obtain ⟨rfl, -⟩ := List.cons_prefix_cons.mp ((List.prefix_append_right_inj cs).mp h)
      exact absurd (List.mem_append_right cs List.mem_cons_self) hx

/-- A word stands on one side of a character that it does not have. -/
theorem infix_append_cons (hx : x ∉ word) (h : word <:+: cs ++ x :: ds) :
    word <:+: cs ∨ word <:+: ds := by
  induction cs with
  | nil =>
    rcases List.infix_cons_iff.mp h with h | h
    · have h : word <+: [] ++ x :: ds := h
      exact Or.inl (prefix_of_not_mem hx h).isInfix
    · exact Or.inr h
  | cons c cs ih =>
    rcases List.infix_cons_iff.mp h with h | h
    · have h : word <+: (c :: cs) ++ x :: ds := h
      exact Or.inl (prefix_of_not_mem hx h).isInfix
    · exact (ih h).imp_left fun h => List.infix_cons_iff.mpr (Or.inr h)

theorem infix_of_append (hcommon : ∀ x ∈ into, x ∉ word) (h : word <:+: into ++ ds) :
    word <:+: ds := by
  induction into with
  | nil => exact h
  | cons x into ih =>
    obtain ⟨hx, hinto⟩ := List.forall_mem_cons.mp hcommon
    have h : word <:+: [] ++ x :: (into ++ ds) := h
    rcases infix_append_cons hx h with h | h
    · rw [List.infix_nil.mp h]
      exact List.nil_infix
    · exact ih hinto h

/-- A word stands on one side of a text that has nothing in common with it. -/
theorem infix_append_append (hne : into ≠ []) (hcommon : ∀ x ∈ into, x ∉ word)
    (h : word <:+: cs ++ into ++ ds) : word <:+: cs ∨ word <:+: ds := by
  obtain ⟨x, into, rfl⟩ := List.exists_cons_of_ne_nil hne
  obtain ⟨hx, hinto⟩ := List.forall_mem_cons.mp hcommon
  rw [List.append_assoc, List.cons_append] at h
  exact (infix_append_cons hx h).imp_right (infix_of_append hinto)

/-- **The word is gone**: it was not in what was kept, and what was put in keeps the rest apart. -/
theorem Exchanged.absent (hword : word ≠ []) (hinto : into ≠ [])
    (hcommon : ∀ x ∈ into, x ∉ word) (h : Exchanged word into cs ds) : ¬ word <:+: ds := by
  induction h with
  | rest hcs => exact hcs
  | @first kept rest ds hfirst _ ih =>
    intro h
    rcases infix_append_append hinto hcommon h with ⟨us, vs, rfl⟩ | h
    · have hle := hfirst us ⟨vs ++ word ++ rest, by simp⟩
      have hlen := List.length_pos_iff.mpr hword
      rw [List.length_append, List.length_append] at hle
      omega
    · exact ih h

end Text

end CudaToHip
