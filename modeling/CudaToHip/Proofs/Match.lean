import CudaToHip.Match

/-!
# What a match holds

A launch holds the matches found in its arguments, and these may be launches again. `within` lists a
match with all that it holds, at any depth; `bare` is the match alone, without what it holds.
-/

namespace CudaToHip.Match

mutual

/-- The match and everything found inside of it, at any depth. -/
def within : Match → List Match
  | .launch l nested => .launch l nested :: withinAll nested
  | m => [m]

/-- The matches of a list and everything found inside of them, at any depth. -/
def withinAll : List Match → List Match
  | [] => []
  | m :: ms => within m ++ withinAll ms

end

/-- The match itself, without what was found inside of it. -/
def bare : Match → Match
  | .launch l _ => .launch l []
  | m => m

variable {m n : Match} {ms : List Match}

theorem withinAll_eq_flatMap (ms : List Match) : withinAll ms = ms.flatMap within := by
  induction ms with
  | nil => rfl
  | cons m ms ih => rw [withinAll, ih, List.flatMap_cons]

theorem withinAll_append (ms ns : List Match) :
    withinAll (ms ++ ns) = withinAll ms ++ withinAll ns := by
  simp only [withinAll_eq_flatMap, List.flatMap_append]

theorem withinAll_flatMap {α : Type} (xs : List α) (f : α → List Match) :
    withinAll (xs.flatMap f) = xs.flatMap fun x => withinAll (f x) := by
  simp only [withinAll_eq_flatMap, List.flatMap_assoc]

theorem withinAll_singleton (m : Match) : withinAll [m] = within m := by
  rw [withinAll, withinAll, List.append_nil]

theorem mem_withinAll : n ∈ withinAll ms ↔ ∃ m ∈ ms, n ∈ m.within := by
  rw [withinAll_eq_flatMap]
  exact List.mem_flatMap

theorem mem_within_self (m : Match) : m ∈ m.within := by
  cases m <;> exact List.mem_cons_self

mutual

/-- What a match inside of a match holds is inside of the outer one. -/
theorem mem_within_trans {k n : Match} (m : Match) (hk : k ∈ m.within) (hn : n ∈ k.within) :
    n ∈ m.within := by
  cases m with
  | launch l nested =>
    rcases List.mem_cons.mp hk with rfl | hk
    · exact hn
    · exact List.mem_cons_of_mem _ (mem_withinAll_trans nested hk hn)
  | _ =>
    obtain rfl := List.mem_singleton.mp hk
    exact hn

theorem mem_withinAll_trans {k n : Match} (ms : List Match) (hk : k ∈ withinAll ms)
    (hn : n ∈ k.within) : n ∈ withinAll ms := by
  cases ms with
  | nil => cases hk
  | cons m ms =>
    rw [withinAll] at hk ⊢
    rcases List.mem_append.mp hk with hk | hk
    · exact List.mem_append_left _ (mem_within_trans m hk hn)
    · exact List.mem_append_right _ (mem_withinAll_trans ms hk hn)

end

/-- A match of the preprocessor holds no other. -/
theorem within_of_isDirective (h : m.isDirective = true) : m.within = [m] := by
  cases m <;> first | rfl | cases h

theorem withinAll_of_isDirective (h : ∀ m ∈ ms, m.isDirective = true) : withinAll ms = ms := by
  induction ms with
  | nil => rfl
  | cons m ms ih =>
    obtain ⟨hm, hms⟩ := List.forall_mem_cons.mp h
    rw [withinAll, within_of_isDirective hm, ih hms, List.singleton_append]

/-- The match is a launch that passes a test. -/
def isLaunchWith (p : Launch → List Match → Bool) : Match → Bool
  | .launch l nested => p l nested
  | _ => false

theorem any_isLaunchWith_iff {p : Launch → List Match → Bool} :
    ms.any (isLaunchWith p) = true ↔ ∃ l nested, .launch l nested ∈ ms ∧ p l nested = true := by
  rw [List.any_eq_true]
  constructor
  · rintro ⟨m, hm, hp⟩
    cases m with
    | launch l nested => exact ⟨l, nested, hm, hp⟩
    | _ => cases hp
  · rintro ⟨l, nested, hm, hp⟩
    exact ⟨_, hm, hp⟩

end CudaToHip.Match
