/-!
# Name maps

A map from names to names, kept as a list sorted by name with one entry for each. The map read
after a write holds the written target for its name and is unchanged elsewhere (`get?_insert`).
-/

namespace CudaToHip

/-- `(name, target)` entries. -/
abbrev NameMap := List (String × String)

namespace NameMap

/-- The target of the first entry for `name`. -/
def get? : NameMap → String → Option String
  | [], _ => none
  | (n, t) :: rest, name => if n = name then some t else get? rest name

/-- The map with `target` for `name`, whatever it held for it before. -/
def insert : NameMap → String → String → NameMap
  | [], name, target => [(name, target)]
  | (n, t) :: rest, name, target =>
    if name < n then (name, target) :: (n, t) :: rest
    else if name = n then (name, target) :: rest
    else (n, t) :: insert rest name target

/-- All entries of `entries` written in turn, later ones over earlier ones. -/
def insertAll (m : NameMap) (entries : List (String × String)) : NameMap :=
  entries.foldl (fun acc e => acc.insert e.1 e.2) m

/-- The map of the entries, later ones over earlier ones. -/
def ofList (entries : List (String × String)) : NameMap := insertAll [] entries

theorem get?_insert (m : NameMap) (name target q : String) :
    get? (insert m name target) q = if q = name then some target else get? m q := by
  have key (n : String) (a b : Option String) :
      (if n = q then a else b) = if q = n then a else b := by
    by_cases h : n = q
    · subst h; rfl
    · rw [if_neg h, if_neg (Ne.symm h)]
  induction m with
  | nil => simp only [insert, get?, key]
  | cons e rest ih =>
    obtain ⟨n, t⟩ := e
    simp only [insert]
    split
    · simp only [get?, key]
    · split
      · rename_i h
        subst h
        simp only [get?, key]
        split <;> rfl
      · rename_i hne
        simp only [get?, key, ih]
        by_cases h : q = n
        · subst h
          simp [Ne.symm hne]
        · simp [h]

end NameMap

end CudaToHip
