import CudaToHip.Json.Basic
import Mathlib.Data.List.Nodup
import Mathlib.Data.Option.Basic

/-!
# Values spelled and read back

A text spelled by `Json.ofText` means that text, whatever characters it has, and a number spelled by
`Json.ofNat` means that number. Fields come back under their keys in the order they were given, so a
record is read from any of its fields, in any order (`record?_of_perm_filter`).
-/

namespace CudaToHip.Json

/-! ## Texts -/

theorem hexValue?_hexDigit : ∀ d < 16, hexValue? (hexDigit d) = some d := by decide

/-- Two hexadecimal digits behind two zeros. -/
theorem hexNumber?_hexDigit {n : Nat} (h : n < 256) :
    hexNumber? '0' '0' (hexDigit (n / 16)) (hexDigit (n % 16)) = some n := by
  have hhigh := hexValue?_hexDigit (n / 16) (by omega)
  have hlow := hexValue?_hexDigit (n % 16) (by omega)
  have hzero : hexValue? '0' = some 0 := rfl
  simp only [hexNumber?, hhigh, hlow, hzero, Option.pure_def, Option.bind_eq_bind,
    Option.bind_some, Option.some.injEq]
  omega

/-- What the spelling of a character may be. -/
inductive SpelledAs (c : Char) : List Char → Prop where
  | short {k : Char} (h : shortEscape? k = some c) (hk : k ≠ 'u') : SpelledAs c ['\\', k]
  | number {x y z w : Char} {n : Nat} (h : hexNumber? x y z w = some n) (hn : n < 0xD800)
    (hc : Char.ofNat n = c) : SpelledAs c ['\\', 'u', x, y, z, w]
  | plain (hquote : c ≠ '"') (hslash : c ≠ '\\') (hprints : 0x20 ≤ c.toNat) : SpelledAs c [c]

theorem spelledAs_escapeChar (c : Char) : SpelledAs c (escapeChar c) := by
  unfold escapeChar
  split_ifs with hquote hslash hback hfeed hnewline hreturn htab hcontrol
  · exact .short (by rw [hquote]; rfl) (by decide)
  · exact .short (by rw [hslash]; rfl) (by decide)
  · exact .short (by rw [hback]; rfl) (by decide)
  · exact .short (by rw [hfeed]; rfl) (by decide)
  · exact .short (by rw [hnewline]; rfl) (by decide)
  · exact .short (by rw [hreturn]; rfl) (by decide)
  · exact .short (by rw [htab]; rfl) (by decide)
  · exact .number (hexNumber?_hexDigit (by omega)) (by omega) (Char.ofNat_toNat c)
  · exact .plain hquote hslash (by omega)

/-- **A spelled character means that character**, whatever follows it. -/
theorem unescape?_escapeChar (c : Char) (cs : List Char) :
    unescape? (escapeChar c ++ cs) = (unescape? cs).map (c :: ·) := by
  have hbind (o : Option (List Char)) : (do return c :: (← o)) = o.map (c :: ·) := by
    cases o <;> rfl
  have hspelled := spelledAs_escapeChar c
  generalize escapeChar c = spelled at hspelled
  cases hspelled with
  | @short k h hk =>
    show unescape? ('\\' :: k :: cs) = _
    rw [unescape?.eq_3 k cs fun a b c d rest heq _ => hk heq, h]
    exact hbind _
  | @number x y z w n h hn hc =>
    have hhigh : isHighSurrogate n = false := by
      simp only [isHighSurrogate, Bool.and_eq_false_iff, decide_eq_false_iff_not]
      omega
    have hlow : isLowSurrogate n = false := by
      simp only [isLowSurrogate, Bool.and_eq_false_iff, decide_eq_false_iff_not]
      omega
    show unescape? ('\\' :: 'u' :: x :: y :: z :: w :: cs) = _
    rw [unescape?, h, Option.bind_eq_bind, Option.bind_some, hhigh, hlow, hc]
    exact hbind _
  | plain _ hslash =>
    rw [List.singleton_append, unescape?.eq_4 c cs (fun a b c d rest heq _ => hslash heq)
      fun d rest heq _ => hslash heq]
    exact hbind _

/-- **A spelled text means that text.** -/
theorem text?_ofText (s : String) : (ofText s).text? = some s := by
  have hchars (cs : List Char) : unescape? (cs.flatMap escapeChar) = some cs := by
    induction cs with
    | nil => rfl
    | cons c cs ih => rw [List.flatMap_cons, unescape?_escapeChar, ih, Option.map_some]
  show (unescape? (s.toList.flatMap escapeChar)).map String.ofList = some s
  rw [hchars, Option.map_some, String.ofList_toList]

/-! ## Numbers -/

/-- **A spelled number means that number.** -/
theorem natural?_ofNat (n : Nat) : (ofNat n).natural? = some n := by
  have hdigits : (Nat.toDigits 10 n).all Char.isDigit = true :=
    List.all_eq_true.mpr fun c hc => Nat.isDigit_of_mem_toDigits (by decide) (by decide) hc
  have hvalue := Nat.ofDigitChars_toDigits (b := 10) (n := n) (by decide) (by decide)
  rw [Nat.ofDigitChars_eq_foldl] at hvalue
  simp only [Nat.mul_comm 10] at hvalue
  show (if (Nat.toDigits 10 n).all Char.isDigit = true then _ else none) = some n
  rw [if_pos hdigits, hvalue]

/-! ## Fields -/

variable {fields settings : List (String × Json)}

theorem fields?_ofFields (fields : List (String × Json)) :
    (ofFields fields).fields? = some fields := by
  unfold ofFields fields?
  dsimp only
  induction fields with
  | nil => rfl
  | cons x rest ih =>
    obtain ⟨key, value⟩ := x
    have hkey : (unescape? (key.toList.flatMap escapeChar)).map String.ofList = some key :=
      text?_ofText key
    obtain ⟨cs, hcs, rfl⟩ := Option.map_eq_some_iff.mp hkey
    rw [List.map_cons, List.mapM_cons, ih]
    simp only [hcs, Option.bind_eq_bind, Option.bind_some, Option.pure_def]

/-- Where no key stands twice, looking a key up finds its field. -/
theorem lookup_eq_some_iff_mem (h : (fields.map Prod.fst).Nodup) {key : String} {value : Json} :
    fields.lookup key = some value ↔ (key, value) ∈ fields := by
  induction fields with
  | nil => simp
  | cons x rest ih =>
    obtain ⟨k, v⟩ := x
    obtain ⟨hk, hrest⟩ := List.nodup_cons.mp h
    by_cases hkey : key = k
    · subst hkey
      have hnot : (key, value) ∉ rest := fun hmem =>
        hk (List.mem_map.mpr ⟨_, hmem, rfl⟩)
      simp [hnot, eq_comm]
    · rw [List.lookup_cons, beq_false_of_ne hkey]
      simp [hkey, ih hrest]

/-- Where no key stands twice, the only field with a key is the one that is looked up. -/
theorem unique?_eq (h : (fields.map Prod.fst).Nodup) (key : String) :
    unique? fields key = some (fields.lookup key) := by
  induction fields with
  | nil => rfl
  | cons x rest ih =>
    obtain ⟨k, v⟩ := x
    obtain ⟨hk, hrest⟩ := List.nodup_cons.mp h
    unfold unique?
    rw [List.filter_cons, List.lookup_cons]
    by_cases hkey : k = key
    · subst hkey
      have hnone : rest.filter (·.1 = k) = [] := List.filter_eq_nil_iff.mpr fun y hy => by
        have hne : y.1 ≠ k := fun heq => hk (List.mem_map.mpr ⟨y, hy, heq⟩)
        simpa using hne
      simp [hnone]
    · rw [beq_false_of_ne (Ne.symm hkey)]
      simpa [hkey, unique?] using ih hrest

/-- **A record is read from its fields**, if no key stands twice. -/
theorem record?_ofFields (h : (fields.map Prod.fst).Nodup) (names : List String) :
    (ofFields fields).record? names = some (names.map (fields.lookup ·)) := by
  have hmapM : names.mapM (unique? fields) = some (names.map (fields.lookup ·)) := by
    induction names with
    | nil => rfl
    | cons name rest ih =>
      rw [List.mapM_cons, unique?_eq h, ih]
      rfl
  show ((ofFields fields).fields?.bind fun fields => names.mapM (unique? fields)) = _
  rw [fields?_ofFields, Option.bind_some, hmapM]

section Kept

variable {keep : String → Bool} (h : fields.Perm (settings.filter fun x => keep x.1))
  (hsettings : (settings.map Prod.fst).Nodup)

include h hsettings

theorem nodup_of_perm_filter : (fields.map Prod.fst).Nodup :=
  (h.map Prod.fst).nodup_iff.mpr ((List.filter_sublist.map Prod.fst).nodup hsettings)

/-- Of some of the settings, in any order, those are found that were kept. -/
theorem lookup_of_perm_filter (key : String) :
    fields.lookup key = if keep key then settings.lookup key else none := by
  ext value
  rw [lookup_eq_some_iff_mem (nodup_of_perm_filter h hsettings), h.mem_iff, List.mem_filter]
  split_ifs with hkey
  · rw [lookup_eq_some_iff_mem hsettings]
    exact and_iff_left hkey
  · simp [hkey]

/-- **A record is read from some of its fields**, in any order. -/
theorem record?_of_perm_filter : (ofFields fields).record? (settings.map Prod.fst) =
    some (settings.map fun x => if keep x.1 then some x.2 else none) := by
  rw [record?_ofFields (nodup_of_perm_filter h hsettings), List.map_map]
  refine congrArg some (List.map_congr_left fun x hx => ?_)
  show fields.lookup x.1 = _
  rw [lookup_of_perm_filter h hsettings, (lookup_eq_some_iff_mem hsettings).mpr hx]

end Kept

/-- A complete record is read as its values. -/
theorem record?_self (h : (settings.map Prod.fst).Nodup) :
    (ofFields settings).record? (settings.map Prod.fst) = some (settings.map (some ·.2)) := by
  rw [record?_ofFields h, List.map_map]
  exact congrArg some (List.map_congr_left fun x hx => (lookup_eq_some_iff_mem h).mpr hx)

end CudaToHip.Json
