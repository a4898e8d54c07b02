import CudaToHip.Json.Parser
import CudaToHip.Json.Printer
import CudaToHip.Proofs.Json.Values

/-!
# What is written can be read

The reader gives back every document that the printer writes, if its texts and numbers are spelled as
values are (`Written`). A value is read off the front of a text (`Reads`), whatever follows, as long
as that cannot go on a number: in a printed document it is a comma, a line break or nothing.

* `parse?_pretty`: a written document is what its print spells.
-/

namespace CudaToHip.Json

/-! ## Texts -/

/-- The reader passes over a spelled character, whatever follows it. -/
theorem readString?_escapeChar (c : Char) (cs : List Char) :
    readString? (escapeChar c ++ cs) =
      (readString? cs).map fun (spelled, rest) => (escapeChar c ++ spelled, rest) := by
  have hspelled := spelledAs_escapeChar c
  generalize escapeChar c = spelled at hspelled
  cases hspelled with
  | @short k h hk =>
    show readString? ('\\' :: k :: cs) = _
    rw [readString?.eq_4 k cs fun a b c d rest heq _ => hk heq, h]
    cases readString? cs <;> rfl
  | @number x y z w n h =>
    show readString? ('\\' :: 'u' :: x :: y :: z :: w :: cs) = _
    rw [readString?, h]
    cases readString? cs <;> rfl
  | plain hquote hslash hprints =>
    have hplain : (0x20 ≤ c.toNat && c ≠ '\\') = true := by simp [hslash, hprints]
    rw [List.singleton_append, readString?.eq_5 c cs hquote
      (fun a b c d rest heq _ => hslash heq) fun d rest heq _ => hslash heq, hplain]
    cases readString? cs <;> rfl

/-- **A spelled text is read up to its quote.** -/
theorem readString?_spelled (cs rest : List Char) :
    readString? (cs.flatMap escapeChar ++ '"' :: rest) = some (cs.flatMap escapeChar, rest) := by
  induction cs with
  | nil => rfl
  | cons c cs ih =>
    rw [List.flatMap_cons, List.append_assoc, readString?_escapeChar, ih, Option.map_some]

/-! ## Numbers -/

/-- What may follow a value in a printed document. -/
def Ends (rest : List Char) : Prop := ∀ c ∈ rest.head?, c = ',' ∨ c = '\n'

theorem readDigits_append {ds rest : List Char} (hds : ∀ c ∈ ds, c.isDigit = true)
    (hrest : Ends rest) : readDigits (ds ++ rest) = (ds, rest) := by
  unfold readDigits
  rw [List.takeWhile_append_of_pos hds, List.dropWhile_append_of_pos hds]
  cases rest with
  | nil => simp
  | cons c cs =>
    have hc : c.isDigit = false := by
      rcases hrest c rfl with rfl | rfl <;> decide
    simp [hc]

/-- A number does not begin with a zero, unless it is zero. -/
theorem head?_toDigits {n : Nat} (h : 0 < n) : (Nat.toDigits 10 n).head? ≠ some '0' := by
  induction n using Nat.strongRecOn with
  | ind n ih =>
    by_cases hsmall : n < 10
    · rw [Nat.toDigits_of_lt_base hsmall]
      simpa using Nat.ne_of_gt h
    · rw [Nat.toDigits_of_base_le (by decide) (by omega), List.head?_append_of_ne_nil _
        Nat.toDigits_ne_nil]
      exact ih (n / 10) (by omega) (by omega)

theorem isDigit_toDigits (n : Nat) : ∀ c ∈ Nat.toDigits 10 n, c.isDigit = true :=
  fun _ hc => Nat.isDigit_of_mem_toDigits (by decide) (by decide) hc

theorem exists_toDigits (n : Nat) : ∃ d ds, Nat.toDigits 10 n = d :: ds ∧ d.isDigit = true := by
  obtain ⟨d, ds, hds⟩ := List.exists_cons_of_ne_nil (Nat.toDigits_ne_nil (b := 10) (n := n))
  exact ⟨d, ds, hds, isDigit_toDigits n d (hds ▸ List.mem_cons_self)⟩

theorem readWhole?_toDigits (n : Nat) {rest : List Char} (hrest : Ends rest) :
    readWhole? (Nat.toDigits 10 n ++ rest) = some (Nat.toDigits 10 n, rest) := by
  have hdigits := readDigits_append (isDigit_toDigits n) hrest
  obtain ⟨d, ds, hds, -⟩ := exists_toDigits n
  rcases Nat.eq_zero_or_pos n with rfl | hpos
  · rw [Nat.toDigits_zero]
    rfl
  · have hhead := head?_toDigits hpos
    rw [hds] at hdigits hhead ⊢
    rw [List.cons_append] at hdigits ⊢
    unfold readWhole?
    split
    · rename_i heq
      exact absurd (congrArg some (List.cons.inj heq).1) hhead
    · rw [hdigits]

/-- **A spelled number is read to its end.** -/
theorem readNumber?_toDigits (n : Nat) {rest : List Char} (hrest : Ends rest) :
    readNumber? (Nat.toDigits 10 n ++ rest) = some (Nat.toDigits 10 n, rest) := by
  have hfraction : readFraction? rest = some ([], rest) := by
    unfold readFraction?
    split
    · rename_i cs
      exact absurd (hrest '.' rfl) (by decide)
    · rfl
  have hexponent : readExponent? rest = some ([], rest) := by
    unfold readExponent?
    split
    · rfl
    · rename_i c cs
      rw [if_neg]
      rcases hrest c rfl with rfl | rfl <;> decide
  unfold readNumber?
  split
  rename_i minus cs heq
  split at heq
  · rename_i hminus
    obtain ⟨d, ds, hds, hd⟩ := exists_toDigits n
    rw [hds, List.cons_append] at hminus
    obtain rfl := (List.cons.inj hminus).1
    exact absurd hd (by decide)
  · obtain ⟨rfl, rfl⟩ := Prod.mk.inj heq
    simp only [readWhole?_toDigits n hrest, hfraction, hexponent, Option.bind_eq_bind,
      Option.bind_some, List.nil_append, List.append_nil, Option.pure_def]

/-! ## Blanks -/

theorem skipBlanks_newline (depth : Nat) (cs : List Char) :
    skipBlanks (newline depth ++ cs) = skipBlanks cs := by
  have hblanks (n : Nat) : skipBlanks (List.replicate n ' ' ++ cs) = skipBlanks cs :=
    List.dropWhile_append_of_pos fun c hc => by
      rw [List.eq_of_mem_replicate hc]
      decide
  exact hblanks (2 * depth)

theorem skipBlanks_space (cs : List Char) : skipBlanks (' ' :: cs) = skipBlanks cs := rfl

theorem skipBlanks_cons {c : Char} (h : isBlank c = false) (cs : List Char) :
    skipBlanks (c :: cs) = c :: cs := by
  unfold skipBlanks
  rw [List.dropWhile_cons_of_neg (by simp [h])]

theorem skipBlanks_newline_cons {c : Char} (h : isBlank c = false) (depth : Nat) (cs : List Char) :
    skipBlanks (newline depth ++ c :: cs) = c :: cs := by
  rw [skipBlanks_newline, skipBlanks_cons h]

theorem ends_newline (depth : Nat) (cs : List Char) : Ends (newline depth ++ cs) := by
  intro c hc
  obtain rfl : '\n' = c := Option.some.inj hc
  exact Or.inr rfl

/-- A reader passes over blanks first. -/
theorem readValue?_congr {cs ds : List Char} (h : skipBlanks cs = skipBlanks ds) (bound : Nat) :
    readValue? bound cs = readValue? bound ds := by
  cases bound with
  | zero => rw [readValue?, readValue?]
  | succ bound => rw [readValue?, readValue?, h]

theorem readItems?_newline (bound depth : Nat) (cs : List Char) :
    readItems? bound (newline depth ++ cs) = readItems? bound cs := by
  cases bound with
  | zero => rw [readItems?, readItems?]
  | succ bound => rw [readItems?, readItems?, readValue?_congr (skipBlanks_newline depth cs)]

theorem readFields?_newline (bound depth : Nat) (cs : List Char) :
    readFields? bound (newline depth ++ cs) = readFields? bound cs := by
  cases bound with
  | zero => rw [readFields?, readFields?]
  | succ bound => rw [readFields?, readFields?, skipBlanks_newline]

/-! ## Documents -/

/-- A document whose texts and numbers are spelled as values are. -/
inductive Written : Json → Prop where
  | null : Written .null
  | bool (b : Bool) : Written (.bool b)
  | number (n : Nat) : Written (.ofNat n)
  | text (s : String) : Written (.ofText s)
  | array {items : List Json} (h : ∀ j ∈ items, Written j) : Written (.array items)
  | object {fields : List (String × Json)} (h : ∀ x ∈ fields, Written x.2) :
    Written (.ofFields fields)

/-- The print of a document can be read back in front of whatever may follow a value, in as many
steps as twice its length. -/
structure Reads (j : Json) : Prop where
  starts : ∀ depth, ∃ c cs, prettyChars depth j = c :: cs ∧ isBlank c = false ∧ c ≠ ']'
  reads : ∀ depth bound rest, Ends rest → 2 * (prettyChars depth j).length ≤ bound →
    readValue? bound (prettyChars depth j ++ rest) = some (j, rest)

theorem reads_null : Reads .null where
  starts _ := ⟨'n', "ull".toList, by simp [prettyChars], by decide, by decide⟩
  reads depth bound rest _ hbound := by
    obtain _ | bound := bound
    · simp [prettyChars] at hbound
    · simp [prettyChars, readValue?, skipBlanks, isBlank, behind?]

theorem reads_bool (b : Bool) : Reads (.bool b) where
  starts _ := by cases b <;> simp [prettyChars, isBlank]
  reads depth bound rest _ hbound := by
    obtain _ | bound := bound
    · cases b <;> simp [prettyChars] at hbound
    · cases b <;> simp [prettyChars, readValue?, skipBlanks, isBlank, behind?]

theorem reads_ofText (s : String) : Reads (.ofText s) where
  starts _ := ⟨'"', _, rfl, by decide, by decide⟩
  reads depth bound rest _ hbound := by
    obtain _ | bound := bound
    · simp [ofText, prettyChars] at hbound
    · simp [ofText, prettyChars, readValue?, skipBlanks, isBlank, readString?_spelled]

theorem isBlank_of_isDigit {c : Char} (h : c.isDigit = true) : isBlank c = false := by
  have hne {b : Char} (hb : b.isDigit = false) : c ≠ b := fun heq => by
    rw [heq, hb] at h
    cases h
  simp [isBlank, hne (b := ' ') rfl, hne (b := '\n') rfl, hne (b := '\t') rfl,
    hne (b := '\r') rfl]

/-- What begins with a digit is read as a number. -/
theorem readValue?_digit {d : Char} (hd : d.isDigit = true) (bound : Nat) (cs : List Char) :
    readValue? (bound + 1) (d :: cs) =
      (readNumber? (d :: cs)).map fun (spelled, rest) => (.number spelled, rest) := by
  rw [readValue?, skipBlanks_cons (isBlank_of_isDigit hd)]
  split
  case h_1 heq => cases heq
  case h_8 => rfl
  all_goals
    -- The other readers are chosen by a first character that is not a digit.
    rename_i heq
    rw [(List.cons.inj heq).1] at hd
    exact absurd hd (by decide)

theorem reads_ofNat (n : Nat) : Reads (.ofNat n) where
  starts _ := by
    obtain ⟨d, ds, hds, hd⟩ := exists_toDigits n
    refine ⟨d, ds, hds, isBlank_of_isDigit hd, ?_⟩
    rintro rfl
    exact absurd hd (by decide)
  reads depth bound rest hrest hbound := by
    obtain ⟨d, ds, hds, hd⟩ := exists_toDigits n
    have hnumber := readNumber?_toDigits n hrest
    show readValue? bound (Nat.toDigits 10 n ++ rest) = some (.number (Nat.toDigits 10 n), rest)
    have hlength : 2 * (Nat.toDigits 10 n).length ≤ bound := hbound
    rw [hds] at hnumber hlength ⊢
    obtain _ | bound := bound
    · simp at hlength
    · rw [List.cons_append, readValue?_digit hd, ← List.cons_append, hnumber, Option.map_some]

/-! ### Arrays -/

/-- **The items of an array are read up to its bracket.** -/
theorem readItems?_pretty {x : Json} {xs : List Json} (hx : Reads x) (hxs : ∀ y ∈ xs, Reads y)
    (outer depth bound : Nat) (rest : List Char)
    (hbound : 2 * ((prettyChars depth x).length + (prettyItems depth xs).length) + 1 ≤ bound) :
    readItems? bound (prettyChars depth x ++
      (prettyItems depth xs ++ (newline outer ++ ']' :: rest))) = some (x :: xs, rest) := by
  induction xs generalizing x bound with
  | nil =>
    obtain _ | bound := bound
    · omega
    · have hvalue := hx.reads depth bound _ (ends_newline outer (']' :: rest)) (by omega)
      rw [readItems?, prettyItems, List.nil_append, hvalue]
      simp only [Option.bind_eq_bind, Option.bind_some, skipBlanks_newline_cons (c := ']') rfl,
        Option.pure_def]
  | cons y ys ih =>
    obtain _ | bound := bound
    · omega
    · simp only [prettyItems, List.cons_append, List.append_assoc, List.length_cons,
        List.length_append] at hbound ⊢
      have hvalue := hx.reads depth bound (',' :: (newline depth ++ (prettyChars depth y ++
        (prettyItems depth ys ++ (newline outer ++ ']' :: rest)))))
        (fun c hc => Or.inl (Option.some.inj hc).symm) (by omega)
      have hitems := ih (hxs y List.mem_cons_self)
        (fun z hz => hxs z (List.mem_cons_of_mem y hz)) bound (by omega)
      rw [readItems?, hvalue]
      simp only [Option.bind_eq_bind, Option.bind_some, skipBlanks_cons (c := ',') rfl,
        readItems?_newline, hitems, Option.pure_def]

/-- What opens with a bracket and does not close at once is read as its items. -/
theorem readValue?_bracket {c : Char} (hblank : isBlank c = false) (hc : c ≠ ']')
    (depth bound : Nat) (cs : List Char) :
    readValue? (bound + 1) ('[' :: (newline depth ++ c :: cs)) =
      (readItems? bound (c :: cs)).map fun (items, rest) => (.array items, rest) := by
  rw [readValue?, skipBlanks_cons (c := '[') rfl]
  simp only [skipBlanks_newline_cons hblank]
  split
  · rename_i heq
    exact absurd (List.cons.inj heq).1 hc
  · rfl

theorem reads_array {items : List Json} (h : ∀ j ∈ items, Reads j) : Reads (.array items) where
  starts _ := by
    cases items with
    | nil => exact ⟨'[', _, by rw [prettyChars], by decide, by decide⟩
    | cons x xs => exact ⟨'[', _, by rw [prettyChars]; rfl, by decide, by decide⟩
  reads depth bound rest hrest hbound := by
    obtain _ | bound := bound
    · cases items <;> simp [prettyChars] at hbound
    cases items with
    | nil => simp [prettyChars, readValue?, skipBlanks, isBlank]
    | cons x xs =>
      obtain ⟨hx, hxs⟩ := List.forall_mem_cons.mp h
      simp only [prettyChars, List.cons_append, List.append_assoc, List.length_cons,
        List.length_append, List.nil_append] at hbound ⊢
      have hitems := readItems?_pretty hx hxs depth (depth + 1) bound rest (by omega)
      obtain ⟨c, cs, hcs, hblank, hc⟩ := hx.starts (depth + 1)
      rw [hcs] at hitems ⊢
      rw [List.cons_append] at hitems ⊢
      rw [readValue?_bracket hblank hc, hitems, Option.map_some]

/-! ### Objects -/

/-- A field with a spelled key and a value that can be read back. -/
structure ReadsField (field : List Char × Json) : Prop where
  key : ∃ cs : List Char, field.1 = cs.flatMap escapeChar
  value : Reads field.2

theorem readString?_key {field : List Char × Json} (h : ReadsField field) (rest : List Char) :
    readString? (field.1 ++ '"' :: rest) = some (field.1, rest) := by
  obtain ⟨cs, hcs⟩ := h.key
  rw [hcs, readString?_spelled]

/-- **The fields of an object are read up to its brace.** -/
theorem readFields?_pretty {x : List Char × Json} {xs : List (List Char × Json)}
    (hx : ReadsField x) (hxs : ∀ y ∈ xs, ReadsField y) (outer depth bound : Nat) (rest : List Char)
    (hbound : 2 * ((prettyChars depth x.2).length + (prettyFields depth xs).length) + 1 ≤ bound) :
    readFields? bound ('"' :: (x.1 ++ '"' :: ':' :: ' ' :: (prettyChars depth x.2 ++
      (prettyFields depth xs ++ (newline outer ++ '\x7d' :: rest))))) = some (x :: xs, rest) := by
  have hcolon (cs : List Char) : behind? ":" (skipBlanks (':' :: ' ' :: cs)) = some (' ' :: cs) := by
    rw [skipBlanks_cons rfl]
    rfl
  have hblank (bound : Nat) (cs : List Char) : readValue? bound (' ' :: cs) = readValue? bound cs :=
    readValue?_congr (skipBlanks_space cs) bound
  induction xs generalizing x bound with
  | nil =>
    obtain _ | bound := bound
    · omega
    · have hvalue := hx.value.reads depth bound _ (ends_newline outer ('\x7d' :: rest)) (by omega)
      rw [readFields?, prettyFields, List.nil_append, skipBlanks_cons rfl]
      simp only [readString?_key hx, hcolon, hblank, hvalue,
        skipBlanks_newline_cons (c := '\x7d') rfl, Option.bind_eq_bind, Option.bind_some,
        Option.pure_def]
  | cons y ys ih =>
    obtain _ | bound := bound
    · omega
    · simp only [prettyFields, List.cons_append, List.append_assoc, List.length_cons,
        List.length_append, List.nil_append] at hbound ⊢
      have hvalue := hx.value.reads depth bound (',' :: (newline depth ++ '"' :: (y.1 ++
        '"' :: ':' :: ' ' :: (prettyChars depth y.2 ++ (prettyFields depth ys ++
          (newline outer ++ '\x7d' :: rest))))))
        (fun c hc => Or.inl (Option.some.inj hc).symm) (by omega)
      have hfields := ih (hxs y List.mem_cons_self)
        (fun z hz => hxs z (List.mem_cons_of_mem y hz)) bound (by omega)
      rw [readFields?, skipBlanks_cons rfl]
      simp only [readString?_key hx, hcolon, hblank, hvalue, skipBlanks_cons (c := ',') rfl,
        readFields?_newline, hfields, Option.bind_eq_bind, Option.bind_some, Option.pure_def]

/-- What opens with a brace and a quote is read as its fields. -/
theorem readValue?_brace (depth bound : Nat) (cs : List Char) :
    readValue? (bound + 1) ('\x7b' :: (newline depth ++ '"' :: cs)) =
      (readFields? bound ('"' :: cs)).map fun (fields, rest) => (.object fields, rest) := by
  rw [readValue?, skipBlanks_cons (c := '\x7b') rfl]
  simp only [skipBlanks_newline_cons (c := '"') rfl]
  split
  · rename_i heq
    exact absurd (List.cons.inj heq).1 (by decide)
  · rfl

theorem reads_object {fields : List (List Char × Json)} (h : ∀ x ∈ fields, ReadsField x) :
    Reads (.object fields) where
  starts _ := by
    cases fields with
    | nil => exact ⟨'\x7b', _, by rw [prettyChars], by decide, by decide⟩
    | cons x xs => exact ⟨'\x7b', _, by rw [prettyChars]; rfl, by decide, by decide⟩
  reads depth bound rest hrest hbound := by
    obtain _ | bound := bound
    · cases fields <;> simp [prettyChars] at hbound
    cases fields with
    | nil => simp [prettyChars, readValue?, skipBlanks, isBlank]
    | cons x xs =>
      obtain ⟨hx, hxs⟩ := List.forall_mem_cons.mp h
      simp only [prettyChars, List.cons_append, List.append_assoc, List.length_cons,
        List.length_append, List.nil_append] at hbound ⊢
      have hfields := readFields?_pretty hx hxs depth (depth + 1) bound rest (by omega)
      rw [readValue?_brace, hfields, Option.map_some]

/-! ### Whole documents -/

theorem Written.reads {j : Json} (h : Written j) : Reads j := by
  induction h with
  | null => exact reads_null
  | bool b => exact reads_bool b
  | number n => exact reads_ofNat n
  | text s => exact reads_ofText s
  | array _ ih => exact reads_array ih
  | @object fields _ ih =>
    refine reads_object fun x hx => ?_
    obtain ⟨field, hfield, rfl⟩ := List.mem_map.mp hx
    exact ⟨⟨_, rfl⟩, ih field hfield⟩

/-- **A written document is what its print spells.** -/
theorem parse?_pretty {j : Json} (h : Written j) : parse? (pretty j) = some j := by
  have hread := h.reads.reads 0 (2 * (prettyChars 0 j).length + 1) [] (by simp [Ends]) (by omega)
  rw [List.append_nil] at hread
  simp only [parse?, pretty, String.toList_ofList, hread]
  rfl

end CudaToHip.Json
