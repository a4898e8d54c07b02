import CudaToHip.Proofs.Text.Marker

/-!
# Line ends

A line ends with a line feed, or on Windows with a carriage return in front of it. `crlf` gives a
text Windows line ends and `lf` takes them away again; both are exchanges of a word.

* `lf_crlf`: in a text without carriage returns nothing else is changed.
* `any_head?_crlf`: a test that treats both characters of a line end alike does not tell what a text
  begins with.
* `isPrefixOf_crlf`: a word stands in front of both texts or of neither.
-/

namespace CudaToHip

namespace Text

variable {c : Char} {cs us word : List Char} {p : Char → Bool}

/-- The text with Windows line ends. -/
def crlf (cs : List Char) : List Char := replaceAll ['\n'] ['\r', '\n'] cs

/-- The text with each Windows line end made a line feed again. -/
def lf (cs : List Char) : List Char := replaceAll ['\r', '\n'] ['\n'] cs

/-- The number of characters that the first `n` of the text become with Windows line ends. -/
def crlfLength (cs : List Char) (n : Nat) : Nat := (crlf (cs.take n)).length

/-! ## Windows line ends -/

@[simp] theorem crlf_nil : crlf [] = [] := by
  rw [crlf, replaceAll]

@[simp] theorem crlf_line (cs : List Char) : crlf ('\n' :: cs) = '\r' :: '\n' :: crlf cs := by
  have hline : ['\n'].isPrefixOf ('\n' :: cs) = true := by simp
  rw [crlf, replaceAll, if_pos ⟨by simp, hline⟩]
  rfl

theorem crlf_cons (hc : c ≠ '\n') (cs : List Char) : crlf (c :: cs) = c :: crlf cs := by
  have hline : ¬ ['\n'].isPrefixOf (c :: cs) = true := by simpa using hc.symm
  rw [crlf, replaceAll, if_neg fun h => hline h.2]
  rfl

theorem crlf_append (us cs : List Char) : crlf (us ++ cs) = crlf us ++ crlf cs := by
  induction us with
  | nil => rw [crlf_nil, List.nil_append, List.nil_append]
  | cons u us ih =>
    by_cases hu : u = '\n'
    · rw [hu, List.cons_append, crlf_line, crlf_line, ih, List.cons_append, List.cons_append]
    · rw [List.cons_append, crlf_cons hu, crlf_cons hu, ih, List.cons_append]

/-- A text on one line stays. -/
theorem crlf_of_not_mem (h : '\n' ∉ cs) : crlf cs = cs :=
  replaceAll_of_absent fun hline => h (hline.subset List.mem_cons_self)

/-- What is on one line stays in front. -/
theorem crlf_append_of_not_mem (h : '\n' ∉ us) (cs : List Char) :
    crlf (us ++ cs) = us ++ crlf cs := by
  rw [crlf_append, crlf_of_not_mem h]

theorem mem_of_mem_crlf (h : c ∈ crlf cs) : c ∈ cs ∨ c = '\r' := by
  induction cs with
  | nil =>
    rw [crlf_nil] at h
    cases h
  | cons d cs ih =>
    by_cases hd : d = '\n'
    · rw [hd, crlf_line] at h
      rw [hd]
      rcases List.mem_cons.mp h with h | h
      · exact Or.inr h
      · rcases List.mem_cons.mp h with h | h
        · exact Or.inl (h ▸ List.mem_cons_self)
        · exact (ih h).imp_left (List.mem_cons_of_mem _)
    · rw [crlf_cons hd] at h
      rcases List.mem_cons.mp h with h | h
      · exact Or.inl (h ▸ List.mem_cons_self)
      · exact (ih h).imp_left (List.mem_cons_of_mem _)

theorem any_head?_crlf (hp : p '\r' = p '\n') (cs : List Char) :
    (crlf cs).head?.any p = cs.head?.any p := by
  cases cs with
  | nil => rw [crlf_nil]
  | cons c cs =>
    by_cases hc : c = '\n'
    · rw [hc, crlf_line, List.head?_cons, List.head?_cons, Option.any_some, Option.any_some, hp]
    · rw [crlf_cons hc, List.head?_cons, List.head?_cons]

theorem isPrefixOf_crlf (hword : '\r' ∉ word) (hcs : '\r' ∉ cs) :
    (crlf word).isPrefixOf (crlf cs) = word.isPrefixOf cs := by
  induction word generalizing cs with
  | nil => simp
  | cons x word ih =>
    rw [List.mem_cons, not_or] at hword
    cases cs with
    | nil =>
      by_cases hx : x = '\n'
      · rw [hx, crlf_line, crlf_nil]
        rfl
      · rw [crlf_cons hx, crlf_nil]
        rfl
    | cons c cs =>
      rw [List.mem_cons, not_or] at hcs
      obtain ⟨hx, hword⟩ := hword
      obtain ⟨hc, hcs⟩ := hcs
      by_cases hxline : x = '\n'
      · by_cases hcline : c = '\n'
        · rw [hxline, hcline, crlf_line, crlf_line, List.isPrefixOf_cons_cons,
            List.isPrefixOf_cons_cons, List.isPrefixOf_cons_cons, ih hword hcs]
          rfl
        · rw [hxline, crlf_line, crlf_cons hcline, List.isPrefixOf_cons_cons,
            List.isPrefixOf_cons_cons, beq_false_of_ne hc, beq_false_of_ne (Ne.symm hcline)]
          rfl
      · by_cases hcline : c = '\n'
        · rw [hcline, crlf_line, crlf_cons hxline, List.isPrefixOf_cons_cons,
            List.isPrefixOf_cons_cons, beq_false_of_ne (Ne.symm hx), beq_false_of_ne hxline]
          rfl
        · rw [crlf_cons hxline, crlf_cons hcline, List.isPrefixOf_cons_cons,
            List.isPrefixOf_cons_cons, ih hword hcs]

/-! ## The front of a text -/

@[simp] theorem crlfLength_nil (n : Nat) : crlfLength [] n = 0 := by
  rw [crlfLength, List.take_nil, crlf_nil, List.length_nil]

@[simp] theorem crlfLength_zero (cs : List Char) : crlfLength cs 0 = 0 := by
  rw [crlfLength, List.take_zero, crlf_nil, List.length_nil]

theorem crlfLength_append (us cs : List Char) (n : Nat) :
    crlfLength (us ++ cs) (us.length + n) = (crlf us).length + crlfLength cs n := by
  rw [crlfLength, List.take_length_add_append, crlf_append, List.length_append, crlfLength]

theorem crlfLength_left (us cs : List Char) :
    crlfLength (us ++ cs) us.length = (crlf us).length := by
  rw [crlfLength, List.take_left]

/-- A front on one line. -/
theorem crlfLength_front (h : '\n' ∉ us) (cs : List Char) :
    crlfLength (us ++ cs) us.length = us.length := by
  rw [crlfLength_left, crlf_of_not_mem h]

theorem crlfLength_append_of_not_mem (h : '\n' ∉ us) (cs : List Char) (n : Nat) :
    crlfLength (us ++ cs) (us.length + n) = us.length + crlfLength cs n := by
  rw [crlfLength_append, crlf_of_not_mem h]

theorem crlfLength_cons (hc : c ≠ '\n') (cs : List Char) (n : Nat) :
    crlfLength (c :: cs) (1 + n) = 1 + crlfLength cs n := by
  have hline : '\n' ∉ [c] := by simpa using hc.symm
  exact crlfLength_append_of_not_mem hline cs n

theorem crlfLength_line (cs : List Char) (n : Nat) :
    crlfLength ('\n' :: cs) (1 + n) = 2 + crlfLength cs n := by
  have h := crlfLength_append ['\n'] cs n
  rwa [crlf_line, crlf_nil] at h

/-- All of the text. -/
theorem crlfLength_length (cs : List Char) : crlfLength cs cs.length = (crlf cs).length := by
  rw [crlfLength, List.take_length]

theorem crlf_take_append_drop (cs : List Char) (n : Nat) :
    crlf cs = crlf (cs.take n) ++ crlf (cs.drop n) := by
  rw [← crlf_append, List.take_append_drop]

theorem take_crlfLength (cs : List Char) (n : Nat) :
    (crlf cs).take (crlfLength cs n) = crlf (cs.take n) := by
  rw [crlf_take_append_drop cs n, crlfLength, List.take_left]

theorem drop_crlfLength (cs : List Char) (n : Nat) :
    (crlf cs).drop (crlfLength cs n) = crlf (cs.drop n) := by
  rw [crlf_take_append_drop cs n, crlfLength, List.drop_left]

/-! ## Line feeds again -/

theorem lf_line (cs : List Char) : lf ('\r' :: '\n' :: cs) = '\n' :: lf cs := by
  have hline : ['\r', '\n'].isPrefixOf ('\r' :: '\n' :: cs) = true := by simp
  rw [lf, replaceAll, if_pos ⟨by simp, hline⟩]
  rfl

theorem lf_cons (hc : c ≠ '\r') (cs : List Char) : lf (c :: cs) = c :: lf cs := by
  have hline : ¬ ['\r', '\n'].isPrefixOf (c :: cs) = true := by simp [hc.symm]
  rw [lf, replaceAll, if_neg fun h => hline h.2]
  rfl

theorem lf_of_not_mem (h : '\n' ∉ cs) : lf cs = cs :=
  replaceAll_of_absent fun hline => h (hline.subset (by simp))

/-- **Nothing but line ends** is changed. -/
theorem lf_crlf (h : '\r' ∉ cs) : lf (crlf cs) = cs := by
  induction cs with
  | nil => rw [crlf_nil, lf_of_not_mem List.not_mem_nil]
  | cons c cs ih =>
    rw [List.mem_cons, not_or] at h
    by_cases hc : c = '\n'
    · rw [hc, crlf_line, lf_line, ih h.2]
    · rw [crlf_cons hc, lf_cons (Ne.symm h.1), ih h.2]

end Text

end CudaToHip
