import CudaToHip.Proofs.Replacement.Sweep
import CudaToHip.Proofs.Text.Marker
import CudaToHip.Proofs.Token.Cursor
import CudaToHip.Rules.Engine

/-!
# Exchanging markers

A marker is exchanged by reading the text once. The same can be done in place: a loop looks for the
word from a cursor on, exchanges what it found in the buffer it is looking through, and goes on
behind what it put in (`Marker.inPlace?`). Such a loop may cut the buffer inside a character, and
may never end when what it puts in holds the word. It does neither, because behind the cursor the
buffer is still the end of the untouched text (`Marker.exchangeFrom?_eq`).

* `Marker.exchanges_untouched_text`: both exchange the occurrences that are chosen on the untouched
  text, for every text and marker.
* `Rules.rewritten_literal_stays`: a literal is rewritten once, if what is put in has nothing in
  common with the marker.
-/

namespace CudaToHip

namespace Text

open Lexer (countBefore)

variable {cs kept rest word : List Char} {c : Char}

/-! ## Searching -/

theorem countBefore_of_absent (h : ¬ word <:+: cs) : countBefore word cs = none := by
  induction cs with
  | nil =>
    rw [List.infix_nil] at h
    exact if_neg (List.isEmpty_iff.not.mpr h)
  | cons c cs ih =>
    rw [List.infix_cons_iff, not_or] at h
    rw [countBefore, if_neg (List.isPrefixOf_iff_prefix.not.mpr h.1), ih h.2]
    rfl

theorem countBefore_of_first (h : FirstBehind word kept rest) :
    countBefore word (kept ++ word ++ rest) = some kept.length := by
  induction kept with
  | nil => exact Lexer.countBefore_append_self word rest
  | cons c kept ih =>
    have hword : ¬ word.isPrefixOf (c :: (kept ++ word ++ rest)) = true :=
      List.isPrefixOf_iff_prefix.not.mpr h.not_prefix
    rw [List.cons_append, List.cons_append, countBefore, if_neg hword, ih h.tail]
    rfl

/-! ## Exchanging in place -/

namespace Marker

variable {m : Marker}

/-- The loop in a buffer, from a cursor on: the buffer it leaves and how often it has exchanged the
word. A round that leaves as much to look through as there was is a failure. -/
def exchangeFrom? (m : Marker) (buffer : String) (pos count : Nat) : Option (String × Nat) :=
  match slice? buffer pos buffer.utf8ByteSize with
  | none => none
  | some rest =>
    match Cursor.find? rest m.word.toList with
    | none => some (buffer, count)
    | some found =>
      let start := pos + found
      match replaceRange? buffer start (start + m.word.utf8ByteSize) m.into with
      | none => none
      | some next =>
        let behind := start + m.into.utf8ByteSize
        if next.utf8ByteSize - behind < buffer.utf8ByteSize - pos then
          exchangeFrom? m next behind (count + 1)
        else none
termination_by buffer.utf8ByteSize - pos

/-- The marker exchanged in place: `none` is a failure, and `some none` says that there is nothing
to exchange. -/
def inPlace? (m : Marker) (text : String) : Option (Option String) :=
  if m.word = "" then some none
  else (exchangeFrom? m text 0 0).map fun (buffer, count) => if 0 < count then some buffer else none

theorem word_ne_nil (hne : m.word ≠ "") : m.word.toList ≠ [] :=
  fun h => hne (String.toList_eq_nil_iff.mp h)

/-- The loop ends when the word does not occur behind the cursor. -/
theorem exchangeFrom?_of_absent (front : List Char) (count : Nat)
    (h : ¬ m.word.toList <:+: cs) :
    exchangeFrom? m (String.ofList (front ++ cs)) (byteLength front) count =
      some (String.ofList (front ++ cs), count) := by
  rw [exchangeFrom?, slice?_ofList_right]
  simp only [Cursor.find?_ofList, countBefore_of_absent h]
  rfl

/-- **One round** exchanges the first occurrence, and the cursor goes behind what was put in. -/
theorem exchangeFrom?_of_first (hne : m.word ≠ "") (front : List Char) (count : Nat)
    (h : FirstBehind m.word.toList kept rest) :
    exchangeFrom? m (String.ofList (front ++ (kept ++ m.word.toList ++ rest))) (byteLength front)
        count =
      exchangeFrom? m (String.ofList (front ++ kept ++ m.into.toList ++ rest))
        (byteLength (front ++ kept ++ m.into.toList)) (count + 1) := by
  have hsize : 0 < byteLength m.word.toList :=
    Nat.pos_of_ne_zero fun h => word_ne_nil hne (eq_nil_of_byteLength h)
  have htake : (kept ++ m.word.toList ++ rest).take kept.length = kept := by
    rw [List.append_assoc, List.take_left]
  have hstart : byteLength front + byteLength kept =
      (String.ofList (front ++ kept)).utf8ByteSize := by
    rw [← byteLength_toList, String.toList_ofList, byteLength_append]
  have hbuffer : String.ofList (front ++ (kept ++ m.word.toList ++ rest)) =
      String.ofList (front ++ kept) ++ m.word ++ String.ofList rest := by
    rw [← String.toList_inj]
    simp
  have hnext : String.ofList (front ++ kept) ++ m.into ++ String.ofList rest =
      String.ofList (front ++ kept ++ m.into.toList ++ rest) := by
    rw [← String.toList_inj]
    simp
  have hbehind : byteLength front + byteLength kept + m.into.utf8ByteSize =
      byteLength (front ++ kept ++ m.into.toList) := by
    rw [byteLength_append, byteLength_append, byteLength_toList]
  rw [exchangeFrom?, slice?_ofList_right]
  simp only [Cursor.find?_ofList, countBefore_of_first h, Option.map_some, htake]
  rw [hbuffer, Applied.replaceRange?_append m.into hstart rfl, hnext]
  simp only [hbehind]
  -- there is less behind the cursor, by what was in front of the occurrence and the word itself
  rw [if_pos]
  simp only [← byteLength_toList, String.toList_append, String.toList_ofList, byteLength_append]
  omega

/-- **The loop reads the text once**: what is behind the cursor is still untouched. -/
theorem exchangeFrom?_eq (hne : m.word ≠ "") (front cs : List Char) (count : Nat) :
    ∃ n, exchangeFrom? m (String.ofList (front ++ cs)) (byteLength front) count =
        some (String.ofList (front ++ replaceAll m.word.toList m.into.toList cs), count + n) ∧
      (0 < n ↔ m.word.toList <:+: cs) := by
  induction hn : cs.length using Nat.strongRecOn generalizing front cs count with
  | ind n ih =>
    rcases exists_firstBehind m.word.toList cs with hcs | ⟨kept, rest, rfl, hfirst⟩
    · rw [exchangeFrom?_of_absent front count hcs, replaceAll_of_absent hcs]
      exact ⟨0, rfl, fun h => absurd h (Nat.lt_irrefl 0), fun h => absurd h hcs⟩
    · have hword := word_ne_nil hne
      have hlen := List.length_pos_iff.mpr hword
      rw [List.length_append, List.length_append] at hn
      obtain ⟨n, hloop, -⟩ :=
        ih rest.length (by omega) (front ++ kept ++ m.into.toList) rest (count + 1) rfl
      refine ⟨n + 1, ?_, fun _ => ⟨kept, rest, rfl⟩, fun _ => Nat.succ_pos n⟩
      rw [exchangeFrom?_of_first hne front count hfirst, hloop, replaceAll_of_first hword hfirst]
      simp [Nat.add_assoc, Nat.add_comm 1]

/-- When there is something to exchange, and what comes out. -/
theorem replaceIn_eq_some {text out : String} : m.replaceIn text = some out ↔
    m.word ≠ "" ∧ m.word.toList <:+: text.toList ∧
      out.toList = replaceAll m.word.toList m.into.toList text.toList := by
  rw [replaceIn, Option.ite_none_right_eq_some, occurs_iff, and_assoc, Option.some_inj,
    ← String.toList_inj, String.toList_ofList, eq_comm (a := out.toList)]

theorem replaceIn_eq_none {text : String} :
    m.replaceIn text = none ↔ m.word = "" ∨ ¬ m.word.toList <:+: text.toList := by
  rw [replaceIn, ite_eq_right_iff, imp_iff_not (Option.some_ne_none _), occurs_iff, not_and_or,
    not_not]

theorem inPlace?_eq (m : Marker) (text : String) : m.inPlace? text = some (m.replaceIn text) := by
  by_cases hne : m.word = ""
  · rw [inPlace?, if_pos hne, replaceIn_eq_none.mpr (Or.inl hne)]
  · obtain ⟨n, hloop, hn⟩ := exchangeFrom?_eq hne [] text.toList 0
    rw [List.nil_append, List.nil_append, String.ofList_toList, Nat.zero_add] at hloop
    have hoccurs : (m.word ≠ "" ∧ occurs m.word.toList text.toList = true) ↔ 0 < n := by
      rw [occurs_iff, ← hn]
      exact and_iff_right hne
    rw [inPlace?, if_neg hne, replaceIn]
    simp only [hoccurs]
    exact congrArg (Option.map _) hloop

/-- **A marker is exchanged on the untouched text.** Exchanging it in place ends, cuts no character
and gives the same text: the one with the first occurrence exchanged, the first one behind it, and
so on, whatever is put in. Nothing is exchanged if the word is empty or does not occur. -/
theorem exchanges_untouched_text (m : Marker) (text : String) :
    m.inPlace? text = some (m.replaceIn text) ∧
    (m.replaceIn text = none ↔ m.word = "" ∨ ¬ m.word.toList <:+: text.toList) ∧
    ∀ out, m.replaceIn text = some out ↔ m.word ≠ "" ∧ m.word.toList <:+: text.toList ∧
      Exchanged m.word.toList m.into.toList text.toList out.toList := by
  refine ⟨inPlace?_eq m text, replaceIn_eq_none, fun out => ?_⟩
  rw [replaceIn_eq_some]
  refine and_congr_right fun hne => and_congr_right fun _ => ?_
  exact (exchanged_iff (word_ne_nil hne)).symm

/-- What is put in holds the word, and so does the seam in front of it. -/
example : (Marker.mk "aa" "baa").replaceIn "aaaaa" = some "baabaaa" := by decide +kernel

end Marker

end Text

namespace Rules

open Text

/-- **A rewritten literal is not rewritten again**, if what is put in for the marker is not empty
and has no character in common with it. -/
theorem rewritten_literal_stays {m : Marker} {text out : String} (hinto : m.into ≠ "")
    (hcommon : ∀ c ∈ m.into.toList, c ∉ m.word.toList) (h : m.replaceIn text = some out) :
    ¬ m.word.toList <:+: out.toList ∧ m.replaceIn out = none ∧
    ∀ rules : Rules, rules.config.stringMarker = m → ∀ span,
      rules.editsFor (.stringLiteral out span) = [] := by
  obtain ⟨hword, -, hout⟩ := Marker.replaceIn_eq_some.mp h
  have hgone : ¬ m.word.toList <:+: out.toList := by
    have hne := Marker.word_ne_nil hword
    refine Exchanged.absent hne ?_ hcommon ((exchanged_iff hne).mpr hout)
    exact fun hnil => hinto (String.toList_eq_nil_iff.mp hnil)
  have hnone : m.replaceIn out = none := Marker.replaceIn_eq_none.mpr (Or.inr hgone)
  refine ⟨hgone, hnone, ?_⟩
  rintro rules rfl span
  rw [editsFor, editLiteral?, hnone]
  rfl

/-- The default marker, in a literal that has it twice. -/
theorem rewritten_literal_stays_twice :
    let m : Marker := .default
    m.into ≠ "" ∧ (∀ c ∈ m.into.toList, c ∉ m.word.toList) ∧
    m.replaceIn "\"cudacuda\"" = some "\"hiphip\"" ∧ m.replaceIn "\"hiphip\"" = none := by
  intro m
  have hinto : m.into ≠ "" := by decide
  have hall : m.into.toList.all (fun c => !m.word.toList.contains c) = true := by decide
  have hcommon : ∀ c ∈ m.into.toList, c ∉ m.word.toList :=
    fun c hc => by simpa using List.all_eq_true.mp hall c hc
  have hout : m.replaceIn "\"cudacuda\"" = some "\"hiphip\"" := by decide +kernel
  exact ⟨hinto, hcommon, hout, (rewritten_literal_stays hinto hcommon hout).2.1⟩

end Rules

end CudaToHip
