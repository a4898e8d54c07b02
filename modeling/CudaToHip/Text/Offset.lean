/-!
# Byte offsets into text

Every position in this library is a UTF-8 byte offset. `slice?` cuts a range out of a text if
neither of its ends splits a character. Where text is read character by character, `takeBytes` and
`dropBytes` divide the characters at a byte offset.

* `slice?_eq_some_iff`: a slice is what stands between a part of `start` bytes and the rest.
* `takeBytes_append_dropBytes`: dividing a text loses nothing.
-/

namespace CudaToHip.Text

open String (Pos)

/-! ## Ranges of a text -/

/-- The text in bytes `start` to `stop`, if that is a range of `s` that splits no character. -/
def slice? (s : String) (start stop : Nat) : Option String :=
  if h : start ≤ stop ∧ Pos.Raw.IsValid s ⟨start⟩ ∧ Pos.Raw.IsValid s ⟨stop⟩ then
    some (s.extract (s.pos ⟨start⟩ h.2.1) (s.pos ⟨stop⟩ h.2.2))
  else
    none

/-- The text in bytes `start` to `stop`; nothing if that is no range of `s`. -/
def between (s : String) (start stop : Nat) : String := (slice? s start stop).getD ""

/-- The text from byte `start` on. -/
def since (s : String) (start : Nat) : String := between s start s.utf8ByteSize

/-- The byte at an offset of a text. -/
def byte? (s : String) (i : Nat) : Option UInt8 := s.toByteArray.data[i]?

/-! ## Characters -/

/-- Bytes the characters take in UTF-8. -/
def byteLength : List Char → Nat
  | [] => 0
  | c :: cs => c.utf8Size + byteLength cs

/-- The characters that begin before byte `n`. -/
def takeBytes : Nat → List Char → List Char
  | _, [] => []
  | n, c :: cs => if n = 0 then [] else c :: takeBytes (n - c.utf8Size) cs

/-- The characters that begin at byte `n` or later. -/
def dropBytes : Nat → List Char → List Char
  | _, [] => []
  | n, c :: cs => if n = 0 then c :: cs else dropBytes (n - c.utf8Size) cs

/-- Line and column of a byte offset, both counted from zero; a column counts bytes. -/
def lineAndColumn (s : String) (offset : Nat) : Nat × Nat :=
  let before := takeBytes offset s.toList
  (before.count '\n', byteLength (before.reverse.takeWhile (· ≠ '\n')))

/-! ## Lemmas -/

theorem eq_append_extract (s : String) (p q : s.Pos) (h : p.offset.byteIdx ≤ q.offset.byteIdx) :
    s = s.extract s.startPos p ++ s.extract p q ++ s.extract q s.endPos := by
  have hq : q.offset.byteIdx ≤ s.toByteArray.size :=
    String.size_toByteArray ▸ q.isValid.le_rawEndPos
  apply String.toByteArray_inj.mp
  simp only [String.extract, String.toByteArray_append]
  change _ = s.toByteArray.extract 0 _ ++ _ ++ s.toByteArray.extract _ s.utf8ByteSize
  rw [← ByteArray.extract_eq_extract_append_extract _ (Nat.zero_le _) h,
    ← String.size_toByteArray,
    ← ByteArray.extract_eq_extract_append_extract _ (Nat.zero_le _) hq,
    ByteArray.extract_zero_size]

/-- A slice is what stands between a part of `start` bytes and the rest. -/
theorem slice?_eq_some_iff {s t : String} {start stop : Nat} :
    slice? s start stop = some t ↔
      ∃ u v, s = u ++ t ++ v ∧ start = u.utf8ByteSize ∧ stop = start + t.utf8ByteSize := by
  constructor
  · intro h
    unfold slice? at h
    split at h
    · rename_i hv
      obtain rfl := Option.some.inj h
      obtain ⟨hle, hs, he⟩ := hv
      have h₁ : start ≤ s.utf8ByteSize := hs.le_rawEndPos
      have h₂ : stop ≤ s.utf8ByteSize := he.le_rawEndPos
      refine ⟨s.extract s.startPos (s.pos _ hs), s.extract (s.pos _ he) s.endPos,
        eq_append_extract s _ _ hle, ?_, ?_⟩
      all_goals
        rw [← String.size_toByteArray]
        simp only [String.extract, ByteArray.size_extract, String.offset_pos,
          String.offset_startPos, String.size_toByteArray, String.Pos.Raw.byteIdx_zero]
        omega
    · exact nomatch h
  · rintro ⟨u, v, rfl, rfl, rfl⟩
    have hs : Pos.Raw.IsValid (u ++ t ++ v) ⟨u.utf8ByteSize⟩ :=
      Pos.Raw.isValid_iff_exists_append.mpr ⟨u, t ++ v, by rw [String.append_assoc], rfl⟩
    have he : Pos.Raw.IsValid (u ++ t ++ v) ⟨u.utf8ByteSize + t.utf8ByteSize⟩ :=
      Pos.Raw.isValid_iff_exists_append.mpr ⟨u ++ t, v, rfl, by simp [String.rawEndPos]⟩
    rw [slice?, dif_pos ⟨Nat.le_add_right _ _, hs, he⟩]
    congr 1
    apply String.toByteArray_inj.mp
    simp only [String.extract, String.toByteArray_append, String.offset_pos,
      ← String.size_toByteArray]
    rw [ByteArray.append_assoc]
    exact (ByteArray.extract_append_size_add (i := 0) (j := t.toByteArray.size)).trans
      (ByteArray.extract_append_eq_left rfl)

theorem takeBytes_append_dropBytes (n : Nat) (cs : List Char) :
    takeBytes n cs ++ dropBytes n cs = cs := by
  induction cs generalizing n with
  | nil => rfl
  | cons c cs ih =>
    simp only [takeBytes, dropBytes]
    split
    · rfl
    · rw [List.cons_append, ih]

@[simp] theorem takeBytes_zero (cs : List Char) : takeBytes 0 cs = [] := by
  cases cs <;> rfl

@[simp] theorem dropBytes_zero (cs : List Char) : dropBytes 0 cs = cs := by
  cases cs <;> rfl

theorem byteLength_append (cs ds : List Char) :
    byteLength (cs ++ ds) = byteLength cs + byteLength ds := by
  induction cs with
  | nil => simp [byteLength]
  | cons c cs ih => simp [byteLength, ih, Nat.add_assoc]

end CudaToHip.Text
