import CudaToHip.Proofs.Text.Boundary
import Mathlib.Tactic.SplitIfs

/-!
# Bytes of a text

In UTF-8 a character of ASCII is one byte, that of its number (`utf8EncodeChar_ascii`), and no byte
of any other character is a number of ASCII (`le_of_mem_utf8EncodeChar`). So a byte of ASCII in a
text is a character of it, at whatever offset it is found.

* `getElem?_encode`: a byte of a text is a byte of the character that it falls into.
* `exists_divided_at`: every byte falls into one.
-/

namespace CudaToHip.Text

variable {s : String} {c : Char} {cs ds : List Char} {i j : Nat}

/-- The bytes of characters in UTF-8. -/
def encode (cs : List Char) : List UInt8 := cs.flatMap String.utf8EncodeChar

/-! ## Characters as bytes -/

theorem utf8EncodeChar_ascii (h : c.toNat < 0x80) : String.utf8EncodeChar c = [c.toUInt8] := by
  have hval : c.val.toNat ≤ 127 := Nat.le_of_lt_succ h
  rw [String.utf8EncodeChar.eq_1, if_pos hval]
  rfl

theorem utf8Size_ascii (h : c.toNat < 0x80) : c.utf8Size = 1 := by
  rw [Char.utf8Size_eq_one_iff, UInt32.le_iff_toNat_le]
  exact Nat.le_of_lt_succ h

theorem byteLength_cons_ascii (h : c.toNat < 0x80) (cs : List Char) :
    byteLength (c :: cs) = 1 + byteLength cs := by
  rw [byteLength, utf8Size_ascii h]

theorem le_of_mem_utf8EncodeChar (h : 0x80 ≤ c.toNat) :
    ∀ b ∈ String.utf8EncodeChar c, 0x80 ≤ b.toNat := by
  have hval : ¬ c.val.toNat ≤ 127 := Nat.not_le.mpr h
  rw [String.utf8EncodeChar.eq_1, if_neg hval]
  split_ifs <;>
    simp only [List.forall_mem_cons, List.not_mem_nil, UInt8.toNat_ofNat', false_imp_iff,
      implies_true, and_true] <;>
    omega

/-- A byte of ASCII is the whole character. -/
theorem eq_of_mem_utf8EncodeChar {d : Char} (hd : d.toNat < 0x80)
    (h : d.toUInt8 ∈ String.utf8EncodeChar c) : c = d := by
  have hbyte (x : Char) (hx : x.toNat < 0x80) : x.toUInt8.toNat = x.toNat := by
    show (UInt8.ofNat x.val.toNat).toNat = x.val.toNat
    rw [UInt8.toNat_ofNat']
    have : x.val.toNat < 0x80 := hx
    omega
  by_cases hc : c.toNat < 0x80
  · rw [utf8EncodeChar_ascii hc, List.mem_singleton] at h
    have hnat := congrArg UInt8.toNat h
    rw [hbyte d hd, hbyte c hc] at hnat
    exact Char.ext (UInt32.toNat_inj.mp hnat.symm)
  · have hle := le_of_mem_utf8EncodeChar (Nat.not_lt.mp hc) _ h
    rw [hbyte d hd] at hle
    omega

theorem encode_append (cs ds : List Char) : encode (cs ++ ds) = encode cs ++ encode ds :=
  List.flatMap_append

theorem encode_cons (c : Char) (cs : List Char) :
    encode (c :: cs) = String.utf8EncodeChar c ++ encode cs := List.flatMap_cons

theorem length_encode (cs : List Char) : (encode cs).length = byteLength cs := by
  induction cs with
  | nil => rfl
  | cons c cs ih =>
    rw [encode_cons, List.length_append, String.length_utf8EncodeChar, ih]
    rfl

/-! ## Bytes of a text -/

theorem byte?_eq (s : String) (i : Nat) : byte? s i = (encode s.toList)[i]? := by
  have hbytes : s.toByteArray.data.toList = encode s.toList := by
    rw [← String.utf8Encode_toList, List.utf8Encode.eq_1, List.toList_data_toByteArray]
    rfl
  rw [byte?, ← hbytes, Array.getElem?_toList]

theorem byte?_ofList (cs : List Char) (i : Nat) :
    byte? (String.ofList cs) i = (encode cs)[i]? := by
  rw [byte?_eq, String.toList_ofList]

theorem byte?_eq_none (h : s.utf8ByteSize ≤ i) : byte? s i = none := by
  rw [byte?_eq, List.getElem?_eq_none_iff, length_encode, byteLength_toList]
  exact h

theorem byte?_isSome (h : i < s.utf8ByteSize) : (byte? s i).isSome = true := by
  rw [byte?_eq, isSome_getElem?, length_encode, byteLength_toList]
  exact h

/-- **A byte of a text is a byte of the character that it falls into.** -/
theorem getElem?_encode (hi : i < c.utf8Size) :
    (encode (cs ++ c :: ds))[byteLength cs + i]? = (String.utf8EncodeChar c)[i]? := by
  have hlen : i < (String.utf8EncodeChar c).length := by rwa [String.length_utf8EncodeChar]
  rw [encode_append, encode_cons, List.getElem?_append_right (by rw [length_encode]; omega),
    length_encode, Nat.add_sub_cancel_left, List.getElem?_append_left hlen]

/-- Every byte falls into a character. -/
theorem exists_divided_at (h : i < byteLength cs) :
    ∃ us c vs j, cs = us ++ c :: vs ∧ i = byteLength us + j ∧ j < c.utf8Size := by
  induction cs generalizing i with
  | nil => exact absurd h (Nat.not_lt_zero i)
  | cons d cs ih =>
    by_cases hd : i < d.utf8Size
    · exact ⟨[], d, cs, i, rfl, (Nat.zero_add i).symm, hd⟩
    · obtain ⟨us, c, vs, j, rfl, hi, hj⟩ := @ih (i - d.utf8Size) (by rw [byteLength] at h; omega)
      refine ⟨d :: us, c, vs, j, rfl, ?_, hj⟩
      rw [byteLength]
      omega

end CudaToHip.Text
