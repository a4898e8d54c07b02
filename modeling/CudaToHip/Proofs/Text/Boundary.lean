import CudaToHip.Text.Offset

/-!
# Character boundaries

A byte offset is a boundary of a text if the text divides there (`IsBoundary`). Slices exist exactly
between boundaries in order (`slice?_isSome_iff`), and neighbouring slices join (`slice?_join`). Of
a text that is divided in two, a slice of either part is a slice of the whole
(`slice?_append_left`, `slice?_append_right`).
-/

namespace CudaToHip.Text

variable {s t u v : String} {a b c n : Nat}

/-- The text divides at byte `n`. -/
def IsBoundary (s : String) (n : Nat) : Prop := ∃ u v, s = u ++ v ∧ n = u.utf8ByteSize

theorem isBoundary_iff_isValid : IsBoundary s n ↔ String.Pos.Raw.IsValid s ⟨n⟩ := by
  rw [String.Pos.Raw.isValid_iff_exists_append]
  constructor
  · rintro ⟨u, v, rfl, rfl⟩
    exact ⟨u, v, rfl, rfl⟩
  · rintro ⟨u, v, rfl, h⟩
    exact ⟨u, v, rfl, congrArg String.Pos.Raw.byteIdx h⟩

theorem isBoundary_zero (s : String) : IsBoundary s 0 := ⟨"", s, by simp, by simp⟩

theorem isBoundary_utf8ByteSize (s : String) : IsBoundary s s.utf8ByteSize :=
  ⟨s, "", by simp, rfl⟩

theorem IsBoundary.le (h : IsBoundary s n) : n ≤ s.utf8ByteSize := by
  obtain ⟨u, v, rfl, rfl⟩ := h
  rw [String.utf8ByteSize_append]
  exact Nat.le_add_right _ _

/-- Slices exist between boundaries in order. -/
theorem slice?_isSome_iff :
    (slice? s a b).isSome = true ↔ a ≤ b ∧ IsBoundary s a ∧ IsBoundary s b := by
  unfold slice?
  simp only [isBoundary_iff_isValid]
  split
  · rename_i h
    simp [h]
  · rename_i h
    simp [h]

theorem between_of_slice? (h : slice? s a b = some t) : between s a b = t := by
  rw [between, h, Option.getD_some]

/-- A slice within the bounds is the text between them. -/
theorem slice?_eq_between (hab : a ≤ b) (ha : IsBoundary s a) (hb : IsBoundary s b) :
    slice? s a b = some (between s a b) := by
  obtain ⟨t, ht⟩ := Option.isSome_iff_exists.mp (slice?_isSome_iff.mpr ⟨hab, ha, hb⟩)
  rw [ht, between_of_slice? ht]

theorem slice?_self (h : IsBoundary s a) : slice? s a a = some "" := by
  obtain ⟨u, v, rfl, rfl⟩ := h
  exact slice?_eq_some_iff.mpr ⟨u, v, by rw [String.append_empty], rfl, rfl⟩

theorem utf8ByteSize_of_slice? (h : slice? s a b = some t) : b = a + t.utf8ByteSize := by
  obtain ⟨u, v, -, -, hb⟩ := slice?_eq_some_iff.mp h
  exact hb

/-- Texts that are equal divide equally at one offset. -/
theorem append_inj_of_utf8ByteSize {u' v' : String} (h : u ++ v = u' ++ v')
    (hs : u.utf8ByteSize = u'.utf8ByteSize) : u = u' ∧ v = v' := by
  have hu : slice? (u ++ v) 0 u.utf8ByteSize = some u :=
    slice?_eq_some_iff.mpr ⟨"", v, by simp, by simp, by simp⟩
  have hu' : slice? (u ++ v) 0 u.utf8ByteSize = some u' :=
    slice?_eq_some_iff.mpr ⟨"", v', by simp [h], by simp, by simp [hs]⟩
  obtain rfl := Option.some.inj (hu.symm.trans hu')
  have hv : slice? (u ++ v) u.utf8ByteSize (u.utf8ByteSize + v.utf8ByteSize) = some v :=
    slice?_eq_some_iff.mpr ⟨u, "", by simp, rfl, rfl⟩
  have hsize : v.utf8ByteSize = v'.utf8ByteSize := by
    have := congrArg String.utf8ByteSize h
    rw [String.utf8ByteSize_append, String.utf8ByteSize_append] at this
    omega
  have hv' : slice? (u ++ v) u.utf8ByteSize (u.utf8ByteSize + v.utf8ByteSize) = some v' :=
    slice?_eq_some_iff.mpr ⟨u, "", by simp [h], rfl, by rw [hsize]⟩
  exact ⟨rfl, Option.some.inj (hv.symm.trans hv')⟩

/-- Neighbouring slices join. -/
theorem slice?_join (hab : slice? s a b = some t) (hbc : slice? s b c = some u) :
    slice? s a c = some (t ++ u) := by
  obtain ⟨x, y, hs, rfl, rfl⟩ := slice?_eq_some_iff.mp hab
  obtain ⟨x', y', hs', hb, rfl⟩ := slice?_eq_some_iff.mp hbc
  have hdiv : (x ++ t) ++ y = x' ++ (u ++ y') := by
    rw [← hs, hs', String.append_assoc]
  obtain ⟨-, rfl⟩ := append_inj_of_utf8ByteSize hdiv (by rw [String.utf8ByteSize_append, hb])
  refine slice?_eq_some_iff.mpr ⟨x, y', by rw [hs, String.append_assoc, String.append_assoc,
    String.append_assoc], rfl, ?_⟩
  rw [String.utf8ByteSize_append, Nat.add_assoc]

/-! ## Divided texts -/

/-- A boundary of the front part is one of the whole text, and the other way round. -/
theorem isBoundary_append_left (h : n ≤ u.utf8ByteSize) :
    IsBoundary (u ++ v) n ↔ IsBoundary u n := by
  constructor
  · rintro ⟨x, y, hdiv, rfl⟩
    have hlist : u.toList ++ v.toList = x.toList ++ y.toList := by
      rw [← String.toList_append, ← String.toList_append, hdiv]
    rcases List.append_eq_append_iff.mp hlist with ⟨z, hx, -⟩ | ⟨z, hu, -⟩
    · -- the boundary is the end of the front part
      have hx' : x = u ++ String.ofList z := String.toList_inj.mp (by simp [hx])
      rw [hx', String.utf8ByteSize_append] at h ⊢
      have : (String.ofList z).utf8ByteSize = 0 := by omega
      rw [this]
      exact isBoundary_utf8ByteSize u
    · exact ⟨x, String.ofList z, String.toList_inj.mp (by simp [hu]), rfl⟩
  · rintro ⟨x, y, rfl, rfl⟩
    exact ⟨x, y ++ v, String.append_assoc .., rfl⟩

theorem isBoundary_append_right :
    IsBoundary (u ++ v) (u.utf8ByteSize + n) ↔ IsBoundary v n := by
  constructor
  · rintro ⟨x, y, hdiv, hx⟩
    have hlist : u.toList ++ v.toList = x.toList ++ y.toList := by
      rw [← String.toList_append, ← String.toList_append, hdiv]
    rcases List.append_eq_append_iff.mp hlist with ⟨z, hx', hv⟩ | ⟨z, hu, -⟩
    · have hx' : x = u ++ String.ofList z := String.toList_inj.mp (by simp [hx'])
      rw [hx', String.utf8ByteSize_append] at hx
      exact ⟨String.ofList z, y, String.toList_inj.mp (by simp [hv]), by omega⟩
    · have hu' : u = x ++ String.ofList z := String.toList_inj.mp (by simp [hu])
      rw [hu', String.utf8ByteSize_append] at hx
      obtain rfl : n = 0 := by omega
      exact isBoundary_zero v
  · rintro ⟨x, y, rfl, rfl⟩
    exact ⟨u ++ x, y, (String.append_assoc ..).symm, (String.utf8ByteSize_append ..).symm⟩

/-- A slice of the front part. -/
theorem slice?_append_left (h : b ≤ u.utf8ByteSize) : slice? (u ++ v) a b = slice? u a b := by
  refine Option.ext fun t => ⟨fun ht => ?_, fun ht => ?_⟩
  · have hb := (slice?_isSome_iff.mp (Option.isSome_of_eq_some ht)).2.2
    obtain ⟨p, q, rfl, hp⟩ := (isBoundary_append_left h).mp hb
    obtain ⟨x, y, hdiv, rfl, hstop⟩ := slice?_eq_some_iff.mp ht
    obtain ⟨rfl, -⟩ : p = x ++ t ∧ q ++ v = y :=
      append_inj_of_utf8ByteSize (by rw [← String.append_assoc, hdiv])
        (by rw [String.utf8ByteSize_append]; omega)
    exact slice?_eq_some_iff.mpr ⟨x, q, rfl, rfl, hstop⟩
  · obtain ⟨x, y, rfl, hstart, hstop⟩ := slice?_eq_some_iff.mp ht
    exact slice?_eq_some_iff.mpr ⟨x, y ++ v, String.append_assoc .., hstart, hstop⟩

/-- A slice of what stands behind the front part. -/
theorem slice?_append_right :
    slice? (u ++ v) (u.utf8ByteSize + a) (u.utf8ByteSize + b) = slice? v a b := by
  refine Option.ext fun t => ⟨fun ht => ?_, fun ht => ?_⟩
  · have ha := (slice?_isSome_iff.mp (Option.isSome_of_eq_some ht)).2.1
    obtain ⟨p, q, rfl, rfl⟩ := isBoundary_append_right.mp ha
    obtain ⟨x, y, hdiv, hx, hstop⟩ := slice?_eq_some_iff.mp ht
    obtain ⟨-, rfl⟩ : u ++ p = x ∧ q = t ++ y :=
      append_inj_of_utf8ByteSize (by rw [String.append_assoc, hdiv, String.append_assoc])
        (by rw [String.utf8ByteSize_append, hx])
    exact slice?_eq_some_iff.mpr ⟨p, y, (String.append_assoc ..).symm, rfl, by omega⟩
  · obtain ⟨x, y, rfl, rfl, rfl⟩ := slice?_eq_some_iff.mp ht
    refine slice?_eq_some_iff.mpr ⟨u ++ x, y, by simp only [String.append_assoc], ?_, by omega⟩
    rw [String.utf8ByteSize_append]

theorem since_zero (s : String) : since s 0 = s := by
  have hall : slice? s 0 s.utf8ByteSize = some s :=
    slice?_eq_some_iff.mpr ⟨"", "", by simp, by simp, by simp⟩
  rw [since, between, hall, Option.getD_some]

/-! ## Characters in front of an offset -/

theorem byteLength_toList (s : String) : byteLength s.toList = s.utf8ByteSize := by
  have h (cs : List Char) : byteLength cs = (String.ofList cs).utf8ByteSize := by
    induction cs with
    | nil => rfl
    | cons c cs ih =>
      rw [String.ofList_cons, String.utf8ByteSize_append, String.utf8ByteSize_singleton, ← ih]
      rfl
  rw [h, String.ofList_toList]

theorem eq_nil_of_byteLength {cs : List Char} (h : byteLength cs = 0) : cs = [] := by
  cases cs with
  | nil => rfl
  | cons c cs =>
    have hsize := c.utf8Size_pos
    rw [byteLength] at h
    omega

/-- The cut of the characters between two others. -/
theorem slice?_of_toList {us cs vs : List Char} (h : s.toList = us ++ cs ++ vs) :
    slice? s (byteLength us) (byteLength us + byteLength cs) = some (String.ofList cs) := by
  refine slice?_eq_some_iff.mpr ⟨String.ofList us, String.ofList vs, ?_, ?_, ?_⟩
  · rw [← String.toList_inj, h]
    simp
  · rw [← byteLength_toList, String.toList_ofList]
  · rw [← byteLength_toList (String.ofList cs), String.toList_ofList]

theorem slice?_ofList_left (us vs : List Char) :
    slice? (String.ofList (us ++ vs)) 0 (byteLength us) = some (String.ofList us) := by
  have h : (String.ofList (us ++ vs)).toList = [] ++ us ++ vs := String.toList_ofList
  have hcut := slice?_of_toList h
  rwa [byteLength, Nat.zero_add] at hcut

theorem slice?_ofList_right (us vs : List Char) :
    slice? (String.ofList (us ++ vs)) (byteLength us) (String.ofList (us ++ vs)).utf8ByteSize =
      some (String.ofList vs) := by
  have h : (String.ofList (us ++ vs)).toList = us ++ vs ++ [] := by
    rw [String.toList_ofList, List.append_nil]
  rw [← byteLength_toList, String.toList_ofList, byteLength_append]
  exact slice?_of_toList h

theorem takeBytes_byteLength (cs ds : List Char) : takeBytes (byteLength cs) (cs ++ ds) = cs := by
  induction cs with
  | nil => exact takeBytes_zero ds
  | cons c cs ih =>
    have hpos := c.utf8Size_pos
    rw [List.cons_append, byteLength, takeBytes, if_neg (by omega), Nat.add_sub_cancel_left, ih]

theorem dropBytes_byteLength (cs ds : List Char) : dropBytes (byteLength cs) (cs ++ ds) = ds := by
  induction cs with
  | nil => exact dropBytes_zero ds
  | cons c cs ih =>
    have hpos := c.utf8Size_pos
    rw [List.cons_append, byteLength, dropBytes, if_neg (by omega), Nat.add_sub_cancel_left, ih]

end CudaToHip.Text
