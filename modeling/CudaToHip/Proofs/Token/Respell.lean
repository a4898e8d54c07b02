import CudaToHip.Proofs.Token.Order
import CudaToHip.Proofs.Token.Stable

/-!
# Tokens of a respelled text

`Lexer.respell` exchanges the identifiers of a text that a renaming knows. If the renaming takes
names in ASCII to names in ASCII that are no marks of literals, the new text has the same tokens up
to their names (`keepsTokens_respell`): no token is glued to its neighbour and none is divided.
-/

namespace CudaToHip.Lexer

variable {c : Char} {cs ds : List Char} {target? : String → Option String}

/-! ## Respelling a text -/

/-- The text with the identifiers that `target?` names a target for exchanged. -/
def respell (target? : String → Option String) : List Char → List Char
  | [] => []
  | c :: cs =>
    let m := measure none c cs
    let text := c :: cs.take m.further
    let rest := respell target? (cs.drop m.further)
    if m.kind? = some .identifier then
      ((target? (String.ofList text)).map String.toList).getD text ++ rest
    else text ++ rest
termination_by cs => cs.length
decreasing_by simp only [List.length_drop, List.length_cons]; omega

/-- How a token reads when the identifiers that `target?` names a target for are exchanged. -/
def renamedText (target? : String → Option String) (t : Token) : String :=
  if t.kind = .identifier then (target? t.text).getD t.text else t.text

theorem renamedText_identifier (target? : String → Option String) (pos : Nat) (text : String) :
    renamedText target? ⟨.identifier, pos, text⟩ = (target? text).getD text :=
  if_pos rfl

theorem renamedText_other {target? : String → Option String} {t : Token}
    (h : t.kind ≠ .identifier) : renamedText target? t = t.text :=
  if_neg h

/-- The words that introduce a literal in front of a quote. -/
def literalMarks : List String := ["L", "u", "U", "u8", "R", "LR", "uR", "UR", "u8R"]

theorem mem_literalMarks_iff {word : String} :
    word ∈ literalMarks ↔ word.toList ∈ encodings ++ rawMarks := by
  rw [show encodings ++ rawMarks = literalMarks.map String.toList by decide, List.mem_map]
  constructor
  · exact fun h => ⟨word, h, rfl⟩
  · rintro ⟨mark, h, heq⟩
    rwa [← String.toList_inj.mp heq]

/-- Names in ASCII are exchanged for names in ASCII that introduce no literals. -/
def PlainRenaming (target? : String → Option String) : Prop :=
  ∀ name target, target? name = some target → isPlainName name.toList = true ∧
    isPlainName target.toList = true ∧ target ∉ literalMarks

theorem Respelled.rename {word word' : List Char} (hword : isPlainName word = true)
    (hword' : isPlainName word' = true) (h : Respelled cs ds) :
    Respelled (word ++ cs) (word' ++ ds) := by
  cases word with
  | nil => cases hword
  | cons a word =>
    cases word' with
    | nil => cases hword'
    | cons b word' => exact .renamed hword hword' h

theorem respelled_respell (h : PlainRenaming target?) (cs : List Char) :
    Respelled cs (respell target? cs) := by
  fun_induction respell target? cs with
  | case1 => exact .nil
  | case2 c cs m text rest hkind ih =>
    have hcs : c :: cs = text ++ cs.drop m.further := by
      rw [List.cons_append, List.take_append_drop]
    rw [hcs]
    cases htarget : target? (String.ofList text) with
    | none => exact ih.append_left text
    | some target =>
      obtain ⟨hname, hplain, -⟩ := h _ _ htarget
      rw [String.toList_ofList] at hname
      exact .rename hname hplain ih
  | case3 c cs m text rest hkind ih =>
    have hcs : c :: cs = text ++ cs.drop m.further := by
      rw [List.cons_append, List.take_append_drop]
    rw [hcs]
    exact ih.append_left text

theorem Respelled.take_drop {n : Nat} (h : Respelled (cs.drop n) ds) :
    (cs.take n ++ ds).take n = cs.take n ∧ (cs.take n ++ ds).drop n = ds := by
  by_cases hn : n ≤ cs.length
  · have hlen : n = (cs.take n).length := (List.length_take_of_le hn).symm
    exact ⟨List.take_left' hlen.symm, List.drop_left' hlen.symm⟩
  · rw [List.drop_of_length_le (by omega)] at h
    rw [h.eq_nil, List.append_nil, List.take_take, Nat.min_self]
    exact ⟨rfl, List.drop_of_length_le (by rw [List.length_take]; omega)⟩

/-- What is read first stays when the text behind it is respelled. -/
theorem tokens_respelled {m : Measure} (hm : measure none c cs = m)
    (h : Respelled (cs.drop m.further) ds) (pos : Nat) :
    tokens none pos (c :: cs.take m.further ++ ds) =
      (m.kind?.map (⟨·, pos, String.ofList (c :: cs.take m.further)⟩)).toList ++
        tokens none (pos + Text.byteLength (c :: cs.take m.further)) ds := by
  subst hm
  rw [List.cons_append, tokens_cons (measure_respelled h), h.take_drop.1, h.take_drop.2]

/-- A name that is no mark of literals stays a token of its own in front of any respelling. -/
theorem tokens_plainName {word : List Char} (hname : isPlainName word = true)
    (hmark : word ∉ encodings ++ rawMarks) (hds : ds.head?.any continuesName = false) (pos : Nat) :
    tokens none pos (word ++ ds) = ⟨.identifier, pos, String.ofList word⟩ ::
      tokens none (pos + Text.byteLength word) ds := by
  cases word with
  | nil => cases hname
  | cons c tail =>
    rw [List.cons_append, tokens_cons (measure_plainName hname hmark hds)]
    simp only [List.take_left, List.drop_left]
    rfl

/-! ## Tokens that are kept -/

/-- The second text has the tokens of the first one, the identifiers with a target read as the
target and all others as before. -/
def KeepsTokens (target? : String → Option String) (cs ds : List Char) : Prop :=
  ∀ pos pos' : Nat, (tokens none pos' ds).map (fun t => (t.kind, t.text)) =
    (tokens none pos cs).map fun t => (t.kind, renamedText target? t)

namespace KeepsTokens

variable {m : Measure}

/-- What is read first stays if it is no token, or one that reads as before. -/
theorem kept (hm : measure none c cs = m) (hrest : Respelled (cs.drop m.further) ds)
    (hread : ∀ kind pos, m.kind? = some kind →
      renamedText target? ⟨kind, pos, String.ofList (c :: cs.take m.further)⟩ =
        String.ofList (c :: cs.take m.further))
    (h : KeepsTokens target? (cs.drop m.further) ds) :
    KeepsTokens target? (c :: cs) (c :: cs.take m.further ++ ds) := by
  intro pos pos'
  rw [tokens_cons hm, tokens_respelled hm hrest, List.map_append, List.map_append, h]
  congr 1
  cases hkind : m.kind? with
  | none => rfl
  | some kind =>
    simp only [Option.map_some, Option.toList_some, List.map_singleton]
    rw [hread kind pos hkind]

/-- An identifier is exchanged for its target, which is an identifier where it stands. -/
theorem renamed {target : String} (hm : measure none c cs = m) (hkind : m.kind? = some .identifier)
    (hrest : Respelled (cs.drop m.further) ds) (hname : isPlainName target.toList = true)
    (hmark : target ∉ literalMarks)
    (htarget : target? (String.ofList (c :: cs.take m.further)) = some target)
    (h : KeepsTokens target? (cs.drop m.further) ds) :
    KeepsTokens target? (c :: cs) (target.toList ++ ds) := by
  intro pos pos'
  have hwords : target.toList ∉ encodings ++ rawMarks :=
    fun hmem => hmark (mem_literalMarks_iff.mpr hmem)
  have hbehind : ds.head?.any continuesName = false := by
    subst hm
    obtain ⟨tail, after, hcs, hafter, hfurther⟩ := exists_of_identifier hkind
    refine hrest.any_continuesName ?_
    rw [hfurther, hcs, List.drop_left]
    exact hafter
  rw [tokens_cons hm, tokens_plainName hname hwords hbehind, List.map_cons, List.map_append, h,
    hkind, String.ofList_toList]
  simp only [Option.map_some, Option.toList_some, List.map_singleton, List.singleton_append]
  rw [renamedText_identifier, htarget, Option.getD_some]

end KeepsTokens

/-- **Renaming keeps the tokens.** -/
theorem keepsTokens_respell (h : PlainRenaming target?) (cs : List Char) :
    KeepsTokens target? cs (respell target? cs) := by
  fun_induction respell target? cs with
  | case1 =>
    intro pos pos'
    simp [tokens]
  | case2 c cs m text rest hkind ih =>
    have hrest : Respelled (cs.drop m.further) rest := respelled_respell h _
    cases htarget : target? (String.ofList text) with
    | none =>
      refine .kept rfl hrest (fun kind pos hk => ?_) ih
      obtain rfl := Option.some.inj (hkind.symm.trans hk)
      rw [renamedText_identifier, htarget, Option.getD_none]
    | some target =>
      obtain ⟨-, hname, hmark⟩ := h _ _ htarget
      exact .renamed rfl hkind hrest hname hmark htarget ih
  | case3 c cs m text rest hkind ih =>
    exact .kept rfl (respelled_respell h _)
      (fun kind pos hk => renamedText_other fun hid => hkind (hk.trans (congrArg some hid))) ih

end CudaToHip.Lexer
