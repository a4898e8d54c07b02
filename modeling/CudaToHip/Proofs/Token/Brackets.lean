import CudaToHip.Proofs.Scan.ConfigTokens
import Mathlib.Order.Bounds.Basic
import Mathlib.Order.WellFounded
import Mathlib.Tactic.SplitIfs

/-!
# Closing brackets

A bracket is closed where, counted from it on, as many brackets of its kind are closed as are opened
for the first time (`Token.ClosedAt`). Brackets of other kinds do not count, and what is written in
a literal is no bracket at all.

The bracket to look for is taken from the text of a token, while counting looks at punctuators only.
In the tokens of a text this is the same (`Token.plainlySpelled_tokens`): so the counter stands at
one behind the first token, and never falls below that before the search ends.

* `Token.countToClose_eq_some_iff`: counting finds where brackets balance first.
* `Token.scanToClose?_eq`: a counter that cannot go below zero never has to.
* `Token.closing?_exactly`: which bracket of a text is closed, and where.
* `BlankedSite.ofQualifier_launchBounds`: launch bounds take their arguments along up to there.
-/

namespace CudaToHip

/-- The least member of a set of numbers from `i` on, by what is left of them. -/
theorem isLeast_add_iff {S T : Set Nat} {i j : Nat} (hfrom : ∀ k ∈ S, i ≤ k)
    (hadd : ∀ n, n + i ∈ S ↔ n ∈ T) : IsLeast S j ↔ ∃ n, IsLeast T n ∧ n + i = j := by
  constructor
  · rintro ⟨hj, hleast⟩
    obtain ⟨n, rfl⟩ := Nat.exists_eq_add_of_le' (hfrom j hj)
    exact ⟨n, ⟨(hadd n).mp hj, fun m hm => Nat.le_of_add_le_add_right (hleast ((hadd m).mpr hm))⟩,
      rfl⟩
  · rintro ⟨n, ⟨hn, hleast⟩, rfl⟩
    refine ⟨(hadd n).mpr hn, fun k hk => ?_⟩
    obtain ⟨m, rfl⟩ := Nat.exists_eq_add_of_le' (hfrom k hk)
    exact Nat.add_le_add_right (hleast ((hadd m).mp hk)) i

namespace Lexer

variable {after : Option Char} {pos : Nat} {c : Char} {cs : List Char} {t : Token}

/-- A token is of the kind that its first character begins. -/
theorem exists_measure_of_mem_tokens (h : t ∈ tokens after pos cs) :
    ∃ c us vs, t.text.toList = c :: us ∧ (measure after c vs).kind? = some t.kind := by
  fun_induction tokens after pos cs with
  | case1 => cases h
  | case2 pos c cs m text rest kind hkind ih =>
    rcases List.mem_cons.mp h with rfl | h
    · exact ⟨c, _, cs, String.toList_ofList, hkind⟩
    · exact ih h
  | case3 pos c cs m text rest hkind ih => exact ih h

theorem kind?_measure_bracket (hc : c ∈ ['(', '[', '\x7b']) (after : Option Char)
    (cs : List Char) : (measure after c cs).kind? = some .punct := by
  simp only [List.mem_cons, List.not_mem_nil, or_false] at hc
  rcases hc with rfl | rfl | rfl <;> simp [measure, isBlank, startsName]

end Lexer

namespace Token

/-! ## Brackets -/

/-- A kind of bracket: what opens one, and what closes it. -/
structure Bracket where
  opening : String
  closing : String

/-- The kinds of brackets that are counted. -/
def brackets : List Bracket := [⟨"(", ")"⟩, ⟨"[", "]"⟩, ⟨"\x7b", "\x7d"⟩]

variable {b : Bracket} {depth depth' index i j n : Nat} {t : Token} {ts : List Token}

theorem closer?_eq_some_iff {opening closing : String} :
    closer? opening = some closing ↔ ⟨opening, closing⟩ ∈ brackets := by
  unfold closer?
  split_ifs with h₁ h₂ h₃ <;> simp_all [brackets, eq_comm]

/-- Among the tokens only punctuators are spelled like an opening bracket. -/
def PlainlySpelled (ts : List Token) : Prop :=
  ∀ t ∈ ts, ∀ b ∈ brackets, t.text = b.opening → t.isPunct b.opening = true

/-- **So it is in every text**, and in every part of one. -/
theorem plainlySpelled_tokens (after : Option Char) (pos : Nat) (cs : List Char) :
    PlainlySpelled (Lexer.tokens after pos cs) := by
  intro t ht b hb htext
  obtain ⟨c, us, vs, hspell, hkind⟩ := Lexer.exists_measure_of_mem_tokens ht
  have hall : ∀ b ∈ brackets, b.opening.toList.head? ∈ ['(', '[', '\x7b'].map some := by decide
  have hc : c ∈ ['(', '[', '\x7b'] := by simpa [← htext, hspell] using hall b hb
  rw [Lexer.kind?_measure_bracket hc] at hkind
  simp [isPunct, htext, ← Option.some.inj hkind]

theorem text_of_isPunct {punct : String} (h : t.isPunct punct = true) : t.text = punct :=
  of_decide_eq_true (Bool.and_eq_true_iff.mp h).2

/-- No token both opens and closes a bracket. -/
theorem not_isPunct_closing (hb : b ∈ brackets) (h : t.isPunct b.opening = true) :
    t.isPunct b.closing = false := by
  have hall : ∀ b ∈ brackets, b.opening ≠ b.closing := by decide
  rw [← Bool.not_eq_true]
  exact fun hclose => hall b hb ((text_of_isPunct h).symm.trans (text_of_isPunct hclose))

/-! ## Where brackets balance -/

/-- How many of the tokens are the given punctuator. -/
def countPunct (punct : String) (ts : List Token) : Nat := ts.countP (·.isPunct punct)

theorem countPunct_cons (punct : String) (t : Token) (ts : List Token) :
    countPunct punct (t :: ts) = countPunct punct [t] + countPunct punct ts := by
  show countPunct punct ([t] ++ ts) = _
  exact List.countP_append

/-- The indices up to which as many brackets are closed as are opened, or were open in front. -/
def balances (b : Bracket) (depth : Nat) (ts : List Token) : Set Nat :=
  {n | n < ts.length ∧
    countPunct b.closing (ts.take (n + 1)) = depth + countPunct b.opening (ts.take (n + 1))}

/-- With `depth` brackets open in front of the token, `depth'` are open behind it. -/
def Leaves (b : Bracket) (depth : Nat) (t : Token) (depth' : Nat) : Prop :=
  depth' + countPunct b.closing [t] = depth + countPunct b.opening [t]

/-- The tokens behind a token balance what it leaves. -/
theorem mem_balances_cons (hstep : Leaves b depth t depth') :
    n + 1 ∈ balances b depth (t :: ts) ↔ n ∈ balances b depth' ts := by
  unfold Leaves at hstep
  show _ ∧ _ ↔ _ ∧ _
  rw [List.take_succ_cons, countPunct_cons b.closing, countPunct_cons b.opening, List.length_cons]
  omega

/-- Where a token leaves brackets open, they balance behind it. -/
theorem isLeast_balances_cons (hstep : Leaves b depth t depth') (hopen : 0 < depth') :
    IsLeast (balances b depth (t :: ts)) n ↔
      ∃ m, IsLeast (balances b depth' ts) m ∧ m + 1 = n := by
  refine isLeast_add_iff ?_ fun m => mem_balances_cons hstep
  rintro (_ | k) ⟨-, hzero⟩
  · unfold Leaves at hstep
    rw [List.take_succ_cons, List.take_zero] at hzero
    omega
  · exact Nat.succ_pos k

/-- A token that leaves no bracket open balances them. -/
theorem isLeast_balances_zero (hstep : Leaves b depth t 0) :
    IsLeast (balances b depth (t :: ts)) n ↔ n = 0 := by
  have hzero : IsLeast (balances b depth (t :: ts)) 0 :=
    ⟨⟨Nat.succ_pos _, (Nat.zero_add _).symm.trans hstep⟩, fun k _ => Nat.zero_le k⟩
  exact ⟨fun h => h.unique hzero, fun h => h ▸ hzero⟩

/-- Some brackets are open in front of the tokens, or the first one opens one. -/
def Entered (b : Bracket) (depth : Nat) (ts : List Token) : Prop :=
  0 < depth ∨ ts.head?.any (·.isPunct b.opening) = true

/-- The first token closes no bracket that was not opened. -/
theorem Entered.exists_leaves (hb : b ∈ brackets) (h : Entered b depth (t :: ts)) :
    ∃ depth', Leaves b depth t depth' := by
  have hle : countPunct b.closing [t] ≤ depth + countPunct b.opening [t] := by
    rcases h with h | h
    · have hone : countPunct b.closing [t] ≤ 1 := List.countP_le_length
      omega
    · have hnone : countPunct b.closing [t] = 0 := by
        simp [countPunct, not_isPunct_closing hb h]
      omega
  exact ⟨_, Nat.sub_add_cancel hle⟩

/-- **As long as brackets do not balance, more are opened than closed.** -/
theorem countPunct_lt_of_not_balances (hb : b ∈ brackets) (h : Entered b depth ts)
    (hn : n < ts.length) (hnone : ∀ m ≤ n, m ∉ balances b depth ts) :
    countPunct b.closing (ts.take (n + 1)) < depth + countPunct b.opening (ts.take (n + 1)) := by
  induction ts generalizing depth n with
  | nil => cases hn
  | cons t ts ih =>
    obtain ⟨depth', hstep⟩ := h.exists_leaves hb
    have hopen : 0 < depth' := by
      refine Nat.pos_of_ne_zero fun hzero => hnone 0 (Nat.zero_le n) ?_
      exact ((isLeast_balances_zero (hzero ▸ hstep)).mpr rfl).1
    cases n with
    | zero =>
      unfold Leaves at hstep
      rw [List.take_succ_cons, List.take_zero]
      omega
    | succ n =>
      have hrest := ih (Or.inl hopen) (Nat.lt_of_succ_lt_succ hn) fun m hm hmem =>
        hnone (m + 1) (Nat.succ_le_succ hm) ((mem_balances_cons hstep).mpr hmem)
      unfold Leaves at hstep
      rw [List.take_succ_cons, countPunct_cons b.closing, countPunct_cons b.opening]
      omega

/-- **Counting finds where brackets balance first.** -/
theorem countToClose_eq_some_iff (hb : b ∈ brackets) (h : Entered b depth ts) :
    countToClose b.opening b.closing depth ts = some n ↔ IsLeast (balances b depth ts) n := by
  induction ts generalizing depth n with
  | nil =>
    constructor
    · intro h
      cases h
    · rintro ⟨⟨hlt, -⟩, -⟩
      cases hlt
  | cons t ts ih =>
    -- counting goes on behind a token that leaves brackets open
    have goOn {depth' : Nat} (hstep : Leaves b depth t depth') (hopen : 0 < depth') :
        (countToClose b.opening b.closing depth' ts).map (· + 1) = some n ↔
          IsLeast (balances b depth (t :: ts)) n := by
      rw [isLeast_balances_cons hstep hopen, Option.map_eq_some_iff]
      simp only [ih (Or.inl hopen)]
    rw [countToClose]
    split_ifs with hopen hclose hdepth
    · have hclose := not_isPunct_closing hb hopen
      exact goOn (by simp [Leaves, countPunct, hopen, hclose]) (Nat.succ_pos depth)
    · have hlast : 1 = depth := Nat.le_antisymm (h.resolve_right hopen) hdepth
      rw [isLeast_balances_zero (by simpa [Leaves, countPunct, hopen, hclose] using hlast),
        Option.some_inj, eq_comm]
    · have hless : depth - 1 + 1 = depth := by omega
      exact goOn (by simpa [Leaves, countPunct, hopen, hclose] using hless) (by omega)
    · exact goOn (by simp [Leaves, countPunct, hopen, hclose]) (h.resolve_right hopen)

/-! ## Counting in a loop -/

/-- The loop over the tokens from an index on. The outer `none` is a failure to count down from
zero, and `some none` says that the bracket is not closed. -/
def scanToClose? (b : Bracket) (depth index : Nat) : List Token → Option (Option Nat)
  | [] => some none
  | t :: ts =>
    if t.isPunct b.opening then scanToClose? b (depth + 1) (index + 1) ts
    else if t.isPunct b.closing then
      if depth = 0 then none
      else if depth - 1 = 0 then some (some index)
      else scanToClose? b (depth - 1) (index + 1) ts
    else scanToClose? b depth (index + 1) ts

/-- The token that closes the bracket at an index, found by the loop. -/
def scanClosing? (ts : List Token) (i : Nat) : Option (Option Nat) :=
  match ts[i]? with
  | none => some none
  | some first =>
    match closer? first.text with
    | none => some none
    | some closing => scanToClose? ⟨first.text, closing⟩ 0 i (ts.drop i)

/-- **The loop never fails**: it counts down only inside of brackets. -/
theorem scanToClose?_eq (h : Entered b depth ts) :
    scanToClose? b depth index ts =
      some ((countToClose b.opening b.closing depth ts).map (index + ·)) := by
  induction ts generalizing depth index with
  | nil => rfl
  | cons t ts ih =>
    have goOn {depth' : Nat} (hopen : 0 < depth') : scanToClose? b depth' (index + 1) ts =
        some (((countToClose b.opening b.closing depth' ts).map (· + 1)).map (index + ·)) := by
      have hindex : (index + ·) ∘ (· + 1) = (index + 1 + ·) := funext fun n => by
        simp only [Function.comp_apply, Nat.add_assoc, Nat.add_comm 1]
      rw [ih (Or.inl hopen), Option.map_map, hindex]
    rw [scanToClose?, countToClose]
    by_cases hopen : t.isPunct b.opening = true
    · rw [if_pos hopen, if_pos hopen]
      exact goOn (Nat.succ_pos depth)
    · have hdepth : 0 < depth := h.resolve_right hopen
      rw [if_neg hopen, if_neg hopen, if_neg (Nat.ne_of_gt hdepth)]
      by_cases hclose : t.isPunct b.closing = true
      · rw [if_pos hclose, if_pos hclose]
        by_cases hlast : depth ≤ 1
        · rw [if_pos (Nat.sub_eq_zero_of_le hlast), if_pos hlast]
          rfl
        · rw [if_neg (Nat.sub_ne_zero_of_lt (Nat.lt_of_not_le hlast)), if_neg hlast]
          exact goOn (Nat.sub_pos_of_lt (Nat.lt_of_not_le hlast))
      · rw [if_neg hclose, if_neg hclose]
        exact goOn hdepth

/-! ## The bracket that closes another one -/

/-- The bracket at index `i` is closed at index `j`: the token at `i` opens a bracket of some kind,
and `j` is the first index from there on up to which as many brackets of that kind are closed as are
opened. -/
def ClosedAt (ts : List Token) (i j : Nat) : Prop :=
  ∃ b ∈ brackets, (∃ t, ts[i]? = some t ∧ t.isPunct b.opening = true) ∧
    IsLeast {k | i ≤ k ∧ k < ts.length ∧
      countPunct b.closing (tokensFromTo ts i k) = countPunct b.opening (tokensFromTo ts i k)} j

theorem tokensFromTo_add (ts : List Token) (i n : Nat) :
    tokensFromTo ts i (n + i) = (ts.drop i).take (n + 1) := by
  rw [tokensFromTo, List.drop_take, Nat.add_right_comm, Nat.add_sub_cancel]

/-- Counted from an index on, brackets balance where those behind it do. -/
theorem isLeast_balances_drop :
    IsLeast {k | i ≤ k ∧ k < ts.length ∧
      countPunct b.closing (tokensFromTo ts i k) = countPunct b.opening (tokensFromTo ts i k)} j ↔
      ∃ n, IsLeast (balances b 0 (ts.drop i)) n ∧ n + i = j := by
  refine isLeast_add_iff (fun k hk => hk.1) fun n => ?_
  show _ ∧ _ ∧ _ ↔ _ ∧ _
  rw [tokensFromTo_add, List.length_drop, Nat.zero_add]
  omega

theorem entered_drop (h : ts[i]? = some t) (hopen : t.isPunct b.opening = true) :
    Entered b depth (ts.drop i) := by
  refine Or.inr ?_
  rw [List.head?_drop, h]
  exact hopen

/-- What is found at a token that is spelled like an opening bracket. -/
theorem closing?_of_text_eq (hb : b ∈ brackets) (h : ts[i]? = some t) (htext : t.text = b.opening) :
    closing? ts i = (countToClose b.opening b.closing 0 (ts.drop i)).map (i + ·) := by
  have hcloser : closer? b.opening = some b.closing := closer?_eq_some_iff.mpr hb
  rw [closing?, h]
  simp only [htext, hcloser, Option.bind_eq_bind, Option.bind_some]
  exact Option.map_eq_bind.symm

theorem closing?_eq_some_iff : closing? ts i = some j ↔
    ∃ b ∈ brackets, (∃ t, ts[i]? = some t ∧ t.text = b.opening) ∧
      ∃ n, countToClose b.opening b.closing 0 (ts.drop i) = some n ∧ n + i = j := by
  constructor
  · intro h
    obtain ⟨t, ht, h⟩ := Option.bind_eq_some_iff.mp h
    obtain ⟨closing, hcloser, h⟩ := Option.bind_eq_some_iff.mp h
    obtain ⟨n, hn, h⟩ := Option.bind_eq_some_iff.mp h
    exact ⟨_, closer?_eq_some_iff.mp hcloser, ⟨t, ht, rfl⟩, n, hn,
      (Nat.add_comm n i).trans (Option.some.inj h)⟩
  · rintro ⟨b, hb, ⟨t, ht, htext⟩, n, hn, rfl⟩
    rw [closing?_of_text_eq hb ht htext, hn, Option.map_some, Nat.add_comm]

/-- **The index that is found** is that of the token at which the bracket is closed. -/
theorem closing?_eq_some_iff_closedAt (h : PlainlySpelled ts) :
    closing? ts i = some j ↔ ClosedAt ts i j := by
  rw [closing?_eq_some_iff, ClosedAt]
  refine exists_congr fun b => and_congr_right fun hb => ?_
  have hopens : (∃ t, ts[i]? = some t ∧ t.text = b.opening) ↔
      ∃ t, ts[i]? = some t ∧ t.isPunct b.opening = true :=
    exists_congr fun t => and_congr_right fun ht =>
      ⟨h t (List.mem_of_getElem? ht) b hb, text_of_isPunct⟩
  rw [hopens]
  refine and_congr_right fun ⟨t, ht, hopen⟩ => ?_
  rw [isLeast_balances_drop]
  simp only [countToClose_eq_some_iff hb (entered_drop ht hopen)]

/-- The loop finds the same index. -/
theorem scanClosing?_eq (h : PlainlySpelled ts) (i : Nat) :
    scanClosing? ts i = some (closing? ts i) := by
  unfold scanClosing?
  cases ht : ts[i]? with
  | none => simp [closing?, ht]
  | some t =>
    dsimp only
    cases hcloser : closer? t.text with
    | none => simp [closing?, ht, hcloser]
    | some closing =>
      have hb := closer?_eq_some_iff.mp hcloser
      have hopen := h t (List.mem_of_getElem? ht) _ hb rfl
      rw [closing?_of_text_eq hb ht rfl]
      exact scanToClose?_eq (entered_drop ht hopen)

/-- As long as a bracket is not closed, more of its kind are opened than closed. -/
theorem countPunct_lt_of_not_closedAt {k : Nat} (hb : b ∈ brackets) (ht : ts[i]? = some t)
    (hopen : t.isPunct b.opening = true) (hle : i ≤ k) (hk : k < ts.length)
    (hnone : ∀ j ≤ k, ¬ ClosedAt ts i j) :
    countPunct b.closing (tokensFromTo ts i k) < countPunct b.opening (tokensFromTo ts i k) := by
  obtain ⟨n, rfl⟩ := Nat.exists_eq_add_of_le' hle
  have hlen : n < (ts.drop i).length := by
    rw [List.length_drop]
    omega
  rw [tokensFromTo_add, ← Nat.zero_add (countPunct b.opening _)]
  refine countPunct_lt_of_not_balances hb (entered_drop ht hopen) hlen fun m hm hmem => ?_
  -- where they balanced, they would do so for the first time there or before
  obtain ⟨l, hl, hmin⟩ := wellFounded_lt.has_min (balances b 0 (ts.drop i)) ⟨m, hmem⟩
  have hleast : IsLeast (balances b 0 (ts.drop i)) l :=
    ⟨hl, fun k hk => Nat.le_of_not_lt (hmin k hk)⟩
  exact hnone _ (Nat.add_le_add_right ((hleast.2 hmem).trans hm) i)
    ⟨b, hb, ⟨t, ht, hopen⟩, isLeast_balances_drop.mpr ⟨l, hleast, rfl⟩⟩

/-- **Which bracket of a text is closed, and where.** For every text and every index into its
tokens: the index that is found is that of the token at which the bracket is closed. If the index
is not that of an opening bracket, or if the bracket is not closed, none is found. The loop that
counts open brackets finds the same, and its counter never has to go below zero: as long as the
bracket is not closed, more of its kind are opened than closed. -/
theorem closing?_exactly (source : String) (opening : Nat) :
    (∀ close, closing? (tokenize source) opening = some close ↔
      ClosedAt (tokenize source) opening close) ∧
    (closing? (tokenize source) opening = none ↔
      ¬ ∃ close, ClosedAt (tokenize source) opening close) ∧
    scanClosing? (tokenize source) opening = some (closing? (tokenize source) opening) ∧
    ∀ b ∈ brackets, ∀ t, (tokenize source)[opening]? = some t → t.isPunct b.opening = true →
      ∀ k, opening ≤ k → k < (tokenize source).length →
        (∀ close ≤ k, ¬ ClosedAt (tokenize source) opening close) →
        countPunct b.closing (tokensFromTo (tokenize source) opening k) <
          countPunct b.opening (tokensFromTo (tokenize source) opening k) := by
  have hspelled : PlainlySpelled (tokenize source) := plainlySpelled_tokens none 0 source.toList
  have hiff (close : Nat) : closing? (tokenize source) opening = some close ↔
      ClosedAt (tokenize source) opening close :=
    closing?_eq_some_iff_closedAt hspelled
  refine ⟨hiff, ?_, scanClosing?_eq hspelled opening, ?_⟩
  · simp only [← hiff, Option.eq_none_iff_forall_ne_some, not_exists, ne_eq]
  · exact fun b hb t ht hopen k => countPunct_lt_of_not_closedAt hb ht hopen

/-- Only brackets of the kind are counted, and none in literals. -/
example : let ts := tokenize "f((a[i), ')') + g"
    closing? ts 1 = some 9 ∧ closing? ts 4 = none ∧ closing? ts 0 = none := by decide +kernel

/-- Tokens that no text has could make the counter fall below zero. -/
example : scanClosing? [⟨.identifier, 0, "("⟩, ⟨.punct, 1, ")"⟩] 0 = none := by decide

end Token

/-! ## Launch bounds -/

/-- **Launch bounds take their arguments along**, up to the bracket that closes them. -/
theorem BlankedSite.ofQualifier_launchBounds {ts rest : List Token} {t : Token} {i close : Nat}
    (hts : ts.drop i = t :: rest) (hopen : rest.head?.any (·.isPunct "(") = true)
    (hclose : Token.closing? ts (i + 1) = some close) :
    ∃ last, ts[close]? = some last ∧ ofQualifier .launchBounds t rest =
      (.qualifier ⟨.launchBounds, ⟨t.start, last.span.stop⟩⟩, close - i) := by
  have hrest : ts.drop (i + 1) = rest := by
    rw [← List.tail_drop, hts, List.tail_cons]
  obtain ⟨first, hfirst, hpunct⟩ : ∃ first, ts[i + 1]? = some first ∧ first.isPunct "(" = true := by
    rw [← hrest, List.head?_drop] at hopen
    exact (Option.any_eq_true _ _).mp hopen
  have hb : ⟨"(", ")"⟩ ∈ Token.brackets := List.mem_cons_self
  rw [Token.closing?_of_text_eq hb hfirst (Token.text_of_isPunct hpunct), hrest] at hclose
  obtain ⟨n, hn, rfl⟩ := Option.map_eq_some_iff.mp hclose
  have hlen : n < rest.length := ((Token.countToClose_eq_some_iff hb (Or.inr hopen)).mp hn).1.1
  have hlast : rest[n]? = some rest[n] := List.getElem?_eq_getElem hlen
  refine ⟨rest[n], by rw [← List.getElem?_drop, hrest, hlast], ?_⟩
  have hcount : i + 1 + n - i = n + 1 := by omega
  simp only [ofQualifier, hopen, hn, hlast, hcount, and_self, if_true]

end CudaToHip
