import CudaToHip.Proofs.Token.Blanked
import CudaToHip.Proofs.Token.CursorTokens
import CudaToHip.Proofs.Token.Cut
import CudaToHip.Scan.Constructs
import Mathlib.Data.List.Basic

/-!
# Reading a part of a text again

The arguments of a launch configuration are cut out of the token list, recorded as ranges of the
text and read again from there. That finds the tokens of the first reading, because an argument goes
from the start of one token to the end of another (`LaunchConfig.covers_of_read?`), and the lexer
carries nothing from one token to the next (`tokenizeIn_of_covers`).

* `filter_of_covers`: the tokens within such a range are those between its ends.
* `rescan_finds_same_tokens`: so what the scan looks at in an argument are the tokens of the text
  that stand in it.
-/

namespace CudaToHip

open Lexer Text

variable {source : String} {ts : List Token} {range : Span} {i j : Nat}

/-- The range goes from the start of token `i` to the end of token `j`. -/
structure Covers (ts : List Token) (i j : Nat) (range : Span) : Prop where
  le : i ≤ j
  first : ∃ a, ts[i]? = some a ∧ range.start = a.start
  last : ∃ b, ts[j]? = some b ∧ range.stop = b.span.stop

/-- The tokens from number `i` to number `j`. -/
def tokensFromTo (ts : List Token) (i j : Nat) : List Token := (ts.take (j + 1)).drop i

/-- Reading a part of the text again gives the tokens it has in the whole text: between any two
tokens, and in the arguments of launches, where the scan looks at them. -/
structure Rescans (source : String) : Prop where
  between : ∀ i j range, Covers (tokenize source) i j range →
    tokenizeIn source range = tokensFromTo (tokenize source) i j ∧
      Cursor.readIn? source range = some (tokensFromTo (tokenize source) i j)
  arguments : ∀ config ∈ (neutralize source).launches, ∀ arg ∈ config.args,
    (∃ i j, Covers (tokenize source) i j arg.span) ∧
      tokenizeIn source arg.span = (tokenize source).filter (arg.span.contains ·.span)
  scanned : ∀ ctx : Constructs.Context, ctx.source = source →
    ∀ config ∈ (neutralize source).launches, ctx.ofConfig config =
      config.args.flatMap fun arg =>
        ctx.ofConfigTokens none ((tokenize source).filter (arg.span.contains ·.span))

/-! ## Between two tokens -/

theorem getElem?_drop_sub {b : Token} (hij : i ≤ j) (hb : ts[j]? = some b) :
    (ts.drop i)[j - i]? = some b := by
  rw [List.getElem?_drop, Nat.add_sub_cancel' hij, hb]

/-- The last of the tokens and those in front of it. -/
theorem tokensFromTo_eq {b : Token} (hij : i ≤ j) (hb : ts[j]? = some b) :
    tokensFromTo ts i j = (ts.drop i).take (j - i) ++ [b] := by
  rw [tokensFromTo, List.drop_take, Nat.sub_add_comm hij, List.take_add_one,
    getElem?_drop_sub hij hb]
  rfl

/-- **The characters of the range** are a piece of the text, and read by themselves they have the
tokens from the one to the other. -/
theorem Covers.exists_cut (h : Covers (tokenize source) i j range) :
    ∃ us cs vs, source.toList = us ++ cs ++ vs ∧
      range = .ofLength (byteLength us) (byteLength cs) ∧
      tokens vs.head? (byteLength us) cs = tokensFromTo (tokenize source) i j := by
  obtain ⟨hij, ⟨a, ha, hstart⟩, b, hb, hstop⟩ := h
  -- the text from the first token on
  have hall := eq_take_append_drop ha
  have hdrop : (tokenize source).drop i = a :: (tokenize source).drop (i + 1) := by
    rw [List.drop_eq_getElem?_toList_append, ha]
    rfl
  obtain ⟨us, behind, hus, hstart', hbehind⟩ := tokens_suffix hall
  rw [← hdrop, eq_take_append_drop (getElem?_drop_sub hij hb)] at hbehind
  -- and of that the text up to the last one
  have hmem : b ∈ tokens none a.start behind := by
    rw [hbehind]
    exact List.mem_append_right _ List.mem_cons_self
  obtain ⟨x, vs, rfl, hb', -⟩ := exists_of_mem_tokens hmem
  have hend : b.span.stop = a.start + byteLength (x ++ b.text.toList) := by
    rw [byteLength_append, byteLength_toList, ← Nat.add_assoc, ← hb']
    rfl
  have htokens := tokens_cut hbehind hend
  rw [Nat.zero_add] at hstart'
  rw [next?_none, ← tokensFromTo_eq hij hb, hstart'] at htokens
  refine ⟨us, x ++ b.text.toList, vs, by rw [hus]; simp, ?_, htokens⟩
  rw [← hstart', Span.ofLength, ← hend, ← hstart, ← hstop]

/-- **A part of the text between two tokens** has the tokens from the one to the other. -/
theorem tokenizeIn_of_covers (h : Covers (tokenize source) i j range) :
    tokenizeIn source range = tokensFromTo (tokenize source) i j := by
  obtain ⟨us, cs, vs, hcs, rfl, htokens⟩ := h.exists_cut
  rw [tokenizeIn_eq hcs, htokens]

/-- Byte by byte they are read as well: the range does not end behind a bare mark. -/
theorem readIn?_of_covers (h : Covers (tokenize source) i j range) :
    Cursor.readIn? source range = some (tokensFromTo (tokenize source) i j) := by
  obtain ⟨us, cs, vs, hcs, rfl, htokens⟩ := h.exists_cut
  have hmarks : Cursor.KeepsMarks vs.head? (tokens vs.head? (byteLength us) cs) := by
    intro hquote t ht
    rw [htokens] at ht
    exact Cursor.keepsMarks_tokens vs.head? 0 source.toList hquote t
      (List.take_subset _ _ (List.drop_subset _ _ ht))
  rw [Cursor.readIn?_eq hcs hmarks, tokenizeIn_eq hcs, htokens]

/-- Tokens in order: those in front of one of them, and those behind it. -/
theorem apart_of_getElem? {a : Token} (hord : ts.Pairwise fun a b => a.span.stop ≤ b.start)
    (ha : ts[i]? = some a) :
    (∀ t ∈ ts.take i, t.span.stop ≤ a.start) ∧ ∀ t ∈ ts.drop (i + 1), a.span.stop ≤ t.start := by
  rw [eq_take_append_drop ha] at hord
  obtain ⟨-, hbehind, hfront⟩ := List.pairwise_append.mp hord
  exact ⟨fun t ht => hfront t ht a List.mem_cons_self, (List.pairwise_cons.mp hbehind).1⟩

/-- A list by what is in front of the tokens, the tokens and what is behind them. -/
theorem take_append_tokensFromTo (ts : List Token) (hij : i ≤ j) :
    ts.take i ++ (tokensFromTo ts i j ++ ts.drop (j + 1)) = ts := by
  have htake : ts.take i = (ts.take (j + 1)).take i := by
    rw [List.take_take, Nat.min_eq_left (Nat.le_succ_of_le hij)]
  rw [htake, tokensFromTo, ← List.append_assoc, List.take_append_drop, List.take_append_drop]

/-- The range takes in the tokens from the one to the other. -/
theorem Covers.contains (hord : ts.Pairwise fun a b => a.span.stop ≤ b.start)
    (h : Covers ts i j range) {t : Token} (ht : t ∈ tokensFromTo ts i j) :
    range.contains t.span = true := by
  obtain ⟨-, ⟨a, ha, hstart⟩, b, hb, hstop⟩ := h
  refine Span.contains_iff.mpr ⟨?_, ?_⟩
  · rw [tokensFromTo, List.drop_take] at ht
    have hin := List.mem_of_mem_take ht
    rw [List.drop_eq_getElem?_toList_append, ha, List.mem_append] at hin
    rcases hin with hin | hin
    · obtain rfl := List.mem_singleton.mp hin
      exact Nat.le_of_eq hstart
    · have hle := (apart_of_getElem? hord ha).2 t hin
      have ha' : a.start ≤ a.span.stop := Nat.le_add_right _ _
      show range.start ≤ t.start
      omega
  · have hin := List.mem_of_mem_drop ht
    rw [List.take_add_one, hb, List.mem_append] at hin
    rcases hin with hin | hin
    · have hle := (apart_of_getElem? hord hb).1 t hin
      have hb' : b.start ≤ b.span.stop := Nat.le_add_right _ _
      omega
    · obtain rfl := List.mem_singleton.mp hin
      exact Nat.le_of_eq hstop.symm

/-- **The tokens within the range** are those from the one to the other. -/
theorem filter_of_covers (hord : ts.Pairwise fun a b => a.span.stop ≤ b.start)
    (hne : ∀ t ∈ ts, t.span.start < t.span.stop) (h : Covers ts i j range) :
    ts.filter (range.contains ·.span) = tokensFromTo ts i j := by
  obtain ⟨a, ha, hstart⟩ := h.first
  obtain ⟨b, hb, hstop⟩ := h.last
  have hfront : (ts.take i).filter (range.contains ·.span) = [] := by
    refine List.filter_eq_nil_iff.mpr fun t ht hin => ?_
    have hlt := hne t (List.take_subset _ _ ht)
    have hle := (apart_of_getElem? hord ha).1 t ht
    have hstart' : range.start ≤ t.span.start := (Span.contains_iff.mp hin).1
    omega
  have hbehind : (ts.drop (j + 1)).filter (range.contains ·.span) = [] := by
    refine List.filter_eq_nil_iff.mpr fun t ht hin => ?_
    have hlt : t.start < t.span.stop := hne t (List.drop_subset _ _ ht)
    have hle := (apart_of_getElem? hord hb).2 t ht
    have hstop' : t.span.stop ≤ range.stop := (Span.contains_iff.mp hin).2
    omega
  have hwithin : (tokensFromTo ts i j).filter (range.contains ·.span) = tokensFromTo ts i j :=
    List.filter_eq_self.mpr fun t ht => h.contains hord ht
  calc ts.filter (range.contains ·.span)
      = (ts.take i ++ (tokensFromTo ts i j ++ ts.drop (j + 1))).filter
          (range.contains ·.span) := by rw [take_append_tokensFromTo ts h.le]
    _ = tokensFromTo ts i j := by
      rw [List.filter_append, List.filter_append, hfront, hbehind, hwithin, List.nil_append,
        List.append_nil]

/-! ## The arguments of a launch configuration -/

theorem Covers.append (h : Covers ts i j range) (us : List Token) :
    Covers (ts ++ us) i j range := by
  have hget {k : Nat} {t : Token} (ht : ts[k]? = some t) : (ts ++ us)[k]? = some t := by
    rw [List.getElem?_append_left (List.getElem?_eq_some_iff.mp ht).1, ht]
  obtain ⟨hij, ⟨a, ha, hstart⟩, b, hb, hstop⟩ := h
  exact ⟨hij, ⟨a, hget ha, hstart⟩, b, hget hb, hstop⟩

namespace LaunchConfig

/-- The run, if there is one, goes over tokens read so far. -/
def RunCovers (read : List Token) (run : Option Span) : Prop :=
  ∀ s, run = some s → ∃ i j, Covers read i j s

theorem runCovers_none : RunCovers ts none := fun _ hs => nomatch hs

theorem runCovers_extend {run : Option Span} (h : RunCovers ts run) (t : Token) :
    RunCovers (ts ++ [t]) (extend run t) := by
  have hlast : (ts ++ [t])[ts.length]? = some t := List.getElem?_concat_length
  intro s hs
  cases run with
  | none =>
    obtain rfl := Option.some.inj hs
    exact ⟨ts.length, ts.length, Nat.le_refl _, ⟨t, hlast, rfl⟩, t, hlast, rfl⟩
  | some r =>
    obtain rfl := Option.some.inj hs
    obtain ⟨i, j, hcovers⟩ := h r rfl
    obtain ⟨b, hb, -⟩ := hcovers.last
    have hle : i ≤ ts.length :=
      Nat.le_trans hcovers.le (Nat.le_of_lt (List.getElem?_eq_some_iff.mp hb).1)
    exact ⟨i, ts.length, hle, (hcovers.append [t]).first, t, hlast, rfl⟩

/-- **Every argument goes from the start of one token to the end of another.** -/
theorem covers_of_read? {read : List Token} {depth : Nat} {run : Option Span} {r : Reading}
    (hrun : RunCovers read run) (h : read? source depth run ts = some r) :
    ∀ arg ∈ r.args, ∃ i j, Covers (read ++ ts) i j arg.span := by
  induction ts generalizing read depth run r with
  | nil => cases h
  | cons t ts ih =>
    have hsplit : read ++ t :: ts = (read ++ [t]) ++ ts := by simp
    have hcapture {arg : Captured} (harg : arg ∈ capture source run) :
        ∃ i j, Covers (read ++ t :: ts) i j arg.span := by
      obtain ⟨i, j, hcovers⟩ := hrun _ (span_of_mem_capture harg)
      exact ⟨i, j, hcovers.append _⟩
    rcases read?_cons_cases h with ⟨d, r', hr', rfl⟩ | rfl | ⟨r', hr', rfl⟩
    · rw [hsplit]
      exact fun arg harg => ih (runCovers_extend hrun t) hr' arg harg
    · exact fun arg harg => hcapture harg
    · intro arg harg
      rcases List.mem_append.mp harg with harg | harg
      · exact hcapture harg
      · rw [hsplit]
        exact ih runCovers_none hr' arg harg

end LaunchConfig

/-- An argument of a recorded launch goes from the start of one token to the end of another. -/
theorem covers_of_mem_launches {config : LaunchConfig} (h : config ∈ (neutralize source).launches) :
    ∀ arg ∈ config.args, ∃ i j, Covers (tokenize source) i j arg.span := by
  obtain ⟨t, rest, r, ⟨front, hfront⟩, -, hr, rfl⟩ := exists_read?_of_mem_launches h
  have hall : tokenize source = (front ++ [t]) ++ rest := by rw [← hfront]; simp
  rw [hall]
  exact LaunchConfig.covers_of_read? LaunchConfig.runCovers_none hr

/-- **Reading a part of a text again** finds the tokens of the whole text in it. -/
theorem rescan_finds_same_tokens (source : String) : Rescans source := by
  have hargument {config : LaunchConfig} (hconfig : config ∈ (neutralize source).launches)
      {arg : Captured} (harg : arg ∈ config.args) :
      tokenizeIn source arg.span = (tokenize source).filter (arg.span.contains ·.span) := by
    obtain ⟨i, j, hcovers⟩ := covers_of_mem_launches hconfig arg harg
    have hord : (tokenize source).Pairwise fun a b => a.span.stop ≤ b.start := pairwise_tokens
    rw [tokenizeIn_of_covers hcovers,
      filter_of_covers hord (fun _ ht => start_lt_stop_of_mem_tokens ht) hcovers]
  refine ⟨fun i j range h => ⟨tokenizeIn_of_covers h, readIn?_of_covers h⟩,
    fun config hconfig arg harg => ⟨covers_of_mem_launches hconfig arg harg,
      hargument hconfig harg⟩, ?_⟩
  rintro ctx rfl config hconfig
  exact List.flatMap_congr fun arg harg => by rw [hargument hconfig harg]

end CudaToHip
