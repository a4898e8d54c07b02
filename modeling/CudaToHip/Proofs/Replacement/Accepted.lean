import CudaToHip.Proofs.Span
import CudaToHip.Replacement.Set
import Mathlib.Data.List.Induction
import Mathlib.Data.List.Nodup
import Mathlib.Data.List.Sort

/-!
# What a proposal does

A proposal has one of two outcomes (`propose_of_conflict`, `propose_of_not_conflict`): it adds a
conflict to the log and leaves the accepted edits alone, or it puts its edit in place and leaves
the log alone. Everything a run of proposals does follows from these and from what a conflict says
(`conflict?_eq_some`).

* `Sorted`: the accepted edits are in strictly increasing order of their spans, so there is one for
  each span. Every run of proposals keeps this (`sorted_proposeAll`).
* `conflict?_exactSpan`, `conflict?_isSome_iff`: when a proposal runs into a conflict under each of
  the policies.
* `proposeAll_of_apart`, `proposeAll_of_agree`: proposals that overlap only on equal spans fare alike
  under both policies.
* `run_of_alone`: an edit that no other proposal touches is accepted once under both policies.
* `proposeAll_of_row`: proposals in a row are all accepted and stay in order.
-/

namespace CudaToHip.ReplacementSet

variable {s : ReplacementSet} {e d : Edit} {es : List Edit} {c : Conflict}

/-! ## Order of the accepted edits -/

/-- In strictly increasing order of their spans. -/
def Sorted (es : List Edit) : Prop := es.Pairwise fun a b => a.span.before b.span = true

/-- A sorted list has one edit for each span. -/
theorem Sorted.eq_of_span_eq (h : Sorted es) (he : e ∈ es) (hd : d ∈ es) (hs : e.span = d.span) :
    e = d := by
  induction es with
  | nil => exact absurd he List.not_mem_nil
  | cons x xs ih =>
    obtain ⟨hx, hxs⟩ := List.pairwise_cons.mp h
    rcases List.mem_cons.mp he with hex | he <;> rcases List.mem_cons.mp hd with hdx | hd
    · rw [hex, hdx]
    · exact absurd (hex ▸ hs) (Span.ne_of_before (hx d hd))
    · exact absurd (hdx ▸ hs.symm) (Span.ne_of_before (hx e he))
    · exact ih hxs he hd

theorem Sorted.nodup (h : Sorted es) : es.Nodup :=
  h.imp fun hab heq => Span.ne_of_before hab (congrArg Edit.span heq)

/-- Sorted lists with the same members are the same. -/
theorem Sorted.eq_of_mem_iff {ds : List Edit} (hes : Sorted es) (hds : Sorted ds)
    (hmem : ∀ e, e ∈ es ↔ e ∈ ds) : es = ds := by
  have hperm : es.Perm ds := (List.perm_ext_iff_of_nodup hes.nodup hds.nodup).mpr hmem
  exact hperm.eq_of_pairwise
    (fun _ _ _ _ hab hba => absurd (Span.before_trans hab hba) (Span.not_before_self _)) hes hds

theorem sorted_insertBySpan (h : Sorted es) (hne : ∀ d ∈ es, d.span ≠ e.span) :
    Sorted (insertBySpan e es) := by
  induction es with
  | nil => exact List.pairwise_singleton _ _
  | cons x xs ih =>
    obtain ⟨hx, hxs⟩ := List.pairwise_cons.mp h
    have hxe := hne x List.mem_cons_self
    simp only [insertBySpan]
    split
    · rename_i hbefore
      refine List.pairwise_cons.mpr ⟨fun d hd => ?_,
        ih hxs fun d hd => hne d (List.mem_cons_of_mem x hd)⟩
      rcases mem_insertBySpan.mp hd with rfl | hd
      · exact hbefore
      · exact hx d hd
    · rename_i hbefore
      have hex := Span.before_of_not_before hbefore hxe
      refine List.pairwise_cons.mpr ⟨fun d hd => ?_, h⟩
      rcases List.mem_cons.mp hd with rfl | hd
      · exact hex
      · exact Span.before_trans hex (hx d hd)

theorem get?_eq_none_iff {span : Span} : s.get? span = none ↔ ∀ d ∈ s.edits, d.span ≠ span := by
  unfold get?
  simp [List.find?_eq_none]

theorem get?_eq_some_iff {span : Span} (h : Sorted s.edits) :
    s.get? span = some d ↔ d ∈ s.edits ∧ d.span = span := by
  constructor
  · intro hd
    exact ⟨List.mem_of_find?_eq_some hd, by simpa using List.find?_some hd⟩
  · rintro ⟨hd, rfl⟩
    cases hget : s.get? d.span with
    | none => exact absurd rfl (get?_eq_none_iff.mp hget d hd)
    | some d' =>
      have hspan : d'.span = d.span := by simpa using List.find?_some hget
      rw [h.eq_of_span_eq (List.mem_of_find?_eq_some hget) hd hspan]

/-! ## The two outcomes of a proposal -/

theorem propose_of_conflict (h : s.conflict? e = some c) :
    s.propose e = { s with conflicts := s.conflicts ++ [c] } := by
  unfold propose
  rw [h]

theorem propose_of_not_conflict (h : s.conflict? e = none) :
    s.propose e = { s with edits := insertBySpan e s.edits } := by
  unfold propose
  rw [h]

@[simp] theorem policy_propose (s : ReplacementSet) (e : Edit) :
    (s.propose e).policy = s.policy := by
  unfold propose
  split <;> rfl

@[simp] theorem policy_proposeAll (s : ReplacementSet) (es : List Edit) :
    (s.proposeAll es).policy = s.policy := by
  induction es generalizing s with
  | nil => rfl
  | cons e es ih => exact (ih (s.propose e)).trans (policy_propose s e)

theorem proposeAll_append (s : ReplacementSet) (es ds : List Edit) :
    s.proposeAll (es ++ ds) = (s.proposeAll es).proposeAll ds :=
  List.foldl_append

theorem proposeAll_concat (s : ReplacementSet) (es : List Edit) (e : Edit) :
    s.proposeAll (es ++ [e]) = (s.proposeAll es).propose e :=
  proposeAll_append s es [e]

/-! ## What a conflict says -/

/-- **A conflict names an accepted edit that overlaps the proposal**; its reason is that the span is
claimed exactly if the spans are the same. -/
theorem conflict?_eq_some (h : s.conflict? e = some c) :
    c.existing ∈ s.edits ∧ c.existing.span.overlaps e.span = true ∧ c.rejected = e ∧
      (c.reason = .spanClaimed ↔ c.existing.span = e.span) := by
  unfold conflict? at h
  split at h
  · rename_i d hget
    obtain rfl := Option.some.inj h
    have hspan : d.span = e.span := by simpa using List.find?_some hget
    exact ⟨List.mem_of_find?_eq_some hget, hspan ▸ Span.overlaps_self _, rfl,
      fun _ => hspan, fun _ => rfl⟩
  · rename_i hget
    split at h
    · exact nomatch h
    · obtain ⟨d, hfind, rfl⟩ := Option.map_eq_some_iff.mp h
      have hd := List.mem_of_find?_eq_some hfind
      refine ⟨hd, by simpa using List.find?_some hfind, rfl, ⟨fun hr => ?_, fun hspan => ?_⟩⟩
      · exact ConflictReason.noConfusion hr
      · exact absurd hspan (get?_eq_none_iff.mp hget d hd)

/-- Under `exactSpan` only an edit of the same span is in the way. -/
theorem conflict?_exactSpan (hp : s.policy = .exactSpan) (e : Edit) :
    s.conflict? e = (s.get? e.span).map (⟨·, e, .spanClaimed⟩) := by
  unfold conflict?
  rw [hp]
  cases s.get? e.span <;> rfl

/-- Under `overlap` every edit that overlaps is in the way. -/
theorem conflict?_isSome_iff_overlaps (hp : s.policy = .overlap) (e : Edit) :
    (s.conflict? e).isSome = true ↔ ∃ d ∈ s.edits, d.span.overlaps e.span = true := by
  constructor
  · intro h
    obtain ⟨c, hc⟩ := Option.isSome_iff_exists.mp h
    obtain ⟨hmem, hover, -, -⟩ := conflict?_eq_some hc
    exact ⟨c.existing, hmem, hover⟩
  · rintro ⟨d, hd, hover⟩
    unfold conflict?
    rw [hp]
    cases s.get? e.span with
    | some d' => rfl
    | none => simpa using ⟨d, hd, hover⟩

/-- An accepted edit `d` is in the way of a proposal of `e`. -/
def InTheWay (policy : ConflictPolicy) (d e : Edit) : Prop :=
  match policy with
  | .exactSpan => d.span = e.span
  | .overlap => d.span.overlaps e.span = true

/-- Under each policy an edit is in the way of whatever has its span. -/
theorem inTheWay_of_span_eq (policy : ConflictPolicy) (h : d.span = e.span) :
    InTheWay policy d e := by
  cases policy with
  | exactSpan => exact h
  | overlap =>
    show d.span.overlaps e.span = true
    rw [h, Span.overlaps_self]

/-- **A proposal runs into a conflict exactly if an accepted edit is in its way.** -/
theorem conflict?_isSome_iff :
    (s.conflict? e).isSome = true ↔ ∃ d ∈ s.edits, InTheWay s.policy d e := by
  cases hp : s.policy with
  | overlap => exact conflict?_isSome_iff_overlaps hp e
  | exactSpan =>
    rw [conflict?_exactSpan hp, Option.isSome_map, get?, List.find?_isSome]
    simp [InTheWay]

/-- What is in the way of a proposal without a conflict has another span. -/
theorem span_ne_of_not_conflict (h : s.conflict? e = none) : ∀ d ∈ s.edits, d.span ≠ e.span := by
  unfold conflict? at h
  split at h
  · exact nomatch h
  · rename_i hget
    exact get?_eq_none_iff.mp hget

/-- After a proposal that is accepted, the edit is that of its span, and nothing else changes. -/
theorem get?_propose_of_not_conflict (hs : Sorted s.edits) (h : s.conflict? e = none)
    (span : Span) : (s.propose e).get? span = if e.span = span then some e else s.get? span := by
  have hnext : Sorted (insertBySpan e s.edits) := sorted_insertBySpan hs (span_ne_of_not_conflict h)
  rw [propose_of_not_conflict h]
  split_ifs with hspan
  · exact (get?_eq_some_iff hnext).mpr ⟨mem_insertBySpan.mpr (Or.inl rfl), hspan⟩
  · cases hget : s.get? span with
    | some d =>
      obtain ⟨hd, hds⟩ := (get?_eq_some_iff hs).mp hget
      exact (get?_eq_some_iff hnext).mpr ⟨mem_insertBySpan.mpr (Or.inr hd), hds⟩
    | none =>
      have hnone := get?_eq_none_iff.mp hget
      refine get?_eq_none_iff.mpr fun d hd => ?_
      rcases mem_insertBySpan.mp hd with rfl | hd
      · exact hspan
      · exact hnone d hd

/-! ## Runs of proposals -/

theorem sorted_propose (h : Sorted s.edits) (e : Edit) : Sorted (s.propose e).edits := by
  cases hc : s.conflict? e with
  | some c => rw [propose_of_conflict hc]; exact h
  | none =>
    rw [propose_of_not_conflict hc]
    exact sorted_insertBySpan h (span_ne_of_not_conflict hc)

/-- **Every run of proposals keeps the accepted edits sorted.** -/
theorem sorted_proposeAll (h : Sorted s.edits) (es : List Edit) :
    Sorted (s.proposeAll es).edits := by
  induction es generalizing s with
  | nil => exact h
  | cons e es ih => exact ih (sorted_propose h e)

theorem sorted_of_run (policy : ConflictPolicy) (es : List Edit) :
    Sorted ((empty policy).proposeAll es).edits :=
  sorted_proposeAll (s := empty policy) List.Pairwise.nil es

/-- Later proposals leave every accepted edit in place. -/
theorem edits_proposeAll (h : d ∈ s.edits) (es : List Edit) : d ∈ (s.proposeAll es).edits := by
  induction es generalizing s with
  | nil => exact h
  | cons e es ih => exact ih (edits_propose h)

theorem mem_of_mem_edits_propose (h : d ∈ (s.propose e).edits) : d ∈ s.edits ∨ d = e := by
  cases hc : s.conflict? e with
  | some c =>
    rw [propose_of_conflict hc] at h
    exact Or.inl h
  | none =>
    rw [propose_of_not_conflict hc] at h
    exact (mem_insertBySpan.mp h).symm

/-- An accepted edit was there before or proposed. -/
theorem mem_of_mem_edits_proposeAll (h : d ∈ (s.proposeAll es).edits) : d ∈ s.edits ∨ d ∈ es := by
  induction es generalizing s with
  | nil => exact Or.inl h
  | cons e es ih =>
    rcases ih h with h | h
    · rcases mem_of_mem_edits_propose h with h | rfl
      · exact Or.inl h
      · exact Or.inr List.mem_cons_self
    · exact Or.inr (List.mem_cons_of_mem e h)

/-- A conflict of the log was there before or turned a proposal away, because of an accepted edit
that overlaps it. -/
theorem mem_of_mem_conflicts_proposeAll (h : c ∈ (s.proposeAll es).conflicts) :
    c ∈ s.conflicts ∨ c.rejected ∈ es ∧ c.existing ∈ (s.proposeAll es).edits ∧
      c.existing.span.overlaps c.rejected.span = true := by
  induction es using List.reverseRecOn with
  | nil => exact Or.inl h
  | append_singleton es e ih =>
    rw [proposeAll_concat] at h ⊢
    have hfront (h : c ∈ (s.proposeAll es).conflicts) : c ∈ s.conflicts ∨ c.rejected ∈ es ++ [e] ∧
        c.existing ∈ ((s.proposeAll es).propose e).edits ∧
          c.existing.span.overlaps c.rejected.span = true :=
      (ih h).imp id fun ⟨hmem, hedit, hover⟩ =>
        ⟨List.mem_append_left _ hmem, edits_propose hedit, hover⟩
    cases hconf : (s.proposeAll es).conflict? e with
    | none => exact hfront (by rwa [propose_of_not_conflict hconf] at h)
    | some c' =>
      rw [propose_of_conflict hconf] at h
      rcases List.mem_append.mp h with h | h
      · exact hfront h
      · obtain rfl := List.mem_singleton.mp h
        obtain ⟨hedit, hover, hrejected, -⟩ := conflict?_eq_some hconf
        rw [hrejected]
        exact Or.inr ⟨List.mem_append_right _ List.mem_cons_self, edits_propose hedit, hover⟩

/-! ## Proposals that agree -/

/-- The edits overlap only where they ask for the same. -/
def Agree (a b : Edit) : Prop :=
  (a.span = b.span ∧ a.newText = b.newText) ∨ a.span.overlaps b.span = false

theorem Agree.refl (e : Edit) : Agree e e := Or.inl ⟨rfl, rfl⟩

theorem Agree.symm (h : Agree d e) : Agree e d := by
  rcases h with ⟨hspan, htext⟩ | h
  · exact Or.inl ⟨hspan.symm, htext.symm⟩
  · exact Or.inr (Span.overlaps_comm d.span e.span ▸ h)

/-- Edits of different spans that are apart agree. -/
theorem agree_of_ne (hd : d.span.start ≤ d.span.stop) (he : e.span.start ≤ e.span.stop)
    (hne : d.span ≠ e.span) (h : d.span.Apart e.span) : Agree d e :=
  Or.inr ((Span.overlaps_eq_false_iff hd he).mpr ⟨hne, h⟩)

/-- Edits of spans that are apart agree, if one of the spans takes text. -/
theorem agree_of_apart (hd : d.span.start < d.span.stop) (he : e.span.start ≤ e.span.stop)
    (h : d.span.Apart e.span) : Agree d e := by
  refine agree_of_ne (Nat.le_of_lt hd) he (fun heq => ?_) h
  unfold Span.Apart at h
  rw [heq] at h hd
  omega

/-- Edits agree if there is text between them. -/
theorem agree_of_lt (hd : d.span.start ≤ d.span.stop) (he : e.span.start ≤ e.span.stop)
    (h : d.span.stop < e.span.start) : Agree d e := by
  refine agree_of_ne hd he (fun heq => ?_) (Or.inl (Nat.le_of_lt h))
  rw [heq] at h
  omega

/-- Edits that agree overlap only if they have the same span. -/
theorem Agree.not_overlaps (h : Agree d e) (hne : d.span ≠ e.span) :
    d.span.overlaps e.span = false := by
  rcases h with ⟨hspan, -⟩ | hno
  · exact absurd hspan hne
  · exact hno

/-- Only an edit of the same span is in the way of a proposal that overlaps no other, whatever the
policy. -/
theorem conflict?_of_apart (h : ∀ d ∈ s.edits, d.span ≠ e.span → d.span.overlaps e.span = false) :
    s.conflict? e = (s.get? e.span).map (⟨·, e, .spanClaimed⟩) := by
  cases hp : s.policy with
  | exactSpan => exact conflict?_exactSpan hp e
  | overlap =>
    unfold conflict?
    rw [hp]
    cases hget : s.get? e.span with
    | some d => rfl
    | none =>
      simp only [Option.map_none, Option.map_eq_none_iff, List.find?_eq_none]
      intro d hd
      rw [h d hd (get?_eq_none_iff.mp hget d hd)]
      exact Bool.false_ne_true

theorem conflict?_of_agree (ha : ∀ d ∈ s.edits, Agree d e) :
    s.conflict? e = (s.get? e.span).map (⟨·, e, .spanClaimed⟩) :=
  conflict?_of_apart fun d hd => (ha d hd).not_overlaps

/-- **Proposals that overlap only on equal spans fare alike under all policies.** -/
theorem proposeAll_of_apart
    (hes : ∀ a ∈ es, ∀ b ∈ es, a.span ≠ b.span → a.span.overlaps b.span = false)
    (p q : ConflictPolicy) :
    ((empty p).proposeAll es).edits = ((empty q).proposeAll es).edits ∧
    ((empty p).proposeAll es).conflicts = ((empty q).proposeAll es).conflicts := by
  induction es using List.reverseRecOn with
  | nil => exact ⟨rfl, rfl⟩
  | append_singleton es e ih =>
    obtain ⟨hedits, hlog⟩ := ih fun a ha b hb =>
      hes a (List.mem_append_left _ ha) b (List.mem_append_left _ hb)
    have hapart (r : ConflictPolicy) : ∀ d ∈ ((empty r).proposeAll es).edits,
        d.span ≠ e.span → d.span.overlaps e.span = false := by
      intro d hd
      rcases mem_of_mem_edits_proposeAll hd with h | h
      · exact absurd h List.not_mem_nil
      · exact hes d (List.mem_append_left _ h) e (List.mem_append_right _ List.mem_cons_self)
    have hconf : ((empty p).proposeAll es).conflict? e = ((empty q).proposeAll es).conflict? e := by
      rw [conflict?_of_apart (hapart p), conflict?_of_apart (hapart q), get?, get?, hedits]
    rw [proposeAll_concat, proposeAll_concat]
    cases hc : ((empty p).proposeAll es).conflict? e with
    | none =>
      rw [propose_of_not_conflict hc, propose_of_not_conflict (hconf ▸ hc)]
      exact ⟨by rw [hedits], hlog⟩
    | some c =>
      rw [propose_of_conflict hc, propose_of_conflict (hconf ▸ hc)]
      exact ⟨hedits, by rw [hlog]⟩

/-- Proposals that agree run into duplicates only. -/
theorem isDuplicate_of_agree (hes : ∀ a ∈ es, ∀ b ∈ es, Agree a b) {p : ConflictPolicy}
    (hc : c ∈ ((empty p).proposeAll es).conflicts) : c.isDuplicate = true := by
  rcases mem_of_mem_conflicts_proposeAll hc with h | ⟨hrejected, hedit, hover⟩
  · exact absurd h List.not_mem_nil
  · have hexisting : c.existing ∈ es :=
      (mem_of_mem_edits_proposeAll hedit).resolve_left List.not_mem_nil
    rcases hes _ hexisting _ hrejected with ⟨hspan, htext⟩ | hno
    · simp [Conflict.isDuplicate, hspan, htext]
    · exact absurd hover (by simp [hno])

/-- **Proposals that agree fare alike under both policies**, and all their conflicts are
duplicates. -/
theorem proposeAll_of_agree (hes : ∀ a ∈ es, ∀ b ∈ es, Agree a b) (p q : ConflictPolicy) :
    ((empty p).proposeAll es).edits = ((empty q).proposeAll es).edits ∧
    ((empty p).proposeAll es).conflicts = ((empty q).proposeAll es).conflicts ∧
    ∀ c ∈ ((empty p).proposeAll es).conflicts, c.isDuplicate = true := by
  obtain ⟨hedits, hlog⟩ := proposeAll_of_apart (fun a ha b hb => (hes a ha b hb).not_overlaps) p q
  exact ⟨hedits, hlog, fun _ => isDuplicate_of_agree hes⟩

/-! ## Proposals that stand alone -/

/-- All other edits of the list claim other text. -/
def Alone (e : Edit) (es : List Edit) : Prop := ∀ d ∈ es, d = e ∨ d.span.overlaps e.span = false

theorem Alone.agree (h : Alone e es) : ∀ d ∈ es, Agree d e := by
  intro d hd
  rcases h d hd with rfl | hover
  · exact Agree.refl d
  · exact Or.inr hover

/-- An edit that stands alone is turned away by itself or not at all. -/
theorem conflict?_of_alone (h : Alone e s.edits) (hsorted : Sorted s.edits) :
    s.conflict? e = if e ∈ s.edits then some ⟨e, e, .spanClaimed⟩ else none := by
  rw [conflict?_of_agree h.agree]
  split_ifs with he
  · rw [(get?_eq_some_iff hsorted).mpr ⟨he, rfl⟩, Option.map_some]
  · have hfree : s.get? e.span = none := get?_eq_none_iff.mpr fun d hd hspan => by
      rcases h d hd with rfl | hover
      · exact he hd
      · rw [hspan, Span.overlaps_self] at hover
        exact Bool.false_ne_true hover.symm
    rw [hfree, Option.map_none]

/-- **An edit that stands alone is accepted once**, whatever the policy, and each further proposal
of it is turned away by itself. -/
theorem run_of_alone (policy : ConflictPolicy) (h : Alone e es) :
    (e ∈ ((empty policy).proposeAll es).edits ↔ e ∈ es) ∧
    (∀ c ∈ ((empty policy).proposeAll es).conflicts, c.rejected = e → c.existing = e) ∧
    (((empty policy).proposeAll es).conflicts.filter (·.rejected = e)).length = es.count e - 1 := by
  induction es using List.reverseRecOn with
  | nil => exact ⟨Iff.rfl, fun c hc => absurd hc List.not_mem_nil, rfl⟩
  | append_singleton es d ih =>
    obtain ⟨hmem, hlog, hcount⟩ := ih fun a ha => h a (List.mem_append_left _ ha)
    rw [proposeAll_concat]
    by_cases hde : d = e
    · obtain rfl := hde
      have halone : Alone d ((empty policy).proposeAll es).edits := by
        intro a ha
        rcases mem_of_mem_edits_proposeAll ha with ha | ha
        · exact absurd ha List.not_mem_nil
        · exact h a (List.mem_append_left _ ha)
      have hconf := conflict?_of_alone halone (sorted_of_run policy es)
      by_cases hd : d ∈ ((empty policy).proposeAll es).edits
      · rw [if_pos hd] at hconf
        have hpos : 0 < es.count d := List.count_pos_iff.mpr (hmem.mp hd)
        rw [propose_of_conflict hconf]
        refine ⟨by simp [hd], fun c hc hrejected => ?_, ?_⟩
        · rcases List.mem_append.mp hc with hc | hc
          · exact hlog c hc hrejected
          · rw [List.mem_singleton.mp hc]
        · simp only [List.filter_append, List.length_append, hcount, List.count_append,
            List.count_singleton_self]
          simp only [decide_true, List.filter_cons_of_pos, List.filter_nil, List.length_singleton]
          omega
      · rw [if_neg hd] at hconf
        have hzero : es.count d = 0 := List.count_eq_zero.mpr fun hd' => hd (hmem.mpr hd')
        rw [propose_of_not_conflict hconf]
        refine ⟨by simp [mem_insertBySpan], hlog, ?_⟩
        rw [hcount, List.count_append, hzero, List.count_singleton_self]
    · have hcount' : (es ++ [d]).count e = es.count e := by
        rw [List.count_append, List.count_singleton, if_neg (by simpa using hde), Nat.add_zero]
      have hmem' : e ∈ es ++ [d] ↔ e ∈ es := by simp [Ne.symm hde]
      rw [hcount', hmem']
      cases hconf : ((empty policy).proposeAll es).conflict? d with
      | none =>
        rw [propose_of_not_conflict hconf]
        refine ⟨?_, hlog, hcount⟩
        rw [mem_insertBySpan, ← hmem]
        exact or_iff_right (Ne.symm hde)
      | some c =>
        have hother : c.rejected ≠ e := (conflict?_eq_some hconf).2.2.1 ▸ hde
        rw [propose_of_conflict hconf]
        refine ⟨hmem, fun c' hc' hrejected => ?_, ?_⟩
        · rcases List.mem_append.mp hc' with hc' | hc'
          · exact hlog c' hc' hrejected
          · exact absurd (List.mem_singleton.mp hc' ▸ hrejected) hother
        · rw [List.filter_append, List.length_append, hcount]
          simp [hother]

/-! ## Proposals in a row -/

theorem insertBySpan_of_forall_before (h : ∀ d ∈ es, d.span.before e.span = true) :
    insertBySpan e es = es ++ [e] := by
  induction es with
  | nil => rfl
  | cons d ds ih =>
    obtain ⟨hd, hds⟩ := List.forall_mem_cons.mp h
    rw [insertBySpan, if_pos hd, ih hds, List.cons_append]

/-- **Proposals in a row are all accepted**: each takes text and starts behind the one before it. -/
theorem proposeAll_of_row (policy : ConflictPolicy)
    (hrow : es.Pairwise fun a b => a.span.stop ≤ b.span.start)
    (htext : ∀ e ∈ es, e.span.start < e.span.stop) :
    (empty policy).proposeAll es = ⟨policy, es, []⟩ := by
  induction es using List.reverseRecOn with
  | nil => rfl
  | append_singleton es e ih =>
    obtain ⟨hes, -, hlast⟩ := List.pairwise_append.mp hrow
    have htext' : ∀ d ∈ es, d.span.start < d.span.stop :=
      fun d hd => htext d (List.mem_append_left _ hd)
    have he : e.span.start < e.span.stop := htext e (List.mem_append_right _ List.mem_cons_self)
    have hbefore : ∀ d ∈ es, d.span.before e.span = true := fun d hd => by
      have hstop := hlast d hd e List.mem_cons_self
      have hd := htext' d hd
      exact Span.before_iff.mpr (Or.inl (by omega))
    have hagree : ∀ d ∈ es, Agree d e := fun d hd =>
      agree_of_apart (htext' d hd) (Nat.le_of_lt he) (Or.inl (hlast d hd e List.mem_cons_self))
    rw [proposeAll_concat, ih hes htext', propose_of_not_conflict]
    · rw [insertBySpan_of_forall_before hbefore]
    · have hfree : get? ⟨policy, es, []⟩ e.span = none :=
        get?_eq_none_iff.mpr fun d hd => Span.ne_of_before (hbefore d hd)
      rw [conflict?_of_agree hagree, hfree, Option.map_none]

end CudaToHip.ReplacementSet
