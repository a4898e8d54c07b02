import CudaToHip.Neutralized
import CudaToHip.Proofs.Token.Order

/-!
# What is blanked stands in the source

* `lt_of_mem_launches`: a launch configuration takes text.
* `text?_eq_of_mem_args`: the arguments of a launch configuration have the text of the source.
* `row_of_mem_launches`: they stand in the configuration, one behind the other.
* `lt_of_mem_qualifiers`: a kernel qualifier takes text.
-/

namespace CudaToHip

variable {source : String} {ts : List Token}

/-! ## Reading a configuration -/

namespace LaunchConfig

/-- The run read so far is a range of the source, and all further tokens stand behind it. -/
def RunEnds (source : String) (run : Option Span) (ts : List Token) : Prop :=
  ∀ s, run = some s → (s.text? source).isSome ∧ ∀ t ∈ ts, s.stop ≤ t.start

theorem runEnds_none : RunEnds source none ts := fun _ h => nomatch h

theorem runEnds_extend {run : Option Span} {t : Token} (ht : (t.span.text? source).isSome)
    (hts : ∀ u ∈ ts, t.span.stop ≤ u.start) (h : RunEnds source run (t :: ts)) :
    RunEnds source (extend run t) ts := by
  intro s hs
  cases run with
  | none =>
    obtain rfl := Option.some.inj hs
    exact ⟨ht, hts⟩
  | some r =>
    obtain rfl := Option.some.inj hs
    obtain ⟨hr, hstop⟩ := h r rfl
    obtain ⟨-, hstart, -⟩ := Text.slice?_isSome_iff.mp hr
    obtain ⟨hle, -, hend⟩ := Text.slice?_isSome_iff.mp ht
    have hrt : r.stop ≤ t.span.start := hstop t List.mem_cons_self
    have hr' := (Text.slice?_isSome_iff.mp hr).1
    refine ⟨Text.slice?_isSome_iff.mpr ⟨?_, hstart, hend⟩, hts⟩
    show r.start ≤ t.span.stop
    omega

theorem text?_of_mem_capture {run : Option Span} {arg : Captured} (h : RunEnds source run ts)
    (harg : arg ∈ capture source run) : arg.span.text? source = some arg.text := by
  cases run with
  | none => cases harg
  | some s =>
    obtain rfl := List.mem_singleton.mp harg
    obtain ⟨hle, hstart, hstop⟩ := Text.slice?_isSome_iff.mp (h s rfl).1
    exact Text.slice?_eq_between hle hstart hstop

/-- A configuration that was read: its arguments have the text of the source, and it ends with one
of the tokens. -/
def Reads (source : String) (ts : List Token) (r : Reading) : Prop :=
  (∀ arg ∈ r.args, arg.span.text? source = some arg.text) ∧ ∃ t ∈ ts, r.stop = t.span.stop

theorem reads_cons {t : Token} {r : Reading} {args : List Captured} {count : Nat}
    (hargs : ∀ arg ∈ args, arg.span.text? source = some arg.text) (h : Reads source ts r) :
    Reads source (t :: ts) { r with args := args ++ r.args, count } := by
  obtain ⟨hr, u, hu, hstop⟩ := h
  refine ⟨fun arg harg => ?_, u, List.mem_cons_of_mem _ hu, hstop⟩
  rcases List.mem_append.mp harg with harg | harg
  · exact hargs arg harg
  · exact hr arg harg

/-- What reading goes on to do at a token: it takes the token into the run, it ends the
configuration there, or it ends an argument there. -/
theorem read?_cons_cases {depth : Nat} {run : Option Span} {t : Token} {r : Reading}
    (h : read? source depth run (t :: ts) = some r) :
    (∃ d r', read? source d (extend run t) ts = some r' ∧ r = { r' with count := r'.count + 1 }) ∨
    r = ⟨capture source run, t.span.stop, 1⟩ ∨
    ∃ r', read? source depth none ts = some r' ∧
      r = { r' with args := capture source run ++ r'.args, count := r'.count + 1 } := by
  have goOn {d : Nat} (h : (read? source d (extend run t) ts).map
      (fun r => { r with count := r.count + 1 }) = some r) :
      ∃ d r', read? source d (extend run t) ts = some r' ∧
        r = { r' with count := r'.count + 1 } := by
    obtain ⟨r', hr', rfl⟩ := Option.map_eq_some_iff.mp h
    exact ⟨d, r', hr', rfl⟩
  rw [read?] at h
  dsimp only at h
  split at h
  · exact Or.inl (goOn h)
  split at h
  · split at h
    · cases h
    · exact Or.inl (goOn h)
  split at h
  · cases h
  split at h
  · exact Or.inr (Or.inl (Option.some.inj h).symm)
  split at h
  · obtain ⟨r', hr', rfl⟩ := Option.map_eq_some_iff.mp h
    exact Or.inr (Or.inr ⟨r', hr', rfl⟩)
  · exact Or.inl (goOn h)

theorem reads_of_read? {depth : Nat} {run : Option Span} {r : Reading}
    (hts : ∀ t ∈ ts, (t.span.text? source).isSome)
    (hord : ts.Pairwise fun a b => a.span.stop ≤ b.start) (hrun : RunEnds source run ts)
    (h : read? source depth run ts = some r) : Reads source ts r := by
  induction ts generalizing depth run r with
  | nil => cases h
  | cons t ts ih =>
    obtain ⟨ht, hord⟩ := List.pairwise_cons.mp hord
    have hts' : ∀ u ∈ ts, (u.span.text? source).isSome :=
      fun u hu => hts u (List.mem_cons_of_mem _ hu)
    rcases read?_cons_cases h with ⟨d, r', hr', rfl⟩ | rfl | ⟨r', hr', rfl⟩
    · have hnone : ∀ arg ∈ ([] : List Captured), arg.span.text? source = some arg.text :=
        fun _ harg => nomatch harg
      have hext := runEnds_extend (hts t List.mem_cons_self) ht hrun
      exact reads_cons hnone (ih hts' hord hext hr')
    · exact ⟨fun arg harg => text?_of_mem_capture hrun harg, t, List.mem_cons_self, rfl⟩
    · exact reads_cons (fun arg harg => text?_of_mem_capture hrun harg)
        (ih hts' hord runEnds_none hr')

/-! ## Where the arguments stand -/

/-- The arguments that were read stand one behind the other, from a byte on and in front of the end
of the reading. -/
structure Row (low : Nat) (r : Reading) : Prop where
  low : ∀ arg ∈ r.args, low ≤ arg.span.start
  high : ∀ arg ∈ r.args, arg.span.stop ≤ r.stop
  ordered : r.args.Pairwise fun a b => a.span.stop ≤ b.span.start

/-- The run begins at the byte or behind it. -/
def RunStarts (low : Nat) (run : Option Span) : Prop := ∀ s, run = some s → low ≤ s.start

theorem runStarts_extend {low : Nat} {run : Option Span} {t : Token} (h : RunStarts low run)
    (ht : low ≤ t.start) : RunStarts low (extend run t) := by
  intro s hs
  cases run with
  | none =>
    obtain rfl := Option.some.inj hs
    exact ht
  | some r =>
    obtain rfl := Option.some.inj hs
    exact h r rfl

theorem span_of_mem_capture {run : Option Span} {arg : Captured} (h : arg ∈ capture source run) :
    run = some arg.span := by
  cases run with
  | none => cases h
  | some s =>
    obtain rfl := List.mem_singleton.mp h
    rfl

theorem pairwise_capture (source : String) (run : Option Span) (R : Captured → Captured → Prop) :
    (capture source run).Pairwise R := by
  cases run with
  | none => exact .nil
  | some s => exact List.pairwise_singleton _ _

/-- **The arguments of a configuration stand one behind the other.** -/
theorem row_of_read? {low depth : Nat} {run : Option Span} {r : Reading}
    (hts : ∀ t ∈ ts, (t.span.text? source).isSome)
    (hord : ts.Pairwise fun a b => a.span.stop ≤ b.start) (hrun : RunEnds source run ts)
    (hlow : ∀ t ∈ ts, low ≤ t.start) (hstart : RunStarts low run)
    (h : read? source depth run ts = some r) : Row low r := by
  induction ts generalizing low depth run r with
  | nil => cases h
  | cons t ts ih =>
    obtain ⟨ht, hord⟩ := List.pairwise_cons.mp hord
    have hts' : ∀ u ∈ ts, (u.span.text? source).isSome :=
      fun u hu => hts u (List.mem_cons_of_mem _ hu)
    have hlow' : ∀ u ∈ ts, low ≤ u.start := fun u hu => hlow u (List.mem_cons_of_mem _ hu)
    have hle : t.start ≤ t.span.stop := Nat.le_add_right _ _
    -- a run that ends here starts at the byte and stops in front of the token
    have hcapture {arg : Captured} (harg : arg ∈ capture source run) :
        low ≤ arg.span.start ∧ arg.span.stop ≤ t.start := by
      have hspan := span_of_mem_capture harg
      exact ⟨hstart _ hspan, (hrun _ hspan).2 t List.mem_cons_self⟩
    rcases read?_cons_cases h with ⟨d, r', hr', rfl⟩ | rfl | ⟨r', hr', rfl⟩
    · have hends := runEnds_extend (hts t List.mem_cons_self) ht hrun
      have hstarts := runStarts_extend hstart (hlow t List.mem_cons_self)
      have hrow : Row low r' := ih hts' hord hends hlow' hstarts hr'
      exact ⟨hrow.low, hrow.high, hrow.ordered⟩
    · exact ⟨fun arg harg => (hcapture harg).1,
        fun arg harg => Nat.le_trans (hcapture harg).2 hle, pairwise_capture _ _ _⟩
    · have hrow : Row t.span.stop r' := ih hts' hord runEnds_none ht (fun _ hs => nomatch hs) hr'
      obtain ⟨-, u, hu, hstop⟩ := reads_of_read? hts' hord runEnds_none hr'
      have hend : t.span.stop ≤ r'.stop := by
        have hu' : u.start ≤ u.span.stop := Nat.le_add_right _ _
        have htu := ht u hu
        omega
      refine ⟨fun arg harg => ?_, fun arg harg => ?_, List.pairwise_append.mpr
        ⟨pairwise_capture _ _ _, hrow.ordered, fun a ha b hb => ?_⟩⟩
      · rcases List.mem_append.mp harg with harg | harg
        · exact (hcapture harg).1
        · have hafter := hrow.low arg harg
          have hfirst := hlow t List.mem_cons_self
          omega
      · rcases List.mem_append.mp harg with harg | harg
        · have hbefore := (hcapture harg).2
          show _ ≤ r'.stop
          omega
        · exact hrow.high arg harg
      · have hbefore := (hcapture ha).2
        have hafter := hrow.low b hb
        omega

end LaunchConfig

/-! ## Places to blank -/

namespace BlankedSite

/-- Every place begins at one of the tokens. -/
theorem exists_at?_of_mem_all {site : BlankedSite} (h : site ∈ all source ts) :
    ∃ t rest, (t :: rest) <:+ ts ∧ (at? source t rest).1 = some site := by
  fun_induction all source ts with
  | case1 => cases h
  | case2 t ts site? n hat ih =>
    rcases List.mem_append.mp h with h | h
    · refine ⟨t, ts, List.suffix_refl _, ?_⟩
      rw [hat]
      exact Option.mem_toList.mp h
    · obtain ⟨u, rest, hsuffix, hu⟩ := ih h
      exact ⟨u, rest, hsuffix.trans ((List.drop_suffix _ _).trans (List.suffix_cons _ _)), hu⟩

/-- A launch configuration begins at a token and is read from the tokens behind it. -/
theorem read?_of_at? {t : Token} {c : LaunchConfig} (h : (at? source t ts).1 = some (.launch c)) :
    ∃ r, LaunchConfig.read? source 0 none ts = some r ∧ c = ⟨⟨t.start, r.stop⟩, r.args⟩ := by
  unfold at? at h
  split at h
  · split at h
    · rename_i kind _
      have hq : (ofQualifier kind t ts).1 = .launch c := Option.some.inj h
      unfold ofQualifier at hq
      dsimp only at hq
      split at hq
      · split at hq
        · split at hq <;> cases hq
        · cases hq
      · cases hq
    · cases h
  · split at h
    · split at h
      · rename_i r hr
        have hc := BlankedSite.launch.inj (Option.some.inj h)
        exact ⟨r, hr, hc.symm⟩
      · cases h
    · cases h

theorem ofKeyword?_eq_global {word : String} (h : Qualifier.ofKeyword? word = some .global) :
    word = "__global__" := by
  unfold Qualifier.ofKeyword? at h
  split at h
  · assumption
  · repeat (split at h; · cases h)
    cases h

/-- A kernel qualifier is a token. -/
theorem span_of_at? {t : Token} {q : QualifierSite} (hq : q.kind = .global)
    (h : (at? source t ts).1 = some (.qualifier q)) : t.text = "__global__" ∧ q.span = t.span := by
  unfold at? at h
  split at h
  · split at h
    · rename_i kind hkind
      have hsite : (ofQualifier kind t ts).1 = .qualifier q := Option.some.inj h
      unfold ofQualifier at hsite
      dsimp only at hsite
      split at hsite
      · rename_i hbounds
        -- launch bounds are no kernel qualifier
        have hne : q.kind = .launchBounds := by
          split at hsite
          · split at hsite <;> cases hsite <;> exact hbounds.1
          · cases hsite
            exact hbounds.1
        rw [hq] at hne
        cases hne
      · cases hsite
        obtain rfl : kind = .global := hq
        exact ⟨ofKeyword?_eq_global hkind, rfl⟩
    · cases h
  · split at h
    · split at h <;> cases h
    · cases h

end BlankedSite

/-! ## A neutralized source -/

theorem exists_of_mem_launches {c : LaunchConfig} (h : c ∈ (neutralize source).launches) :
    ∃ t rest, (t :: rest) <:+ tokenize source ∧
      (BlankedSite.at? source t rest).1 = some (.launch c) := by
  obtain ⟨site, hsite, hc⟩ := List.mem_filterMap.mp h
  cases site with
  | qualifier => cases hc
  | launch d =>
    obtain rfl := Option.some.inj hc
    exact BlankedSite.exists_at?_of_mem_all hsite

/-- A launch configuration is what was read behind one of the tokens. -/
theorem exists_read?_of_mem_launches {c : LaunchConfig} (h : c ∈ (neutralize source).launches) :
    ∃ t rest r, (t :: rest) <:+ tokenize source ∧
      (t :: rest).Pairwise (fun a b => a.span.stop ≤ b.start) ∧
      LaunchConfig.read? source 0 none rest = some r ∧ c = ⟨⟨t.start, r.stop⟩, r.args⟩ := by
  obtain ⟨t, rest, hsuffix, hat⟩ := exists_of_mem_launches h
  obtain ⟨r, hr, hc⟩ := BlankedSite.read?_of_at? hat
  exact ⟨t, rest, r, hsuffix, Lexer.pairwise_tokens.sublist hsuffix.sublist, hr, hc⟩

theorem reads_of_mem_launches {c : LaunchConfig} (h : c ∈ (neutralize source).launches) :
    (∀ arg ∈ c.args, arg.span.text? source = some arg.text) ∧ c.span.start < c.span.stop := by
  obtain ⟨t, rest, r, hsuffix, hord, hr, rfl⟩ := exists_read?_of_mem_launches h
  have hmem {u : Token} (hu : u ∈ t :: rest) : u ∈ tokenize source := hsuffix.subset hu
  obtain ⟨hbehind, hord⟩ := List.pairwise_cons.mp hord
  obtain ⟨hargs, u, hu, hstop⟩ := LaunchConfig.reads_of_read?
    (fun v hv => text?_of_mem_tokenize (hmem (List.mem_cons_of_mem _ hv))) hord
    LaunchConfig.runEnds_none hr
  refine ⟨hargs, ?_⟩
  have ht : t.span.start < t.span.stop :=
    Lexer.start_lt_stop_of_mem_tokens (hmem List.mem_cons_self)
  have hu' : u.span.start < u.span.stop :=
    Lexer.start_lt_stop_of_mem_tokens (hmem (List.mem_cons_of_mem _ hu))
  have htu : t.span.stop ≤ u.span.start := hbehind u hu
  show t.span.start < r.stop
  omega

/-- **The arguments of a launch configuration stand in it, one behind the other.** -/
theorem row_of_mem_launches {c : LaunchConfig} (h : c ∈ (neutralize source).launches) :
    (∀ arg ∈ c.args, c.span.contains arg.span = true) ∧
      c.args.Pairwise fun a b => a.span.stop ≤ b.span.start := by
  obtain ⟨t, rest, r, hsuffix, hord, hr, rfl⟩ := exists_read?_of_mem_launches h
  obtain ⟨hbehind, hord⟩ := List.pairwise_cons.mp hord
  have hrow : LaunchConfig.Row t.span.stop r := LaunchConfig.row_of_read?
    (fun v hv => text?_of_mem_tokenize (hsuffix.subset (List.mem_cons_of_mem _ hv))) hord
    LaunchConfig.runEnds_none hbehind (fun _ hs => nomatch hs) hr
  refine ⟨fun arg harg => Span.contains_iff.mpr ⟨?_, hrow.high arg harg⟩, hrow.ordered⟩
  have hlow := hrow.low arg harg
  have hle : t.start ≤ t.span.stop := Nat.le_add_right _ _
  show t.start ≤ arg.span.start
  omega

/-- **The arguments of a launch configuration have the text of the source.** -/
theorem text?_eq_of_mem_args {c : LaunchConfig} (h : c ∈ (neutralize source).launches) :
    ∀ arg ∈ c.args, arg.span.text? source = some arg.text := (reads_of_mem_launches h).1

theorem text?_of_mem_args {c : LaunchConfig} (h : c ∈ (neutralize source).launches) :
    ∀ arg ∈ c.args, (arg.span.text? source).isSome :=
  fun arg harg => Option.isSome_of_eq_some (text?_eq_of_mem_args h arg harg)

/-- **A launch configuration takes text.** -/
theorem lt_of_mem_launches {c : LaunchConfig} (h : c ∈ (neutralize source).launches) :
    c.span.start < c.span.stop := (reads_of_mem_launches h).2

/-- **A kernel qualifier takes text.** -/
theorem lt_of_mem_qualifiers {q : QualifierSite} (h : q ∈ (neutralize source).qualifiers)
    (hq : q.kind = .global) : q.span.start < q.span.stop := by
  obtain ⟨site, hsite, hq'⟩ := List.mem_filterMap.mp h
  cases site with
  | launch => cases hq'
  | qualifier q' =>
    obtain rfl := Option.some.inj hq'
    obtain ⟨t, rest, -, hat⟩ := BlankedSite.exists_at?_of_mem_all hsite
    obtain ⟨htext, hspan⟩ := BlankedSite.span_of_at? hq hat
    rw [hspan]
    show t.start < t.start + t.text.utf8ByteSize
    rw [htext]
    exact Nat.lt_add_of_pos_right (by decide)

end CudaToHip
