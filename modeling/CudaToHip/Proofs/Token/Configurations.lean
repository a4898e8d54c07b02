import CudaToHip.Proofs.Token.Blanked

/-!
# Recognising launch configurations

A `<<<` opens a launch configuration if a `>>>` at level zero follows before anything that stands in
no configuration, where the level of a token is the number of brackets that are open in front of it
(`leveled`). Its arguments are the runs of tokens between the commas at level zero (`pieces`).

* `LaunchConfig.read?_cons`: what reading does at a token depends on its level only.
* `LaunchConfig.read?_eq_some_iff`: so reading ends at the first `>>>` at level zero, or not at all.
* `LaunchConfig.Loop.read?_eq`: a loop that counts brackets down and cuts arguments out of the
  source never fails, and reads the same.
* `LaunchConfig.recognised_exactly`: which configurations are found in a source, and their
  arguments.
-/

namespace CudaToHip

/-- How a token changes the number of open brackets. -/
def Token.nesting (t : Token) : Int :=
  if t.isPunctIn ["(", "[", "\x7b"] then 1 else if t.isPunctIn [")", "]", "\x7d"] then -1 else 0

/-- A token is a single punctuator. -/
theorem Token.isPunctIn_apart (t : Token) {ps qs : List String} (h : t.isPunctIn ps = true)
    (hqs : ∀ p ∈ ps, p ∉ qs) : t.isPunctIn qs = false := by
  obtain ⟨p, hp, htp⟩ := List.any_eq_true.mp h
  rw [isPunctIn, List.any_eq_false]
  intro q hq htq
  simp only [isPunct, Bool.and_eq_true, decide_eq_true_eq] at htp htq
  exact hqs p hp (htp.2.symm.trans htq.2 ▸ hq)

theorem Token.isPunct_apart (t : Token) {ps : List String} {q : String}
    (h : t.isPunctIn ps = true) (hq : q ∉ ps) : t.isPunct q = false := by
  have hqs : t.isPunctIn [q] = false := t.isPunctIn_apart h fun p hp hpq =>
    hq (List.mem_singleton.mp hpq ▸ hp)
  simpa [isPunctIn] using hqs

namespace LaunchConfig

variable {source : String} {t : Token} {ts : List Token} {x : Int × Token}
  {body : List (Int × Token)} {depth : Nat} {us : List Token}

/-! ## Levels -/

/-- Every token with the number of brackets that are open in front of it. -/
def leveled (level : Int) : List Token → List (Int × Token)
  | [] => []
  | t :: ts => (level, t) :: leveled (level + t.nesting) ts

/-- A token that is in no launch configuration: a semicolon, or a bracket closed that was not
opened. -/
def Refuses (x : Int × Token) : Prop :=
  x.2.isPunct ";" ∨ x.1 = 0 ∧ x.2.isPunctIn [")", "]", "\x7d"]

/-- The bracket that closes the configuration. -/
def Closes (x : Int × Token) : Prop := x.2.isPunct ">>>" ∧ x.1 = 0

/-- A comma between two arguments. -/
def divides (x : Int × Token) : Bool := x.2.isPunct "," && x.1 = 0

instance : DecidablePred Refuses := fun _ => inferInstanceAs (Decidable (_ ∨ _))

instance : DecidablePred Closes := fun _ => inferInstanceAs (Decidable (_ ∧ _))

/-- What reading does at a token. -/
theorem read?_cons (source : String) (depth : Nat) (run : Option Span) (t : Token)
    (ts : List Token) :
    read? source depth run (t :: ts) =
      if Refuses (depth, t) then none
      else if Closes (depth, t) then some ⟨capture source run, t.span.stop, 1⟩
      else if divides (depth, t) then (read? source depth none ts).map fun r =>
        { r with args := capture source run ++ r.args, count := r.count + 1 }
      else (read? source (depth + t.nesting).toNat (extend run t) ts).map fun r =>
        { r with count := r.count + 1 } := by
  have hzero : ((depth : Int) = 0) = (depth = 0) := propext Int.natCast_eq_zero
  rw [read?]
  simp only [Refuses, Closes, divides, Token.nesting, hzero]
  by_cases hopen : t.isPunctIn ["(", "[", "\x7b"] = true
  · have hclose : t.isPunctIn [")", "]", "\x7d"] = false := t.isPunctIn_apart hopen (by decide)
    have hsemi := t.isPunct_apart hopen (q := ";") (by decide)
    have hshut := t.isPunct_apart hopen (q := ">>>") (by decide)
    have hcomma := t.isPunct_apart hopen (q := ",") (by decide)
    simp [hopen, hclose, hsemi, hshut, hcomma]
  by_cases hclose : t.isPunctIn [")", "]", "\x7d"] = true
  · have hsemi := t.isPunct_apart hclose (q := ";") (by decide)
    have hshut := t.isPunct_apart hclose (q := ">>>") (by decide)
    have hcomma := t.isPunct_apart hclose (q := ",") (by decide)
    by_cases hdepth : depth = 0
    · simp [hopen, hclose, hdepth]
    · have hless : ((depth : Int) + -1).toNat = depth - 1 := by omega
      simp [hopen, hclose, hsemi, hshut, hcomma, hdepth, hless]
  simp [hopen, hclose]

/-! ## Runs of tokens -/

/-- The bytes of a run of tokens, from its first to its last one. -/
def runSpan : List Token → Option Span
  | [] => none
  | t :: ts => some ⟨t.start, (ts.getLastD t).span.stop⟩

theorem runSpan_append (us : List Token) (t : Token) :
    runSpan (us ++ [t]) = extend (runSpan us) t := by
  cases us with
  | nil => rfl
  | cons u us =>
    show some (⟨u.start, ((us ++ [t]).getLastD u).span.stop⟩ : Span) = _
    rw [List.getLastD_concat]
    rfl

/-- The runs of tokens between the commas at level zero. -/
def pieces (body : List (Int × Token)) : List (List Token) :=
  (body.splitOnP divides).map (·.map Prod.snd)

theorem pieces_nil : pieces [] = [[]] := rfl

theorem pieces_cons (x : Int × Token) (body : List (Int × Token)) :
    pieces (x :: body) =
      if divides x then [] :: pieces body else (pieces body).modifyHead (x.2 :: ·) := by
  rw [pieces, List.splitOnP_cons_eq_if_modifyHead]
  split_ifs
  · rfl
  · rw [pieces]
    cases body.splitOnP divides <;> rfl

/-! ## Where a configuration ends -/

/-- The tokens `ts` divided at a closing bracket, with nothing in front of it that is in no launch
configuration. -/
structure Ends (level : Int) (ts : List Token) (body : List (Int × Token)) (last : Token) :
    Prop where
  tokens : ∃ rest, leveled level ts = body ++ (0, last) :: rest
  closes : last.isPunct ">>>"
  allowed : ∀ x ∈ body, ¬ Refuses x

/-- It is the first one. -/
structure EndsFirst (level : Int) (ts : List Token) (body : List (Int × Token)) (last : Token) :
    Prop extends Ends level ts body last where
  first : ∀ x ∈ body, ¬ Closes x

theorem not_refuses_of_closes (h : Closes x) : ¬ Refuses x := by
  have hin : x.2.isPunctIn [">>>"] = true := by simpa [Token.isPunctIn] using h.1
  rintro (hsemi | ⟨-, hclose⟩)
  · exact absurd hsemi (by rw [x.2.isPunct_apart hin (by decide)]; decide)
  · exact absurd hclose (by rw [x.2.isPunctIn_apart hin (by decide)]; decide)

/-- **Where a configuration ends**, by the token in front. -/
theorem endsFirst_cons {level : Int} {last : Token} : EndsFirst level (t :: ts) body last ↔
    ¬ Refuses (level, t) ∧ ((Closes (level, t) ∧ body = [] ∧ last = t) ∨
      ¬ Closes (level, t) ∧ ∃ body', body = (level, t) :: body' ∧
        EndsFirst (level + t.nesting) ts body' last) := by
  constructor
  · rintro ⟨⟨⟨rest, hrest⟩, hlast, hallowed⟩, hfirst⟩
    cases body with
    | nil =>
      obtain ⟨hx, -⟩ := List.cons.inj hrest
      obtain ⟨rfl, rfl⟩ := Prod.mk.inj hx
      have hcloses : Closes (0, t) := ⟨hlast, rfl⟩
      exact ⟨not_refuses_of_closes hcloses, Or.inl ⟨hcloses, rfl, rfl⟩⟩
    | cons x body =>
      obtain ⟨rfl, hbehind⟩ := List.cons.inj hrest
      obtain ⟨hx, hallowed⟩ := List.forall_mem_cons.mp hallowed
      obtain ⟨hx', hfirst⟩ := List.forall_mem_cons.mp hfirst
      exact ⟨hx, Or.inr ⟨hx', body, rfl, ⟨⟨rest, hbehind⟩, hlast, hallowed⟩, hfirst⟩⟩
  · rintro ⟨hx, ⟨⟨hlast, hlevel⟩, rfl, rfl⟩ |
      ⟨hx', body, rfl, ⟨⟨rest, hrest⟩, hlast, hallowed⟩, hfirst⟩⟩
    · obtain rfl : level = 0 := hlevel
      exact ⟨⟨⟨_, rfl⟩, hlast, nofun⟩, nofun⟩
    · refine ⟨⟨⟨rest, ?_⟩, hlast, List.forall_mem_cons.mpr ⟨hx, hallowed⟩⟩,
        List.forall_mem_cons.mpr ⟨hx', hfirst⟩⟩
      rw [leveled, hrest]
      rfl

/-- The level behind a token that is not refused. -/
theorem level_nonneg {level : Int} (hlevel : 0 ≤ level) (h : ¬ Refuses (level, t)) :
    0 ≤ level + t.nesting := by
  unfold Refuses at h
  unfold Token.nesting
  split_ifs with hopen hclose
  · omega
  · have hne : level ≠ 0 := fun hzero => h (Or.inr ⟨hzero, hclose⟩)
    omega
  · omega

theorem nesting_of_divides (h : divides x = true) : x.2.nesting = 0 := by
  have hin : x.2.isPunctIn [","] = true := by
    simp only [divides, Bool.and_eq_true] at h
    simpa [Token.isPunctIn] using h.1
  rw [Token.nesting, if_neg, if_neg]
  · rw [x.2.isPunctIn_apart hin (by decide)]
    decide
  · rw [x.2.isPunctIn_apart hin (by decide)]
    decide

/-! ## Reading a configuration -/

/-- What is read of a configuration when the tokens `us` of an argument stand in front of `body`. -/
def reading (source : String) (us : List Token) (body : List (Int × Token)) (last : Token) :
    Reading where
  args := ((pieces body).modifyHead (us ++ ·)).flatMap fun run => capture source (runSpan run)
  stop := last.span.stop
  count := body.length + 1

theorem reading_nil (source : String) (us : List Token) (last : Token) :
    reading source us [] last = ⟨capture source (runSpan us), last.span.stop, 1⟩ := by
  simp [reading, pieces_nil]

theorem reading_divides (source : String) (us : List Token) (h : divides x = true)
    (body : List (Int × Token)) (last : Token) :
    reading source us (x :: body) last =
      { reading source [] body last with
        args := capture source (runSpan us) ++ (reading source [] body last).args
        count := (reading source [] body last).count + 1 } := by
  have hid : (pieces body).modifyHead (·) = pieces body := by
    cases pieces body <;> rfl
  simp [reading, pieces_cons, h, hid]

theorem reading_goOn (source : String) (us : List Token) (h : ¬ divides x = true)
    (body : List (Int × Token)) (last : Token) :
    reading source us (x :: body) last =
      { reading source (us ++ [x.2]) body last with
        count := (reading source (us ++ [x.2]) body last).count + 1 } := by
  have hhead : ((pieces body).modifyHead (x.2 :: ·)).modifyHead (us ++ ·) =
      (pieces body).modifyHead (us ++ [x.2] ++ ·) := by
    cases pieces body <;> simp
  simp [reading, pieces_cons, h, hhead]

/-- **Reading a configuration** finds where it ends. -/
theorem read?_eq_some_iff {r : Reading} : read? source depth (runSpan us) ts = some r ↔
    ∃ body last, EndsFirst depth ts body last ∧ r = reading source us body last := by
  induction ts generalizing depth us r with
  | nil =>
    rw [read?]
    constructor
    · intro h
      cases h
    · rintro ⟨body, last, ⟨⟨⟨rest, hrest⟩, -, -⟩, -⟩, -⟩
      cases body <;> cases hrest
  | cons t ts ih =>
    -- reading goes on behind the token, where what was read in front makes it `f` of what follows
    have goOn {d : Nat} {us' : List Token} {f : Reading → Reading}
        (hallowed : ¬ Refuses (depth, t) ∧ ¬ Closes (depth, t)) (hd : (d : Int) = depth + t.nesting)
        (hf : ∀ body last, reading source us ((↑depth, t) :: body) last =
          f (reading source us' body last)) :
        (read? source d (runSpan us') ts).map f = some r ↔
          ∃ body last, EndsFirst depth (t :: ts) body last ∧ r = reading source us body last := by
      simp only [endsFirst_cons, Option.map_eq_some_iff, ih, hd]
      constructor
      · rintro ⟨_, ⟨body, last, hends, rfl⟩, rfl⟩
        exact ⟨_, last, ⟨hallowed.1, Or.inr ⟨hallowed.2, body, rfl, hends⟩⟩, (hf body last).symm⟩
      · rintro ⟨_, last, ⟨-, ⟨hcloses, -⟩ | ⟨-, body, rfl, hends⟩⟩, rfl⟩
        · exact absurd hcloses hallowed.2
        · exact ⟨_, ⟨body, last, hends, rfl⟩, (hf body last).symm⟩
    rw [read?_cons]
    split_ifs with hrefuses hcloses hdivides
    · simp [endsFirst_cons, hrefuses]
    · simp [endsFirst_cons, hrefuses, hcloses, and_assoc, reading_nil, eq_comm]
    · have hlevel : (depth : Int) = depth + t.nesting := by
        rw [nesting_of_divides hdivides, Int.add_zero]
      show (read? source depth (runSpan []) ts).map _ = some r ↔ _
      exact goOn ⟨hrefuses, hcloses⟩ hlevel (reading_divides source us hdivides)
    · have hlevel := level_nonneg (Int.natCast_nonneg depth) hrefuses
      rw [← runSpan_append]
      exact goOn ⟨hrefuses, hcloses⟩ (Int.toNat_of_nonneg hlevel) (reading_goOn source us hdivides)

/-! ## The tokens of a configuration -/

theorem map_snd_leveled (level : Int) (ts : List Token) : (leveled level ts).map Prod.snd = ts := by
  induction ts generalizing level with
  | nil => rfl
  | cons t ts ih => rw [leveled, List.map_cons, ih]

theorem Ends.eq_append {level : Int} {last : Token} (h : Ends level ts body last) :
    ∃ rest, ts = body.map Prod.snd ++ last :: rest := by
  obtain ⟨rest, hrest⟩ := h.tokens
  refine ⟨rest.map Prod.snd, ?_⟩
  rw [← map_snd_leveled level ts, hrest, List.map_append, List.map_cons]

/-- Of the closing brackets that end a configuration, there is a first one. -/
theorem Ends.exists_first {level : Int} {last : Token} (h : Ends level ts body last) :
    ∃ body' last', EndsFirst level ts body' last' := by
  by_cases hcloses : ∀ x ∈ body, ¬ Closes x
  · exact ⟨body, last, h, hcloses⟩
  · obtain ⟨rest, hrest⟩ := h.tokens
    cases hfind : body.find? (fun x => Closes x) with
    | none => exact absurd (by simpa using hfind) hcloses
    | some x =>
      obtain ⟨hx, us, vs, rfl, hus⟩ := List.find?_eq_some_iff_append.mp hfind
      obtain ⟨hlast, hlevel⟩ := of_decide_eq_true hx
      refine ⟨us, x.2, ⟨⟨vs ++ (0, last) :: rest, ?_⟩, hlast, ?_⟩, ?_⟩
      · rw [hrest, ← hlevel, List.append_assoc, List.cons_append]
      · exact fun y hy => h.allowed y (List.mem_append_left _ hy)
      · exact fun y hy => by simpa using hus y hy

/-- **Brackets are closed only if they were opened.** -/
theorem Ends.nonneg {level : Int} {last : Token} (hlevel : 0 ≤ level)
    (h : Ends level ts body last) : ∀ x ∈ body, 0 ≤ x.1 := by
  induction body generalizing level ts with
  | nil => nofun
  | cons x body ih =>
    obtain ⟨⟨rest, hrest⟩, hlast, hallowed⟩ := h
    cases ts with
    | nil => cases hrest
    | cons t ts =>
      obtain ⟨rfl, hbehind⟩ := List.cons.inj hrest
      obtain ⟨hx, hallowed⟩ := List.forall_mem_cons.mp hallowed
      have hnext := level_nonneg hlevel hx
      exact List.forall_mem_cons.mpr ⟨hlevel, ih hnext ⟨⟨rest, hbehind⟩, hlast, hallowed⟩⟩

theorem sublist_of_mem_pieces {run : List Token} (h : run ∈ pieces body) :
    run.Sublist (body.map Prod.snd) := by
  induction body generalizing run with
  | nil =>
    obtain rfl := List.mem_singleton.mp h
    exact List.Sublist.refl _
  | cons x body ih =>
    rw [pieces_cons] at h
    split_ifs at h with hdivides
    · rcases List.mem_cons.mp h with rfl | h
      · exact List.nil_sublist _
      · exact (ih h).cons _
    · cases hpieces : pieces body with
      | nil => rw [hpieces] at h; cases h
      | cons first others =>
        rw [hpieces, List.modifyHead_cons] at h
        rcases List.mem_cons.mp h with rfl | h
        · exact (ih (hpieces ▸ List.mem_cons_self)).cons_cons _
        · exact (ih (hpieces ▸ List.mem_cons_of_mem _ h)).cons _

/-- A run that is not empty takes text, in front of what stands behind it. -/
theorem runSpan_bounds {run : List Token} {s : Span} {last : Token}
    (hrun : ∀ u ∈ run, u.start < u.span.stop ∧ u.span.stop ≤ last.start)
    (hord : run.Pairwise fun a b => a.span.stop ≤ b.start) (h : runSpan run = some s) :
    s.start < s.stop ∧ s.stop ≤ last.start := by
  cases run with
  | nil => cases h
  | cons t us =>
    obtain rfl := Option.some.inj h
    have hlast : us.getLastD t ∈ t :: us := List.getLastD_mem_cons
    refine ⟨?_, (hrun _ hlast).2⟩
    show t.start < (us.getLastD t).span.stop
    have ht := (hrun t List.mem_cons_self).1
    have hlt := (hrun _ hlast).1
    rcases List.mem_cons.mp hlast with heq | hmem
    · rwa [heq]
    · have hle := (List.pairwise_cons.mp hord).1 _ hmem
      omega

theorem map_span_capture (source : String) (run : Option Span) :
    (capture source run).map (·.span) = run.toList := by
  cases run <;> rfl

/-- The arguments that are read are the runs of tokens that are not empty. -/
theorem map_span_args (source : String) (body : List (Int × Token)) (last : Token) :
    (reading source [] body last).args.map (·.span) = (pieces body).filterMap runSpan := by
  have hid : (pieces body).modifyHead ([] ++ ·) = pieces body := by
    cases pieces body <;> rfl
  rw [reading]
  dsimp only
  rw [hid, List.map_flatMap]
  simp only [map_span_capture]
  induction pieces body with
  | nil => rfl
  | cons run runs ih =>
    rw [List.flatMap_cons, ih, List.filterMap_cons]
    cases runSpan run <;> rfl

/-! ## Reading in a loop -/

/-- What a loop over the tokens of a configuration keeps: the open brackets, the arguments that are
finished, the first token of the one that is not, and the end of the token read last. -/
structure Loop where
  depth : Nat
  args : List Captured
  first : Option Span
  stop : Nat

namespace Loop

/-- The loop in front of the first token. -/
def start : Loop := ⟨0, [], none, 0⟩

/-- The bytes of the argument that is not finished. -/
def pending (l : Loop) : Option Span := l.first.map fun s => ⟨s.start, l.stop⟩

/-- The arguments, with the one that ends here; a failure if its text cannot be cut out. -/
def finish? (source : String) (l : Loop) : Option (List Captured) :=
  match l.pending with
  | none => some l.args
  | some s => (s.text? source).map fun text => l.args ++ [⟨s, text⟩]

/-- The token taken into the argument, with `depth` open brackets behind it. -/
def take (l : Loop) (depth : Nat) (t : Token) : Loop :=
  { l with depth, first := l.first.or (some t.span), stop := t.span.stop }

/-- The number of open brackets less one; a failure if there are none. -/
def lower? (depth : Nat) : Option Nat := if 0 < depth then some (depth - 1) else none

/-- The loop from the token at an index on. The outer `none` is a failure, and `some none` says that
this is no launch configuration. -/
def read? (source : String) (opening : Token) (l : Loop) (index : Nat) :
    List Token → Option (Option (Nat × LaunchConfig))
  | [] => some none
  | t :: ts =>
    if t.isPunctIn ["(", "[", "\x7b"] then
      read? source opening (l.take (l.depth + 1) t) (index + 1) ts
    else if t.isPunctIn [")", "]", "\x7d"] then
      if l.depth = 0 then some none
      else
        match lower? l.depth with
        | none => none
        | some depth => read? source opening (l.take depth t) (index + 1) ts
    else if t.isPunct ";" then some none
    else if t.isPunct ">>>" ∧ l.depth = 0 then
      (l.finish? source).map fun args => some (index, ⟨⟨opening.start, t.span.stop⟩, args⟩)
    else if t.isPunct "," ∧ l.depth = 0 then
      match l.finish? source with
      | none => none
      | some args => read? source opening { l with args, first := none } (index + 1) ts
    else read? source opening (l.take l.depth t) (index + 1) ts

theorem pending_take (l : Loop) (depth : Nat) (t : Token) :
    (l.take depth t).pending = extend l.pending t := by
  unfold pending take extend
  cases l.first <;> rfl

theorem finish?_eq {l : Loop} (hrun : RunEnds source l.pending ts) :
    l.finish? source = some (l.args ++ capture source l.pending) := by
  unfold finish? capture
  cases hl : l.pending with
  | none => simp
  | some s =>
    obtain ⟨text, htext⟩ := Option.isSome_iff_exists.mp (hrun s hl).1
    have hmem : Captured.mk s (Text.between source s.start s.stop) ∈ capture source l.pending := by
      rw [hl]
      exact List.mem_singleton_self _
    have hcut := text?_of_mem_capture hrun hmem
    dsimp only at hcut ⊢
    rw [hcut]
    rfl

/-- What the loop makes of what is read from here on. -/
def found (opening : Token) (l : Loop) (index : Nat) (r : Reading) : Nat × LaunchConfig :=
  (index + r.count - 1, ⟨⟨opening.start, r.stop⟩, l.args ++ r.args⟩)

theorem found_next {opening : Token} {l l' : Loop} {r : Reading} {args : List Captured}
    (hargs : l'.args ++ r.args = l.args ++ args) (index : Nat) :
    l'.found opening (index + 1) r =
      l.found opening index { r with args, count := r.count + 1 } := by
  have hindex : index + 1 + r.count - 1 = index + (r.count + 1) - 1 := by omega
  simp only [found, hargs, hindex]

/-- **The loop never fails**: it counts down only what it has counted up, and cuts arguments out
between tokens. -/
theorem read?_eq {opening : Token} {l : Loop} {index : Nat}
    (hts : ∀ t ∈ ts, (t.span.text? source).isSome)
    (hord : ts.Pairwise fun a b => a.span.stop ≤ b.start) (hrun : RunEnds source l.pending ts) :
    l.read? source opening index ts =
      some ((LaunchConfig.read? source l.depth l.pending ts).map (l.found opening index)) := by
  induction ts generalizing l index with
  | nil => rfl
  | cons t ts ih =>
    obtain ⟨ht, hts⟩ := List.forall_mem_cons.mp hts
    obtain ⟨hbehind, hord⟩ := List.pairwise_cons.mp hord
    have htake (depth : Nat) : (l.take depth t).read? source opening (index + 1) ts = some
        ((LaunchConfig.read? source depth (extend l.pending t) ts).map fun r =>
          l.found opening index { r with count := r.count + 1 }) := by
      rw [ih hts hord ((l.pending_take depth t).symm ▸ runEnds_extend ht hbehind hrun),
        pending_take]
      exact congrArg (fun f => some (Option.map f _)) (funext fun r => found_next rfl index)
    have hfinish := finish?_eq hrun
    rw [read?, LaunchConfig.read?]
    dsimp only
    split_ifs with hopen hclose hdepth hsemi hshut hcomma
    · rw [htake, Option.map_map]
      rfl
    · rfl
    · rw [lower?, if_pos (Nat.pos_of_ne_zero hdepth)]
      dsimp only
      rw [htake, Option.map_map]
      rfl
    · rfl
    · rw [hfinish]
      rfl
    · rw [hfinish]
      dsimp only
      rw [ih hts hord runEnds_none, Option.map_map]
      refine congrArg (fun f => some (Option.map f _)) (funext fun r => found_next ?_ index)
      exact List.append_assoc _ _ _
    · rw [htake, Option.map_map]
      rfl

end Loop

/-! ## What is recognised -/

/-- The configuration that opens at `t` and closes at `last`, with `body` between them. -/
structure IsDivided (source : String) (t : Token) (body : List (Int × Token)) (last : Token)
    (c : LaunchConfig) : Prop where
  span : c.span = ⟨t.start, last.span.stop⟩
  /-- The arguments are the runs of tokens between commas that are not empty. -/
  args : c.args.map (·.span) = (pieces body).filterMap runSpan
  text : ∀ arg ∈ c.args, arg.span.text? source = some arg.text
  inside : ∀ arg ∈ c.args, t.span.stop ≤ arg.span.start ∧ arg.span.start < arg.span.stop ∧
    arg.span.stop ≤ last.start
  ordered : c.args.Pairwise fun a b => a.span.stop ≤ b.span.start
  /-- No bracket is closed that was not opened. -/
  levels : ∀ x ∈ body, 0 ≤ x.1

theorem isDivided_of_read? {last : Token} {r : Reading}
    (hmem : ∀ u ∈ t :: ts, u ∈ tokenize source)
    (hord : (t :: ts).Pairwise fun a b => a.span.stop ≤ b.start)
    (hread : read? source 0 none ts = some r) (hends : EndsFirst 0 ts body last)
    (hr : r = reading source [] body last) :
    IsDivided source t body last ⟨⟨t.start, r.stop⟩, r.args⟩ := by
  obtain ⟨hbehind, hord⟩ := List.pairwise_cons.mp hord
  obtain ⟨-, hmem⟩ := List.forall_mem_cons.mp hmem
  have hts : ∀ u ∈ ts, (u.span.text? source).isSome := fun u hu => text?_of_mem_tokenize (hmem u hu)
  have hrow : Row t.span.stop r :=
    row_of_read? hts hord runEnds_none hbehind (fun _ hs => nomatch hs) hread
  have hargs : r.args.map (·.span) = (pieces body).filterMap runSpan := by
    rw [hr, map_span_args]
  obtain ⟨rest, hsplit⟩ := hends.eq_append
  rw [hsplit] at hord
  obtain ⟨hbody, -, hlast⟩ := List.pairwise_append.mp hord
  refine ⟨by rw [hr]; rfl, hargs, (reads_of_read? hts (hsplit ▸ hord) runEnds_none hread).1, ?_,
    hrow.ordered, hends.nonneg (Int.le_refl 0)⟩
  intro arg harg
  have hspan : arg.span ∈ (pieces body).filterMap runSpan := hargs ▸ List.mem_map_of_mem harg
  obtain ⟨run, hrun, hrunSpan⟩ := List.mem_filterMap.mp hspan
  have hsub := sublist_of_mem_pieces hrun
  refine ⟨hrow.low arg harg, runSpan_bounds (fun u hu => ?_) (hbody.sublist hsub) hrunSpan⟩
  have hu' := hsub.subset hu
  have huts : u ∈ ts := hsplit ▸ List.mem_append_left _ hu'
  exact ⟨Lexer.start_lt_stop_of_mem_tokens (hmem u huts), hlast u hu' last List.mem_cons_self⟩

/-- What is found at an opening bracket. -/
theorem at?_of_opening (source : String) (hopen : t.isPunct "<<<" = true) (ts : List Token) :
    BlankedSite.at? source t ts =
      match read? source 0 none ts with
      | some r => (some (.launch ⟨⟨t.start, r.stop⟩, r.args⟩), r.count)
      | none => (none, 0) := by
  have hkind : t.kind ≠ .identifier := by
    simp only [Token.isPunct, Bool.and_eq_true, decide_eq_true_eq] at hopen
    rw [hopen.1]
    decide
  unfold BlankedSite.at?
  exact (if_neg hkind).trans (if_pos hopen)

/-- **Launch configurations are recognised and divided exactly.** -/
theorem recognised_exactly {opening : Nat} (ht : (tokenize source)[opening]? = some t)
    (hopen : t.isPunct "<<<" = true) :
    let ts := (tokenize source).drop (opening + 1)
    ∃ found : Option (Nat × LaunchConfig),
      Loop.start.read? source t (opening + 1) ts = some found ∧
      BlankedSite.at? source t ts =
        (found.map fun f => .launch f.2, (found.map fun f => f.1 - opening).getD 0) ∧
      (found.isSome ↔ ∃ body last, Ends 0 ts body last) ∧
      ∀ close c, found = some (close, c) → ∃ body last, EndsFirst 0 ts body last ∧
        close = opening + 1 + body.length ∧ (tokenize source)[close]? = some last ∧
        IsDivided source t body last c := by
  intro ts
  have hdrop : (tokenize source).drop opening = t :: ts := by
    obtain ⟨hlt, rfl⟩ := List.getElem?_eq_some_iff.mp ht
    exact List.drop_eq_getElem_cons hlt
  have hsuffix : (t :: ts) <:+ tokenize source := hdrop ▸ List.drop_suffix _ _
  have hmem : ∀ u ∈ t :: ts, u ∈ tokenize source := fun u hu => hsuffix.subset hu
  have hord : (t :: ts).Pairwise fun a b => a.span.stop ≤ b.start :=
    Lexer.pairwise_tokens.sublist hsuffix.sublist
  have hloop : Loop.start.read? source t (opening + 1) ts =
      some ((read? source 0 none ts).map (Loop.start.found t (opening + 1))) :=
    Loop.read?_eq (fun u hu => text?_of_mem_tokenize (hmem u (List.mem_cons_of_mem _ hu)))
      hord.tail runEnds_none
  have hiff (r : Reading) : read? source 0 none ts = some r ↔
      ∃ body last, EndsFirst 0 ts body last ∧ r = reading source [] body last := by
    show read? source 0 (runSpan []) ts = some r ↔ _
    exact read?_eq_some_iff
  refine ⟨_, hloop, ?_, ?_, ?_⟩
  · rw [at?_of_opening source hopen]
    cases read? source 0 none ts with
    | none => rfl
    | some r =>
      simp [Loop.found, Loop.start]
  · rw [Option.isSome_map, Option.isSome_iff_exists]
    simp only [hiff]
    constructor
    · rintro ⟨_, body, last, hends, -⟩
      exact ⟨body, last, hends.toEnds⟩
    · rintro ⟨body, last, hends⟩
      obtain ⟨body, last, hends⟩ := hends.exists_first
      exact ⟨_, body, last, hends, rfl⟩
  · intro close c hfound
    obtain ⟨r, hread, hc⟩ := Option.map_eq_some_iff.mp hfound
    obtain ⟨body, last, hends, hr⟩ := (hiff r).mp hread
    obtain ⟨hclose, rfl⟩ := Prod.mk.inj hc
    obtain ⟨rest, hsplit⟩ := hends.eq_append
    have hclose : close = opening + 1 + body.length := by
      rw [← hclose, hr]
      rfl
    refine ⟨body, last, hends, hclose, ?_, isDivided_of_read? hmem hord hread hends hr⟩
    rw [hclose, ← List.getElem?_drop]
    show ts[body.length]? = some last
    rw [hsplit]
    simp

/-- A bracket of three that closes nothing, an argument that is empty, and commas and brackets in
arguments. -/
theorem recognised_exactly_crowded :
    let source := "k<<<dim3(n, 1), , b[x>>>1]>>>(a);"
    let t : Token := ⟨.punct, 1, "<<<"⟩
    let ts := (tokenize source).drop 2
    (tokenize source)[1]? = some t ∧ t.isPunct "<<<" = true ∧
    BlankedSite.at? source t ts =
      (some (.launch ⟨⟨1, 29⟩, [⟨⟨4, 14⟩, "dim3(n, 1)"⟩, ⟨⟨18, 26⟩, "b[x>>>1]"⟩]⟩), 15) ∧
    ∃ body last, Ends 0 ts body last := by
  intro source t ts
  have ht : (tokenize source)[1]? = some t := by decide +kernel
  have hopen : t.isPunct "<<<" = true := by decide
  have hat : BlankedSite.at? source t ts =
      (some (.launch ⟨⟨1, 29⟩, [⟨⟨4, 14⟩, "dim3(n, 1)"⟩, ⟨⟨18, 26⟩, "b[x>>>1]"⟩]⟩), 15) := by
    decide +kernel
  obtain ⟨found, -, hfound, hends, -⟩ := recognised_exactly ht hopen
  obtain ⟨hsome, -⟩ := Prod.mk.inj (hat.symm.trans hfound)
  cases found with
  | none => cases hsome
  | some f => exact ⟨ht, hopen, hat, hends.mp rfl⟩

end LaunchConfig

end CudaToHip
