import CudaToHip.CommandLine.Run
import CudaToHip.Proofs.Plan.Fold
import CudaToHip.Proofs.Replacement.Overlap
import CudaToHip.Proofs.Scan.Directives
import CudaToHip.Proofs.Scan.Kernels
import CudaToHip.Proofs.Scan.TwoWalks

/-!
# No two edits of a conversion collide

The edits that the two scans of a regular tree give agree pairwise (`agree_of_regular`): each is an
edit in a directive, the parameter of a kernel, or the exchange of one site of the tree, and these
agree among themselves and with each other. The conflict policy has no say in which edits are
proposed (`discovered_withPolicy`), so a plan accepts the same edits under both policies, and what
it turns away is what it has accepted already (`agree_and_policies_accept_alike`).
-/

namespace CudaToHip

open CudaToHip.Tree ReplacementSet Constructs

namespace CudaFrontEnd

variable {rules : Rules} {config : Config} {source : String} {tree : Node} {view : View}
  {e e₁ e₂ : Edit}

/-- The edits that a scan of a tree under a view gives. -/
def editsIn (rules : Rules) (source : String) (tree : Node) (view : View) : List Edit :=
  rules.editsForAll (scanTree rules.config view source tree).found

namespace Regular

theorem walkable (h : Regular config source tree) :
    Walkable (context config source tree) (.root tree) where
  sound := h.wellFormed
  launches := h.launches
  neutral := rfl

/-- No edit begins in a list that reads as empty where a match was found. -/
theorem vacant_of_offset (h : Regular config source tree) {m : Match}
    (hm : m ∈ (scanTree config view source tree).found) (hoff : m.offset = e.span.start) :
    ∀ k ∈ (context config source tree).kernels, LaunchRule.isVacant k.params.text = true →
      e.span.start < k.params.span.start ∨ k.params.span.stop ≤ e.span.start :=
  fun k hk hv => hoff ▸ h.vacant view k hk hv m hm

end Regular

/-- An edit in a directive touches that directive alone. -/
theorem touches_of_directive (h : Regular config source tree)
    (he : e ∈ rules.editsForAll (Directives.scan source tree)) :
    ∃ a, Touches (context config source tree) (.root tree) a e ∧
      ∃ m ∈ Directives.scan source tree, m.offset = e.span.start := by
  obtain ⟨d, hd, m, hmd, hem, hm⟩ := @Directives.exists_of_scan rules
    (context config source tree) e tree he
  obtain ⟨hreach, hdir⟩ := Site.of_mem_outermost hd
  rw [Directives.isDirective_eq] at hdir
  obtain ⟨hin, hlt, hoff⟩ := Directives.inside_of_ofSite
    (h.walkable.sound.of_reaches hreach) hmd hem
  have hkind : d.kind.isExchanged = true := by
    cases hk : d.kind <;> rw [hk] at hdir <;> first | rfl | cases hdir
  have hpure : ∀ t, d.Reaches t → (context config source tree).declaresKernel t = false :=
    fun t ht => declaresKernel_eq_false ((h.wellFormed d hreach).directives hdir t ht).2
  exact ⟨d, ⟨hreach, hkind, hpure, hin, hlt⟩, m, hm, hoff⟩

theorem touches_of_exchanges {ctx : Context} {s a : Site} (h : Exchanges ctx s a e) :
    Touches ctx s a e where
  reach := h.clear.1
  kind := h.kind
  pure := fun t ht => (h.pure t ht).2
  inside := h.span ▸ Span.contains_self _
  lt := h.span ▸ h.lt

/-- What the edits of a scan are. -/
theorem cases_of_mem_editsIn (h : Regular rules.config source tree)
    (he : e ∈ editsIn rules source tree view) :
    e ∈ rules.editsForAll (Directives.scan source tree) ∨
    IsParameter rules (context rules.config source tree) e ∨
    (e ∈ rules.editsForAll (Constructs.scan (context rules.config source tree) view tree) ∧
      ∃ a, Exchanges (context rules.config source tree) (.root tree) a e ∧
        ∃ m ∈ (scanTree rules.config view source tree).found, m.offset = e.span.start) := by
  obtain ⟨m, hm, hem⟩ := Rules.mem_editsForAll.mp he
  rcases List.mem_append.mp hm with hm | hm
  · exact Or.inl (Rules.mem_editsForAll.mpr ⟨m, hm, hem⟩)
  · -- the tree was searched
    have hfound : (scanTree rules.config view source tree).found =
        Directives.scan source tree ++
          Constructs.scan (context rules.config source tree) view tree := by
      show _ ++ (if _ then _ else _) = _
      split at hm
      · rename_i hsearch
        rw [if_pos hsearch]
      · cases hm
    have hmem : m ∈ Constructs.scan (context rules.config source tree) view tree := by
      split at hm
      · exact hm
      · cases hm
    have he' : e ∈ rules.editsForAll
        (Constructs.scan (context rules.config source tree) view tree) :=
      Rules.mem_editsForAll.mpr ⟨m, hmem, hem⟩
    rcases accounted_walk rfl h.walkable e he' with hp | ⟨a, ha, m', hm', hoff⟩
    · exact Or.inr (Or.inl hp)
    · refine Or.inr (Or.inr ⟨he', a, ha, m', ?_, ?_⟩)
      · rw [hfound]
        exact List.mem_append_right _ hm'
      · rw [hoff, ha.span]

/-- **The parameter of a kernel agrees with every edit.** -/
theorem agree_of_isParameter (h : Regular rules.config source tree)
    (hp : IsParameter rules (context rules.config source tree) e₁)
    (he : e₂ ∈ editsIn rules source tree view) : Agree e₁ e₂ := by
  obtain ⟨k, hk, rfl⟩ := hp
  have hsound := h.walkable.sound
  rcases cases_of_mem_editsIn h he with hd | ⟨k', hk', rfl⟩ | ⟨-, a, ha, m, hm, hoff⟩
  · obtain ⟨a, ha, m, hm, hoff⟩ := touches_of_directive h hd
    have hfound : m ∈ (scanTree rules.config view source tree).found := List.mem_append_left _ hm
    exact KernelDecl.agree_of_parameter_of_touches hsound rfl hk ha
      (h.vacant_of_offset hfound hoff k hk)
  · exact KernelDecl.agree_of_parameters hsound rfl hk hk'
  · exact KernelDecl.agree_of_parameter_of_touches hsound rfl hk (touches_of_exchanges ha)
      (h.vacant_of_offset hm hoff k hk)

/-- **The edits of two scans agree.** -/
theorem agree_of_regular (h : Regular rules.config source tree) {view₁ view₂ : View}
    (h₁ : e₁ ∈ editsIn rules source tree view₁) (h₂ : e₂ ∈ editsIn rules source tree view₂) :
    Agree e₁ e₂ := by
  have hsound := h.walkable.sound
  rcases cases_of_mem_editsIn h h₁ with hd₁ | hp₁ | ⟨hw₁, a, ha, -⟩
  · rcases cases_of_mem_editsIn h h₂ with hd₂ | hp₂ | ⟨-, b, hb, -⟩
    · exact Directives.agree_of_directives hsound hd₁ hd₂
    · exact (agree_of_isParameter h hp₂ h₁).symm
    · exact Directives.agree_of_directive_of_exchanges hsound hd₁ hb
  · exact agree_of_isParameter h hp₁ h₂
  · rcases cases_of_mem_editsIn h h₂ with hd₂ | hp₂ | ⟨hw₂, b, hb, -⟩
    · exact (Directives.agree_of_directive_of_exchanges hsound hd₂ ha).symm
    · exact (agree_of_isParameter h hp₂ h₁).symm
    · rcases concur_walk rfl h.walkable e₁ hw₁ e₂ hw₂ with hp | hp | hagree
      · exact agree_of_isParameter h hp h₂
      · exact (agree_of_isParameter h hp h₁).symm
      · exact hagree

end CudaFrontEnd

/-! ## Conflict policies -/

/-- The configuration under another conflict policy. -/
def Config.withPolicy (config : Config) (policy : ConflictPolicy) : Config :=
  { config with conflictPolicy := policy }

namespace Rules

variable (symbols : SymbolTable) (config : Config) (policy : ConflictPolicy)

mutual

/-- The edits of a match do not depend on the policy. -/
theorem editsFor_withPolicy (m : Match) :
    editsFor ⟨symbols, config.withPolicy policy⟩ m = editsFor ⟨symbols, config⟩ m := by
  cases m with
  | launch l nested =>
    rw [editsFor, editsFor, editsForAll_withPolicy nested]
    rfl
  | _ => rfl

theorem editsForAll_withPolicy (ms : List Match) :
    editsForAll ⟨symbols, config.withPolicy policy⟩ ms = editsForAll ⟨symbols, config⟩ ms := by
  cases ms with
  | nil => rfl
  | cons m ms => rw [editsForAll, editsForAll, editsFor_withPolicy m, editsForAll_withPolicy ms]

end

end Rules

namespace Converter

variable {grammar : Grammar} {symbols : SymbolTable} {config : Config} {files : List SourceFile}
  {p : Path} {source : String} {tree : Node} {e : Edit}

/-- **What is proposed does not depend on the policy.** -/
theorem discovered_withPolicy (policy : ConflictPolicy) :
    (cuda grammar symbols (config.withPolicy policy)).discovered files p =
      (cuda grammar symbols config).discovered files p := by
  have hedits : Rules.editsFor ⟨symbols, config.withPolicy policy⟩ =
      Rules.editsFor ⟨symbols, config⟩ := by
    funext m
    exact Rules.editsFor_withPolicy symbols config policy m
  show (View.passOrder.flatMap fun view => (files.filter (·.path.same p)).flatMap fun f =>
    (found (CudaFrontEnd.scan grammar config f view)).flatMap
      (Rules.editsFor ⟨symbols, config.withPolicy policy⟩)) = _
  rw [hedits]
  rfl

/-- What is discovered for a path are edits of the scans of its text. -/
theorem mem_editsIn_of_mem_discovered (hparse : grammar.parse? (neutralize source).code = some tree)
    (hfiles : ∀ f ∈ files, f.path.same p = true → f.text = source)
    (he : e ∈ (cuda grammar symbols config).discovered files p) :
    ∃ view, e ∈ CudaFrontEnd.editsIn ⟨symbols, config⟩ source tree view := by
  obtain ⟨view, -, he⟩ := List.mem_flatMap.mp he
  obtain ⟨f, hf, he⟩ := List.mem_flatMap.mp he
  obtain ⟨hmem, hsame⟩ := List.mem_filter.mp hf
  have htext : f.text = source := hfiles f hmem hsame
  refine ⟨view, ?_⟩
  obtain ⟨m, hm, hem⟩ := List.mem_flatMap.mp he
  have hscan : m ∈ found (CudaFrontEnd.scan grammar config f view) := hm
  unfold CudaFrontEnd.scan at hscan
  dsimp only at hscan
  rw [htext, hparse] at hscan
  split at hscan
  · cases hscan
  · exact Rules.mem_editsForAll.mpr ⟨m, hscan, hem⟩

end Converter

namespace CudaFrontEnd

/-- The edits of the host scan of a tree and, behind them, those of the device scan. -/
def edits (rules : Rules) (source : String) (tree : Node) : List Edit :=
  View.passOrder.flatMap (editsIn rules source tree)

/-- What a plan of the files holds for a path, under the given policy. -/
def outcome (grammar : Grammar) (symbols : SymbolTable) (config : Config) (files : List SourceFile)
    (p : Path) (policy : ConflictPolicy) : Option ReplacementSet :=
  ((Converter.cuda grammar symbols (config.withPolicy policy)).plan files).files.get? p

/-- **No two edits collide.** For a regular tree of a source, any two edits of the host scan and the
device scan have the same span and text, or spans that do not overlap. So wherever a batch of files
holds this source, both policies accept the same edits and turn away the same ones, all of them
duplicates, and no accepted edits overlap. -/
theorem edits_never_collide {config : Config} {source : String} {tree : Node}
    (h : Regular config source tree) (symbols : SymbolTable) (grammar : Grammar)
    (hparse : grammar.parse? (neutralize source).code = some tree) (files : List SourceFile)
    (p : Path) (hfiles : ∀ f ∈ files, f.path.same p = true → f.text = source) :
    (∀ a ∈ edits ⟨symbols, config⟩ source tree, ∀ b ∈ edits ⟨symbols, config⟩ source tree,
      (a.span = b.span ∧ a.newText = b.newText) ∨ a.span.overlaps b.span = false) ∧
    (outcome grammar symbols config files p .exactSpan).map (·.edits) =
      (outcome grammar symbols config files p .overlap).map (·.edits) ∧
    (outcome grammar symbols config files p .exactSpan).map (·.conflicts) =
      (outcome grammar symbols config files p .overlap).map (·.conflicts) ∧
    ∀ policy s, outcome grammar symbols config files p policy = some s →
      (∀ c ∈ s.conflicts, c.isDuplicate = true) ∧ s.overlappingPairs = [] := by
  have hagree {a b : Edit} {view₁ view₂ : View}
      (ha : a ∈ editsIn ⟨symbols, config⟩ source tree view₁)
      (hb : b ∈ editsIn ⟨symbols, config⟩ source tree view₂) : Agree a b :=
    @agree_of_regular ⟨symbols, config⟩ source tree a b h view₁ view₂ ha hb
  -- what is proposed for the path, under either policy
  let proposals := (Converter.cuda grammar symbols config).discovered files p
  have hproposals : ∀ a ∈ proposals, ∀ b ∈ proposals, Agree a b := by
    intro a ha b hb
    obtain ⟨view₁, h₁⟩ := Converter.mem_editsIn_of_mem_discovered hparse hfiles ha
    obtain ⟨view₂, h₂⟩ := Converter.mem_editsIn_of_mem_discovered hparse hfiles hb
    exact hagree h₁ h₂
  have hset (policy : ConflictPolicy) : outcome grammar symbols config files p policy =
      if proposals = [] then none else some ((empty policy).proposeAll proposals) := by
    unfold outcome
    rw [Converter.get?_plan, Converter.discovered_withPolicy]
    rfl
  obtain ⟨hedits, hlog, -⟩ := proposeAll_of_agree hproposals .exactSpan .overlap
  refine ⟨?_, ?_, ?_, ?_⟩
  · intro a ha b hb
    obtain ⟨view₁, -, h₁⟩ := List.mem_flatMap.mp ha
    obtain ⟨view₂, -, h₂⟩ := List.mem_flatMap.mp hb
    exact hagree h₁ h₂
  · rw [hset, hset]
    split_ifs
    · rfl
    · simp [hedits]
  · rw [hset, hset]
    split_ifs
    · rfl
    · simp [hlog]
  · intro policy s hs
    rw [hset] at hs
    split_ifs at hs
    obtain rfl := Option.some.inj hs
    obtain ⟨hsame, -, hduplicate⟩ := proposeAll_of_agree hproposals policy .overlap
    refine ⟨hduplicate, ?_⟩
    unfold overlappingPairs
    rw [hsame]
    exact pairs_eq_nil_of_noOverlap (noOverlap_run proposals)

/-! ### A source that both scans find edits in -/

/-- A function for host and device that launches a kernel, and the kernel. -/
def hdSource : String :=
  "__host__ __device__ void hd() \x7b k<<<1,1>>>(cudaSuccess); \x7d\n" ++
  "__global__ void k(int a) \x7b\x7d\n"

/-- A named node of a preorder list. -/
def namedRow (kind : Kind) (field : Option Field) (start stop childCount : Nat) : Node.Row :=
  ⟨⟨kind, field, true, false, false, false, ⟨start, stop⟩⟩, childCount⟩

/-- A token of a preorder list, one byte long. -/
def tokenRow (name : String) (start : Nat) : Node.Row :=
  ⟨⟨.other name, none, false, false, false, false, ⟨start, start + 1⟩⟩, 0⟩

/-- A token of a preorder list, as long as its text. -/
def wordRow (text : String) (start : Nat) : Node.Row :=
  ⟨⟨.other text, none, false, false, false, false, .ofLength start text.utf8ByteSize⟩, 0⟩

/-- The tree of `hdSource`. -/
def hdTree : Node :=
  (Node.ofPreorder? [
    namedRow (.other "translation_unit") none 20 87 2,
    namedRow .functionDefinition none 20 58 3,
    namedRow (.other "primitive_type") (some .type) 20 24 0,
    namedRow .functionDeclarator (some .declarator) 25 29 2,
    namedRow .identifier (some .declarator) 25 27 0,
    namedRow .parameterList (some .parameters) 27 29 2, tokenRow "(" 27, tokenRow ")" 28,
    namedRow (.other "compound_statement") (some .body) 30 58 3, tokenRow "\x7b" 30,
    namedRow (.other "expression_statement") none 32 56 2,
    namedRow .callExpression none 32 55 2,
    namedRow .identifier (some .function) 32 33 0,
    namedRow .argumentList (some .arguments) 42 55 3, tokenRow "(" 42,
    namedRow .identifier none 43 54 0, tokenRow ")" 54,
    tokenRow ";" 55,
    tokenRow "\x7d" 57,
    namedRow .functionDefinition none 70 86 3,
    namedRow (.other "primitive_type") (some .type) 70 74 0,
    namedRow .functionDeclarator (some .declarator) 75 83 2,
    namedRow .identifier (some .declarator) 75 76 0,
    namedRow .parameterList (some .parameters) 76 83 3, tokenRow "(" 76,
    namedRow .parameterDeclaration none 77 82 2,
    namedRow (.other "primitive_type") (some .type) 77 80 0,
    namedRow .identifier (some .declarator) 81 82 0, tokenRow ")" 82,
    namedRow (.other "compound_statement") (some .body) 84 86 2, tokenRow "\x7b" 84,
    tokenRow "\x7d" 85]).getD default

/-- A grammar that knows this one source. -/
def hdGrammar : Grammar where
  parse? code := if code = (neutralize hdSource).code then some hdTree else none

/-- Both scans find the launch, so that half of the edits are turned away. -/
theorem edits_never_collide_host_device :
    let files : List SourceFile := [⟨⟨"hd.cu"⟩, hdSource⟩]
    Regular .default hdSource hdTree ∧
    hdGrammar.parse? (neutralize hdSource).code = some hdTree ∧
    (∀ a ∈ edits ⟨.builtin, .default⟩ hdSource hdTree,
      ∀ b ∈ edits ⟨.builtin, .default⟩ hdSource hdTree,
        (a.span = b.span ∧ a.newText = b.newText) ∨ a.span.overlaps b.span = false) ∧
    (outcome hdGrammar .builtin .default files ⟨"hd.cu"⟩ .exactSpan).map (·.edits) =
      (outcome hdGrammar .builtin .default files ⟨"hd.cu"⟩ .overlap).map (·.edits) ∧
    (outcome hdGrammar .builtin .default files ⟨"hd.cu"⟩ .exactSpan).map (·.conflicts) =
      (outcome hdGrammar .builtin .default files ⟨"hd.cu"⟩ .overlap).map (·.conflicts) ∧
    ∀ policy s, outcome hdGrammar .builtin .default files ⟨"hd.cu"⟩ policy = some s →
      (∀ c ∈ s.conflicts, c.isDuplicate = true) ∧ s.overlappingPairs = [] := by
  intro files
  have hregular : Regular .default hdSource hdTree := by decide +kernel
  have hparse : hdGrammar.parse? (neutralize hdSource).code = some hdTree := if_pos rfl
  have hfiles : ∀ f ∈ files, f.path.same ⟨"hd.cu"⟩ = true → f.text = hdSource := by
    intro f hf _
    rw [List.mem_singleton.mp hf]
  exact ⟨hregular, hparse,
    edits_never_collide hregular .builtin hdGrammar hparse files ⟨"hd.cu"⟩ hfiles⟩

end CudaFrontEnd

end CudaToHip
