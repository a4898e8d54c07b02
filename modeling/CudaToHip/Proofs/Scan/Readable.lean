import CudaToHip.Proofs.Scan.Agreement
import CudaToHip.Proofs.Token.Range

/-!
# Directives that can be read

A scan cuts the target of an include directive out of its delimiters, one byte at each end, and
reads the body of a macro token by token. It breaks off at a target that begins or ends with a
character of more than one byte, and at a body that ends between the letters of a raw string and
their quote. `Directives.Readable` excludes both. Directives that the C++ grammar reads in full are
readable: a target stands in quotes or in angle brackets, and a body ends in front of a line break,
of a comment or of nothing.

* `Directives.scan?_eq_some_iff`: the scan of a tree breaks off exactly if one of its directives is
  not readable, and otherwise finds what is to be found.
* `CudaFrontEnd.breaksOff_iff`: the same for a file.
-/

namespace CudaToHip

open CudaToHip.Tree

namespace Directives

open Text

variable {source text target : String} {d c : Site} {ms : List Match} {tree : Node}

/-! ## Targets -/

/-- A text of one byte is one character. -/
theorem exists_of_utf8ByteSize_eq_one {s : String} (h : s.utf8ByteSize = 1) :
    ∃ c, s.toList = [c] ∧ c.utf8Size = 1 := by
  rw [← byteLength_toList] at h
  cases hs : s.toList with
  | nil => rw [hs] at h; cases h
  | cons c cs =>
    have hc := c.utf8Size_pos
    rw [hs, byteLength] at h
    cases cs with
    | nil => exact ⟨c, rfl, h⟩
    | cons d ds =>
      have hd := d.utf8Size_pos
      rw [byteLength] at h
      omega

/-- The text begins and ends with characters of one byte. -/
def Delimited (text : String) : Prop :=
  ∃ c cs d, text.toList = c :: cs ++ [d] ∧ c.utf8Size = 1 ∧ d.utf8Size = 1

theorem inner?_eq_some_iff : inner? text = some target ↔ Delimited text ∧ target = inner text := by
  rw [inner?, slice?_eq_some_iff]
  constructor
  · rintro ⟨u, v, rfl, hu, hv⟩
    have hsize : (u ++ target ++ v).utf8ByteSize = 1 + target.utf8ByteSize + v.utf8ByteSize := by
      rw [String.utf8ByteSize_append, String.utf8ByteSize_append, ← hu]
    obtain ⟨c, hc, hc1⟩ := exists_of_utf8ByteSize_eq_one hu.symm
    obtain ⟨d, hd, hd1⟩ := exists_of_utf8ByteSize_eq_one (s := v) (by omega)
    have hlist : (u ++ target ++ v).toList = c :: target.toList ++ [d] := by
      rw [String.toList_append, String.toList_append, hc, hd]
      rfl
    refine ⟨⟨c, _, d, hlist, hc1, hd1⟩, ?_⟩
    rw [inner, hlist, List.cons_append, List.drop_one, List.tail_cons, List.dropLast_concat,
      String.ofList_toList]
  · rintro ⟨⟨c, cs, d, hlist, hc, hd⟩, rfl⟩
    have hinner : inner text = String.ofList cs := by
      rw [inner, hlist, List.cons_append, List.drop_one, List.tail_cons, List.dropLast_concat]
    have hsize : text.utf8ByteSize = 1 + (String.ofList cs).utf8ByteSize + 1 := by
      rw [← byteLength_toList, hlist, byteLength_append, byteLength, byteLength, byteLength, hc, hd,
        ← byteLength_toList, String.toList_ofList]
    refine ⟨String.ofList [c], String.ofList [d], ?_, ?_, ?_⟩
    · rw [hinner, ← String.toList_inj]
      simp [hlist]
    · simp [hc]
    · rw [hinner, hsize]
      omega

/-- **The target of an include directive** that is no macro: it stands at `path` and reads
`text`. -/
structure HasTarget (source : String) (d path : Site) (text : String) : Prop where
  child : d.child? .path = some path
  kind : path.kind = .systemHeader ∨ path.kind = .stringLiteral
  reads : path.span.text? source = some text
  size : 2 ≤ text.utf8ByteSize

/-- An include directive has a target or gives no match. -/
theorem target_cases (source : String) (d : Site) :
    (∃ path text, HasTarget source d path text ∧
      ofInclude source d = [.inclusion (inner text) (path.kind = .systemHeader) path.span true] ∧
      ofInclude? source d = (inner? text).map fun target =>
        [.inclusion target (path.kind = .systemHeader) path.span true]) ∨
    (∀ path text, ¬ HasTarget source d path text) ∧
      ofInclude source d = [] ∧ ofInclude? source d = some [] := by
  by_cases h : ∃ path text, HasTarget source d path text
  · obtain ⟨path, text, h⟩ := h
    refine Or.inl ⟨path, text, h, ?_, ?_⟩
    · rcases h.kind with hk | hk
      all_goals simp [ofInclude, h.child, hk, h.reads, Nat.not_lt.mpr h.size]
    · simp [ofInclude?, h.child, h.kind, h.reads, Nat.not_lt.mpr h.size]
  · have hshort {path : Site} {text : String} (hpath : d.child? .path = some path)
        (hk : path.kind = .systemHeader ∨ path.kind = .stringLiteral)
        (htext : path.span.text? source = some text) : text.utf8ByteSize < 2 :=
      Nat.lt_of_not_le fun hsize => h ⟨path, text, hpath, hk, htext, hsize⟩
    refine Or.inr ⟨fun path text htarget => h ⟨path, text, htarget⟩, ?_, ?_⟩
    · unfold ofInclude
      split
      · rfl
      · rename_i path hpath
        dsimp only
        split
        case h_1 hk | h_2 hk =>
          split
          · rfl
          · rename_i text htext
            exact if_pos (hshort hpath (by simp [hk]) htext)
        case h_3 => rfl
    · unfold ofInclude?
      split
      · rfl
      · rename_i path hpath
        split_ifs with hk
        · split
          · rfl
          · rename_i text htext
            rw [if_pos (hshort hpath hk htext)]
        · rfl

/-! ## One directive -/

/-- **What it takes to read a directive.** -/
structure Readable (source : String) (d : Site) : Prop where
  /-- The target of an include directive has a delimiter at each end. -/
  target : d.kind = .includeDirective → ∀ path text, HasTarget source d path text → Delimited text
  /-- The body of a macro does not end between the letters of a raw string and their quote. -/
  body : d.kind = .defineDirective ∨ d.kind = .functionDefineDirective → ∀ name value text,
    d.child? .name = some name → d.child? .value = some value →
    value.span.text? source = some text → ¬ Cursor.CutMark (behind? source value.span) text

theorem ofInclude?_eq_some_iff : ofInclude? source d = some ms ↔
    (∀ path text, HasTarget source d path text → Delimited text) ∧ ms = ofInclude source d := by
  rcases target_cases source d with ⟨path, text, htarget, htotal, hcut⟩ | ⟨hnone, htotal, hcut⟩
  · have hdelimited : (∀ p t, HasTarget source d p t → Delimited t) ↔ Delimited text := by
      refine ⟨fun h => h path text htarget, fun h p t ht => ?_⟩
      obtain rfl := Option.some.inj (htarget.child.symm.trans ht.child)
      obtain rfl := Option.some.inj (htarget.reads.symm.trans ht.reads)
      exact h
    rw [htotal, hcut, hdelimited, Option.map_eq_some_iff]
    constructor
    · rintro ⟨target, hinner, rfl⟩
      obtain ⟨h, rfl⟩ := inner?_eq_some_iff.mp hinner
      exact ⟨h, rfl⟩
    · rintro ⟨h, rfl⟩
      exact ⟨_, inner?_eq_some_iff.mpr ⟨h, rfl⟩, rfl⟩
  · rw [htotal, hcut, Option.some_inj, eq_comm]
    exact (and_iff_right fun path text h => absurd h (hnone path text)).symm

/-- In a definition whose parts have texts, only the tokens of the body can fail. -/
theorem ofDefine?_eq_some_iff (hspans : ∀ c ∈ d.children, (c.span.text? source).isSome) :
    ofDefine? source d = some ms ↔
      (∀ name value text, d.child? .name = some name → d.child? .value = some value →
        value.span.text? source = some text →
        ¬ Cursor.CutMark (behind? source value.span) text) ∧ ms = ofDefine source d := by
  unfold ofDefine? ofDefine
  split
  · rename_i name value hname hvalue
    obtain ⟨macroName, htoken⟩ :=
      Option.isSome_iff_exists.mp (hspans name (Site.mem_children_of_child? hname))
    obtain ⟨text, htext⟩ :=
      Option.isSome_iff_exists.mp (hspans value (Site.mem_children_of_child? hvalue))
    have hname' : name.node.text source = macroName := by
      show (name.span.text? source).getD "" = macroName
      rw [htoken, Option.getD_some]
    have hread := range_reads_like_its_text htext
    rw [htoken, hname']
    cases hcursor : Cursor.readIn? source value.span with
    | none =>
      refine iff_of_false nofun fun h => ?_
      exact h.1 name value text hname hvalue htext (hread.fails_iff.mp hcursor)
    | some ts =>
      have hcut : ¬ Cursor.CutMark (behind? source value.span) text := fun h => by
        rw [hread.fails_iff.mpr h] at hcursor
        cases hcursor
      rw [← hread.read ts hcursor]
      refine (Option.some_inj.trans eq_comm).trans
        (and_iff_right fun name' value' text' _ hv ht => ?_).symm
      obtain rfl := Option.some.inj (hvalue.symm.trans hv)
      obtain rfl := Option.some.inj (htext.symm.trans ht)
      exact hcut
  · rename_i hnone
    refine (Option.some_inj.trans eq_comm).trans (and_iff_right fun name value _ hn hv => ?_).symm
    exact absurd hv (hnone name value hn)

theorem ofSite?_eq_some_iff (hspans : ∀ c ∈ d.children, (c.span.text? source).isSome) :
    ofSite? source d = some ms ↔ Readable source d ∧ ms = ofSite source d := by
  have hdefine (hk : d.kind = .defineDirective ∨ d.kind = .functionDefineDirective) :
      ofDefine? source d = some ms ↔ Readable source d ∧ ms = ofDefine source d := by
    have hinclude : d.kind ≠ .includeDirective := by
      rintro h
      rcases hk with hk | hk <;> cases h.symm.trans hk
    rw [ofDefine?_eq_some_iff hspans]
    refine and_congr_left fun _ => ⟨fun h => ⟨fun hk' => absurd hk' hinclude, fun _ => h⟩, ?_⟩
    exact fun h => h.body hk
  unfold ofSite? ofSite
  split
  case h_1 hk =>
    rw [ofInclude?_eq_some_iff]
    refine and_congr_left fun _ => ⟨fun h => ⟨fun _ => h, fun hk' => ?_⟩, fun h => h.target hk⟩
    rw [hk] at hk'
    rcases hk' with hk' | hk' <;> cases hk'
  case h_2 hk => exact hdefine (Or.inl hk)
  case h_3 hk => exact hdefine (Or.inr hk)
  case h_4 hinclude hobject hfunction =>
    refine (Option.some_inj.trans eq_comm).trans (and_iff_right ?_).symm
    exact ⟨fun hk => absurd hk hinclude, fun hk => absurd hk (not_or.mpr ⟨hobject, hfunction⟩)⟩

/-! ## All directives of a tree -/

/-- A pass over a list that may fail at some items. -/
theorem mapM_eq_some_iff_of_forall {α β : Type} {f : α → Option β} {g : α → β} {p : α → Prop}
    {xs : List α} {ys : List β} (h : ∀ x ∈ xs, ∀ y, f x = some y ↔ p x ∧ y = g x) :
    xs.mapM f = some ys ↔ (∀ x ∈ xs, p x) ∧ ys = xs.map g := by
  induction xs generalizing ys with
  | nil => simp [eq_comm]
  | cons x xs ih =>
    obtain ⟨hx, hxs⟩ := List.forall_mem_cons.mp h
    rw [List.mapM_cons, Option.bind_eq_bind, Option.bind_eq_some_iff, List.forall_mem_cons]
    constructor
    · rintro ⟨y, hy, hrest⟩
      obtain ⟨zs, hzs, hys⟩ := Option.bind_eq_some_iff.mp hrest
      obtain ⟨hp, rfl⟩ := (hx y).mp hy
      obtain ⟨hall, rfl⟩ := (ih hxs).mp hzs
      exact ⟨⟨hp, hall⟩, (Option.some.inj hys).symm⟩
    · rintro ⟨⟨hp, hall⟩, rfl⟩
      refine ⟨g x, (hx _).mpr ⟨hp, rfl⟩, ?_⟩
      exact Option.bind_eq_some_iff.mpr ⟨_, (ih hxs).mpr ⟨hall, rfl⟩, rfl⟩

/-- **The scan of a tree breaks off at a directive that cannot be read**, and nowhere else. -/
theorem scan?_eq_some_iff
    (hspans : ∀ s, (Site.root tree).Reaches s → (s.span.text? source).isSome) :
    scan? source tree = some ms ↔
      (∀ d ∈ (Site.root tree).outermost isDirective, Readable source d) ∧
        ms = scan source tree := by
  have hsites : ∀ d ∈ (Site.root tree).outermost isDirective, ∀ found,
      ofSite? source d = some found ↔ Readable source d ∧ found = ofSite source d :=
    fun d hd _ => ofSite?_eq_some_iff fun c hc =>
      hspans c ((Site.of_mem_outermost hd).1.child hc)
  rw [scan?, Option.map_eq_some_iff]
  constructor
  · rintro ⟨found, hfound, rfl⟩
    obtain ⟨hreadable, rfl⟩ := (mapM_eq_some_iff_of_forall hsites).mp hfound
    exact ⟨hreadable, rfl⟩
  · rintro ⟨hreadable, rfl⟩
    exact ⟨_, (mapM_eq_some_iff_of_forall hsites).mpr ⟨hreadable, rfl⟩, rfl⟩

theorem scan?_eq_none_iff
    (hspans : ∀ s, (Site.root tree).Reaches s → (s.span.text? source).isSome) :
    scan? source tree = none ↔
      ∃ d ∈ (Site.root tree).outermost isDirective, ¬ Readable source d := by
  rw [Option.eq_none_iff_forall_ne_some]
  constructor
  · intro hnone
    by_contra hall
    refine hnone _ ((scan?_eq_some_iff hspans).mpr ⟨fun d hd => ?_, rfl⟩)
    by_contra hnot
    exact hall ⟨d, hd, hnot⟩
  · rintro ⟨d, hd, hnot⟩ ms hms
    exact hnot (((scan?_eq_some_iff hspans).mp hms).1 d hd)

end Directives

namespace CudaFrontEnd

variable {grammar : Grammar} {config : Config} {file : SourceFile} {tree : Node}

/-- The tree that a file is searched by. A file that is too large has none. -/
structure HasTree (grammar : Grammar) (config : Config) (file : SourceFile) (tree : Node) :
    Prop where
  size : file.text.utf8ByteSize ≤ config.maxFileSize
  parse : grammar.parse? (neutralize file.text).code = some tree

/-- The spans in the tree of the file are ranges of its text that split no character. -/
def HasRanges (grammar : Grammar) (config : Config) (file : SourceFile) : Prop :=
  ∀ tree, HasTree grammar config file tree → ∀ s, (Site.root tree).Reaches s →
    (s.span.text? file.text).isSome

/-- **What the grammar promises about the directives of a file**, as far as a scan relies on it. -/
structure Readable (grammar : Grammar) (config : Config) (file : SourceFile) : Prop where
  ranges : HasRanges grammar config file
  directives : ∀ tree, HasTree grammar config file tree →
    ∀ d ∈ (Site.root tree).outermost Directives.isDirective, Directives.Readable file.text d

/-- **The scan of a file breaks off at a directive that cannot be read**, and nowhere else. -/
theorem breaksOff_iff (hranges : HasRanges grammar config file) :
    breaksOff grammar config file = true ↔ ∃ tree, HasTree grammar config file tree ∧
      ∃ d ∈ (Site.root tree).outermost Directives.isDirective,
        ¬ Directives.Readable file.text d := by
  rw [breaksOff, Bool.and_eq_true, decide_eq_true_eq, Option.any_eq_true]
  constructor
  · rintro ⟨hsize, tree, hparse, hnone⟩
    have htree : HasTree grammar config file tree := ⟨hsize, hparse⟩
    exact ⟨tree, htree, (Directives.scan?_eq_none_iff (hranges tree htree)).mp
      (Option.isNone_iff_eq_none.mp hnone)⟩
  · rintro ⟨tree, htree, hd⟩
    have hnone := (Directives.scan?_eq_none_iff (hranges tree htree)).mpr hd
    exact ⟨htree.size, tree, htree.parse, Option.isNone_iff_eq_none.mpr hnone⟩

theorem Readable.breaksOff_eq_false (h : Readable grammar config file) :
    breaksOff grammar config file = false := by
  refine Bool.eq_false_iff.mpr fun hbreaks => ?_
  obtain ⟨tree, htree, d, hd, hnot⟩ := (breaksOff_iff h.ranges).mp hbreaks
  exact hnot (h.directives tree htree d hd)

/-- A file that has ranges is readable unless its scan breaks off. -/
theorem readable_iff_breaksOff (hranges : HasRanges grammar config file) :
    Readable grammar config file ↔ breaksOff grammar config file = false := by
  refine ⟨Readable.breaksOff_eq_false, fun h => ⟨hranges, fun tree htree d hd => ?_⟩⟩
  by_contra hnot
  rw [(breaksOff_iff hranges).mpr ⟨tree, htree, d, hd, hnot⟩] at h
  cases h

theorem hasRanges_iff : HasRanges grammar config file ↔
    (file.text.utf8ByteSize ≤ config.maxFileSize →
      ∀ tree ∈ grammar.parse? (neutralize file.text).code, ∀ s, (Site.root tree).Reaches s →
        (s.span.text? file.text).isSome) :=
  ⟨fun h hsize tree hparse => h tree ⟨hsize, hparse⟩,
    fun h tree htree => h htree.size tree htree.parse⟩

instance (grammar : Grammar) (config : Config) (file : SourceFile) :
    Decidable (HasRanges grammar config file) := decidable_of_iff _ hasRanges_iff.symm

instance (grammar : Grammar) (config : Config) (file : SourceFile) :
    Decidable (Readable grammar config file) :=
  decidable_of_iff (HasRanges grammar config file ∧ breaksOff grammar config file = false)
    ⟨fun h => (readable_iff_breaksOff h.1).mpr h.2, fun h => ⟨h.ranges, h.breaksOff_eq_false⟩⟩

/-! ### Readable directives, and a target that is not -/

/-- An include directive and a macro. -/
def directiveSource : String := "#include <cuda.h>\n#define FREE cudaFree\n"

/-- A grammar that knows `directiveSource`. -/
def directiveGrammar : Grammar where
  parse? code :=
    if code = (neutralize directiveSource).code then
      Node.ofPreorder? [
        namedRow (.other "translation_unit") none 0 40 2,
        namedRow .includeDirective none 0 18 2, wordRow "#include" 0,
        namedRow .systemHeader (some .path) 9 17 0,
        namedRow .defineDirective none 18 40 3, wordRow "#define" 18,
        namedRow .identifier (some .name) 26 30 0,
        namedRow (.other "preproc_arg") (some .value) 31 39 0]
    else none

/-- A target that lacks its second quote. -/
def unclosedSource : String := "#include \"é\n"

/-- A grammar that takes the quote and the character behind it for the target. -/
def unclosedGrammar : Grammar where
  parse? _ := Node.ofPreorder? [
    namedRow (.other "translation_unit") none 0 13 1,
    namedRow .includeDirective none 0 13 2, wordRow "#include" 0,
    namedRow .stringLiteral (some .path) 9 12 0]

/-- The last byte of the target is not a whole character. -/
example : HasRanges unclosedGrammar .default ⟨⟨"a.cu"⟩, unclosedSource⟩ ∧
    ¬ Readable unclosedGrammar .default ⟨⟨"a.cu"⟩, unclosedSource⟩ := by decide +kernel

end CudaFrontEnd

end CudaToHip
