import CudaToHip.Config.Codec
import CudaToHip.Proofs.Json.Pretty
import CudaToHip.Proofs.NameMap
import CudaToHip.Proofs.FileSystem

/-!
# Loading undoes writing

Every part of a configuration is read back from the document it is written as. A configuration may
be written in part: the settings that are left out come back as their defaults (`Config.keep`), and
what is checked is the configuration that comes of it.

* `Config.ofJson?_kept`: what any of the settings, in any order, are read as.
* `Config.loading_undoes_writing`: loading them from a file.
* `Config.wellFormed_of_load`: what is loaded can be written and loaded again.
-/

namespace CudaToHip

/-! ## The parts of a configuration -/

theorem LaunchSpelling.ofJson?_toJson (l : LaunchSpelling) : ofJson? l.toJson = some l := by
  have hfields : l.toJson.record? fieldNames = _ :=
    Json.record?_self (show fieldNames.Nodup by decide)
  rw [ofJson?, hfields]
  simp [fieldNames, Json.text?_ofText]

theorem Text.Marker.ofJson?_toJson (m : Text.Marker) : ofJson? m.toJson = some m := by
  have hfields : m.toJson.record? fieldNames = _ :=
    Json.record?_self (show fieldNames.Nodup by decide)
  rw [ofJson?, hfields]
  simp [fieldNames, Json.text?_ofText]

theorem ConflictPolicy.ofJson?_toJson (p : ConflictPolicy) : ofJson? p.toJson = some p := by
  show (Json.text? (.ofText p.label)).bind ofLabel? = some p
  rw [Json.text?_ofText]
  cases p <;> rfl

theorem Json.bool?_bool (b : Bool) : (Json.bool b).bool? = some b := rfl

theorem Json.size?_ofNat {n : Nat} (h : n < UInt64.size) : (Json.ofNat n).size? = some n := by
  rw [size?, natural?_ofNat, Option.filter_some, if_pos (decide_eq_true h)]

namespace NameMap

theorem ofJson?_toJson {m : NameMap} (h : m.Sorted) : ofJson? m.toJson = some m := by
  have htexts (m : NameMap) : (m.map fun x => (x.1, Json.ofText x.2)).mapM
      (fun x => x.2.text?.bind fun target => some (x.1, target)) = some m := by
    induction m with
    | nil => rfl
    | cons x rest ih =>
      rw [List.map_cons, List.mapM_cons, ih, Json.text?_ofText]
      rfl
  unfold ofJson? toJson
  rw [Json.fields?_ofFields]
  simp only [Option.bind_eq_bind, Option.bind_some, Option.pure_def, htexts, ofList_eq h]

end NameMap

namespace Config

/-! ## Configurations -/

variable {c : Config}

/-- What the kinds of the settings ask for: a size has at most 64 bits, and the mappings are kept in
order. It is so for the defaults, and for all that is loaded (`wellFormed_of_load`). -/
structure WellFormed (c : Config) : Prop where
  size : c.maxFileSize < UInt64.size
  symbols : c.extraSymbols.Sorted

theorem wellFormed_default : default.WellFormed := ⟨by decide, List.Pairwise.nil⟩

theorem WellFormed.withSymbol (hc : c.WellFormed) (name target : String) :
    (c.withSymbol name target).WellFormed :=
  ⟨hc.size, NameMap.sorted_insert hc.symbols name target⟩

/-- The configuration with the settings of `c` that `F` names, and the defaults of all others. -/
def keep (F : String → Bool) (c : Config) : Config where
  sourceExtension := if F "source_extension" then c.sourceExtension else default.sourceExtension
  markerExtension := if F "marker_extension" then c.markerExtension else default.markerExtension
  sourceStem := if F "source_prefix" then c.sourceStem else default.sourceStem
  launch := if F "launch" then c.launch else default.launch
  stringMarker := if F "string_marker" then c.stringMarker else default.stringMarker
  builtinMemberStem :=
    if F "builtin_member_prefix" then c.builtinMemberStem else default.builtinMemberStem
  conflictPolicy := if F "conflict_policy" then c.conflictPolicy else default.conflictPolicy
  tolerant := if F "tolerant" then c.tolerant else default.tolerant
  maxFileSize := if F "max_file_size" then c.maxFileSize else default.maxFileSize
  extraSymbols := if F "extra_symbols" then c.extraSymbols else default.extraSymbols

theorem keep_all (c : Config) : c.keep (fun _ => true) = c := rfl

theorem setting?_kept {α : Type} {read : Json → Option α} {j : Json} {a : α} (h : read j = some a)
    (fallback : α) (kept : Bool) :
    setting? read fallback (if kept then some j else none) =
      some (if kept then a else fallback) := by
  cases kept
  · rfl
  · exact h

theorem nodup_settings (c : Config) : (c.settings.map Prod.fst).Nodup := by
  show fieldNames.Nodup
  decide

/-- **Some of the settings are read as themselves**, in any order, and the others as their
defaults. -/
theorem ofJson?_kept (hc : c.WellFormed) {F : String → Bool} {fields : List (String × Json)}
    (h : fields.Perm (c.settings.filter fun x => F x.1)) :
    ofJson? (.ofFields fields) = some (c.keep F) := by
  have hfields : (Json.ofFields fields).record? fieldNames = _ :=
    Json.record?_of_perm_filter h c.nodup_settings
  rw [ofJson?, hfields]
  simp only [settings, fieldNames, List.zip_cons_cons, List.zip_nil_right, List.map_cons,
    List.map_nil, Option.bind_eq_bind, Option.bind_some, Option.pure_def,
    setting?_kept (Json.text?_ofText _), setting?_kept (LaunchSpelling.ofJson?_toJson _),
    setting?_kept (Text.Marker.ofJson?_toJson _), setting?_kept (ConflictPolicy.ofJson?_toJson _),
    setting?_kept (Json.bool?_bool _), setting?_kept (Json.size?_ofNat hc.size),
    setting?_kept (NameMap.ofJson?_toJson hc.symbols)]
  rfl

theorem setting?_cases {α : Type} {read : Json → Option α} {fallback a : α} {o : Option Json}
    (h : setting? read fallback o = some a) : a = fallback ∨ ∃ j, read j = some a := by
  cases o with
  | none => exact Or.inl (Option.some.inj h).symm
  | some j => exact Or.inr ⟨j, h⟩

/-- What is read is well-formed. -/
theorem wellFormed_of_ofJson? {j : Json} (h : ofJson? j = some c) : c.WellFormed := by
  obtain ⟨values, -, h⟩ := Option.bind_eq_some_iff.mp h
  split at h
  · simp only [Option.bind_eq_bind, Option.bind_eq_some_iff, Option.pure_def,
      Option.some.injEq] at h
    obtain ⟨_, -, _, -, _, -, _, -, _, -, _, -, _, -, _, -, size, hsize, symbols, hsymbols,
      rfl⟩ := h
    constructor
    · rcases setting?_cases hsize with rfl | ⟨j, hj⟩
      · exact wellFormed_default.size
      · exact of_decide_eq_true (Option.filter_eq_some_iff.mp hj).2
    · rcases setting?_cases hsymbols with rfl | ⟨j, hj⟩
      · exact wellFormed_default.symbols
      · simp only [NameMap.ofJson?, Option.bind_eq_bind, Option.bind_eq_some_iff, Option.pure_def,
          Option.some.injEq] at hj
        obtain ⟨_, -, entries, -, rfl⟩ := hj
        exact NameMap.sorted_insertAll List.Pairwise.nil entries
  · cases h

theorem written_zip {names : List String} {values : List Json} (h : ∀ j ∈ values, j.Written) :
    ∀ x ∈ names.zip values, x.2.Written := fun x hx => h x.2 (List.of_mem_zip hx).2

theorem written_settings (c : Config) : ∀ x ∈ c.settings, x.2.Written := by
  have hlaunch : c.launch.toJson.Written := by
    refine .object (written_zip ?_)
    simp only [List.forall_mem_cons]
    exact ⟨.text _, .text _, .text _, .text _, nofun⟩
  have hmarker : c.stringMarker.toJson.Written := by
    refine .object (written_zip ?_)
    simp only [List.forall_mem_cons]
    exact ⟨.text _, .text _, nofun⟩
  have hsymbols : c.extraSymbols.toJson.Written := by
    refine .object fun x hx => ?_
    obtain ⟨entry, -, rfl⟩ := List.mem_map.mp hx
    exact .text _
  refine written_zip ?_
  simp only [List.forall_mem_cons]
  exact ⟨.text _, .text _, .text _, hlaunch, hmarker, .text _, .text _, .bool _, .number _,
    hsymbols, nofun⟩

/-! ## Files -/

variable {fs : FileSystem} {path : Path} {j : Json}

/-- The file that a path means spells a document. -/
def Spells (fs : FileSystem) (path : Path) (j : Json) : Prop :=
  ∃ text, fs.readText? path = .ok text ∧ Json.parse? text = some j

theorem spells_pretty (hread : fs.readText? path = .ok (Json.pretty j)) (hj : j.Written) :
    Spells fs path j := ⟨_, hread, Json.parse?_pretty hj⟩

/-- What is loaded is what the file spells, if nothing is wrong with it. -/
theorem load_eq_validate (h : Spells fs path j) (hj : ofJson? j = some c) :
    load fs path = c.validate := by
  obtain ⟨text, hread, hparse⟩ := h
  rw [load, hread]
  show ofText text = c.validate
  rw [ofText, hparse, Option.bind_some, hj]

theorem wellFormed_of_load (h : load fs path = .ok c) : c.WellFormed := by
  unfold load at h
  split at h
  · unfold ofText at h
    split at h
    · rename_i hread
      obtain ⟨j, -, hj⟩ := Option.bind_eq_some_iff.mp hread
      unfold validate at h
      split at h
      · cases h
      · obtain rfl := Except.ok.inj h
        exact wellFormed_of_ofJson? hj
    · cases h
  · cases h

/-- **Loading undoes writing.** The print of some of the settings, in any order, can be read; and a
file that spells them, printed so or otherwise, loads as the configuration with these settings and
the defaults of all others, or fails with what is wrong with that configuration. So a valid
configuration written in full loads as itself. -/
theorem loading_undoes_writing (hc : c.WellFormed) :
    (∀ (F : String → Bool) (fields : List (String × Json)),
      fields.Perm (c.settings.filter fun x => F x.1) →
        Json.parse? (Json.pretty (.ofFields fields)) = some (.ofFields fields) ∧
        ∀ fs path, Spells fs path (.ofFields fields) →
          load fs path =
            match (c.keep F).problem? with
            | none => .ok (c.keep F)
            | some e => .error (.config e)) ∧
    (c.problem? = none → ∀ fs path, Spells fs path c.toJson → load fs path = .ok c) := by
  have hkept (F : String → Bool) (fields : List (String × Json))
      (hfields : fields.Perm (c.settings.filter fun x => F x.1)) (fs : FileSystem) (path : Path)
      (h : Spells fs path (.ofFields fields)) : load fs path = (c.keep F).validate :=
    load_eq_validate h (ofJson?_kept hc hfields)
  refine ⟨fun F fields hfields => ⟨Json.parse?_pretty ?_, fun fs path h => ?_⟩,
    fun hvalid fs path h => ?_⟩
  · exact .object fun x hx =>
      written_settings c x (List.mem_of_mem_filter (hfields.mem_iff.mp hx))
  · rw [hkept F fields hfields fs path h, validate]
    cases (c.keep F).problem? <;> rfl
  · have hall : c.settings.Perm (c.settings.filter fun _ => true) := by rw [List.filter_true]
    rw [hkept (fun _ => true) c.settings hall fs path h, keep_all, validate, hvalid]

/-- A valid configuration with texts that must be escaped and the largest size there is. Its marker
extension is the source extension of others. -/
def strangeConfig : Config :=
  { default with
    sourceExtension := ".cuda"
    markerExtension := ".cu"
    stringMarker := ⟨"\"\\\x01\n\u00e9", "\u2603"⟩
    conflictPolicy := .overlap
    maxFileSize := UInt64.size - 1
    extraSymbols := [("cudaMalloc", "my\tmalloc"), ("\u00fc", "")] }

/-- The whole configuration, its marker extension alone, and two of its settings in turn. -/
def writtenSettings : FileSystem where
  base := []
  entries :=
    [(["full.json"], .file (Json.pretty strangeConfig.toJson).toUTF8),
     (["marker.json"], .file "\x7b\"marker_extension\":\".cu\"\x7d".toUTF8),
     (["marking.json"], .file (Json.pretty (.ofFields
       [("conflict_policy", strangeConfig.conflictPolicy.toJson),
        ("string_marker", strangeConfig.stringMarker.toJson)])).toUTF8)]

/-- A part of a valid configuration need not be valid: its marker extension may be the source
extension that it falls back to. -/
theorem loading_undoes_writing_strange :
    strangeConfig.problem? = none ∧
    load writtenSettings ⟨"full.json"⟩ = .ok strangeConfig ∧
    load writtenSettings ⟨"marker.json"⟩ = .error (.config (.sameExtensions ".cu")) ∧
    load writtenSettings ⟨"marking.json"⟩ =
      .ok { default with
        conflictPolicy := strangeConfig.conflictPolicy
        stringMarker := strangeConfig.stringMarker } := by
  have hc : strangeConfig.WellFormed := ⟨by decide, by
    show List.Pairwise _ [("cudaMalloc", "my\tmalloc"), ("\u00fc", "")]
    decide⟩
  have hvalid : strangeConfig.problem? = none := by decide
  have hread {name : String} {text : String}
      (h : writtenSettings.HoldsAt ⟨name⟩ [name] text.toUTF8) :
      writtenSettings.readText? ⟨name⟩ = .ok text := by
    rw [FileSystem.readText?_eq h, FileSystem.fromUTF8?_toUTF8]
  obtain ⟨hsome, hall⟩ := loading_undoes_writing hc
  refine ⟨hvalid, ?_, ?_, ?_⟩
  · exact hall hvalid _ _ (spells_pretty (hread ⟨rfl, rfl, rfl⟩)
      (.object (written_settings strangeConfig)))
  · obtain ⟨-, hload⟩ := hsome (fun name => name = "marker_extension")
      [("marker_extension", .ofText ".cu")] (by simp [settings, fieldNames, strangeConfig])
    exact hload writtenSettings ⟨"marker.json"⟩ ⟨_, hread ⟨rfl, rfl, rfl⟩, by cbv⟩
  · obtain ⟨hprint, hload⟩ := hsome (fun name => name = "conflict_policy" ∨ name = "string_marker")
      [("conflict_policy", strangeConfig.conflictPolicy.toJson),
        ("string_marker", strangeConfig.stringMarker.toJson)]
      (by simpa [settings, fieldNames] using List.Perm.swap ..)
    exact hload writtenSettings ⟨"marking.json"⟩ ⟨_, hread ⟨rfl, rfl, rfl⟩, hprint⟩

end Config

end CudaToHip
