import CudaToHip.Config.Basic
import CudaToHip.FileSystem
import CudaToHip.Json.Parser

/-!
# Configurations as JSON

A configuration is a record of its settings. In a configuration as a whole any setting may be left
out and then has its default; the records within it must be complete. Records may be written as
arrays, the values in the order of the fields.
-/

namespace CudaToHip

namespace LaunchSpelling

def fieldNames : List String :=
  ["launch_function", "kernel_name_wrapper", "extra_parameter", "extent_type"]

def toJson (l : LaunchSpelling) : Json :=
  .ofFields <| fieldNames.zip
    [.ofText l.launchFunction, .ofText l.kernelNameWrapper, .ofText l.extraParameter,
     .ofText l.extentType]

def ofJson? (j : Json) : Option LaunchSpelling := do
  match ← j.record? fieldNames with
  | [some f, some w, some p, some t] =>
    return ⟨← f.text?, ← w.text?, ← p.text?, ← t.text?⟩
  | _ => none

end LaunchSpelling

namespace Text.Marker

def fieldNames : List String := ["from", "to"]

def toJson (m : Marker) : Json :=
  .ofFields <| fieldNames.zip [.ofText m.word, .ofText m.into]

def ofJson? (j : Json) : Option Marker := do
  match ← j.record? fieldNames with
  | [some w, some i] => return ⟨← w.text?, ← i.text?⟩
  | _ => none

end Text.Marker

namespace ConflictPolicy

def toJson (p : ConflictPolicy) : Json := .ofText p.label

/-- A policy is written as its name, or as an object with the name as its only key and nothing in
it. -/
def ofJson? : Json → Option ConflictPolicy
  | .object [(key, .null)] => (Json.text? (.string key)).bind ofLabel?
  | j => j.text?.bind ofLabel?

end ConflictPolicy

namespace NameMap

def toJson (m : NameMap) : Json := .ofFields (m.map fun (name, target) => (name, .ofText target))

/-- Later fields win over earlier ones of the same key. -/
def ofJson? (j : Json) : Option NameMap := do
  let entries ← (← j.fields?).mapM fun (name, target) => do return (name, ← target.text?)
  return ofList entries

end NameMap

/-- A size is a number of at most 64 bits. -/
def Json.size? (j : Json) : Option Nat := j.natural?.filter (· < UInt64.size)

namespace Config

def fieldNames : List String :=
  ["source_extension", "marker_extension", "source_prefix", "launch", "string_marker",
   "builtin_member_prefix", "conflict_policy", "tolerant", "max_file_size", "extra_symbols"]

/-- The settings by name, in the order of `fieldNames`. -/
def settings (c : Config) : List (String × Json) :=
  fieldNames.zip
    [.ofText c.sourceExtension, .ofText c.markerExtension, .ofText c.sourceStem,
     c.launch.toJson, c.stringMarker.toJson, .ofText c.builtinMemberStem,
     c.conflictPolicy.toJson, .bool c.tolerant, .ofNat c.maxFileSize, c.extraSymbols.toJson]

def toJson (c : Config) : Json := .ofFields c.settings

/-- A setting that may be left out. -/
def setting? {α : Type} (read : Json → Option α) (fallback : α) : Option Json → Option α
  | none => some fallback
  | some j => read j

/-- The configuration that a document spells; it is not validated. -/
def ofJson? (j : Json) : Option Config := do
  match ← j.record? fieldNames with
  | [sourceExtension, markerExtension, sourceStem, launch, stringMarker, builtinMemberStem,
     conflictPolicy, tolerant, maxFileSize, extraSymbols] =>
    return {
      sourceExtension := ← setting? Json.text? default.sourceExtension sourceExtension
      markerExtension := ← setting? Json.text? default.markerExtension markerExtension
      sourceStem := ← setting? Json.text? default.sourceStem sourceStem
      launch := ← setting? LaunchSpelling.ofJson? default.launch launch
      stringMarker := ← setting? Text.Marker.ofJson? default.stringMarker stringMarker
      builtinMemberStem := ← setting? Json.text? default.builtinMemberStem builtinMemberStem
      conflictPolicy := ← setting? ConflictPolicy.ofJson? default.conflictPolicy conflictPolicy
      tolerant := ← setting? Json.bool? default.tolerant tolerant
      maxFileSize := ← setting? Json.size? default.maxFileSize maxFileSize
      extraSymbols := ← setting? NameMap.ofJson? default.extraSymbols extraSymbols }
  | _ => none

/-- The configuration that a text spells, if it is a valid one. -/
def ofText (text : String) : Except Failure Config :=
  match (Json.parse? text).bind ofJson? with
  | some c => c.validate
  | none => .error (.config .malformed)

/-- The configuration in a file. -/
def load (fs : FileSystem) (path : Path) : Except Failure Config :=
  match fs.readText? path with
  | .ok text => ofText text
  | .error e => .error (.file path e)

end Config

end CudaToHip
