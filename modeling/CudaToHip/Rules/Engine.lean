import CudaToHip.Rules.Launch
import CudaToHip.Symbols

/-!
# Rules

Every match gives edits by the rule for its construct. Rules know the symbol table and the
configuration but not each other; edits in conflict are sorted out by the replacement set.
-/

namespace CudaToHip

/-- What the rules go by. -/
structure Rules where
  symbols : SymbolTable
  config : Config

namespace Rules

/-- The name at a location exchanged for its target. -/
def rename? (symbols : SymbolTable) (name : String) (loc : SourceLoc) (origin : EditOrigin) :
    Option Edit :=
  (symbols.lookup name).map (⟨loc.span name.utf8ByteSize, ·, origin⟩)

/-- The member's name without what members of coordinate objects begin with. -/
def plainMember (stem member : String) : String :=
  if stem.toList.isPrefixOf member.toList then
    String.ofList (member.toList.drop stem.toList.length)
  else member

/-- A coordinate `base.member` as written exchanged for its target, if the base is known. -/
def renameBuiltin? (rules : Rules) (base : Option String) (member : String) (loc : SourceLoc) :
    Option Edit := do
  let base ← base
  rename? rules.symbols (base ++ "." ++ plainMember rules.config.builtinMemberStem member) loc
    .builtinAccess

/-- A literal with the markers in it exchanged. -/
def editLiteral? (rules : Rules) (text : String) (span : Span) : Option Edit :=
  (rules.config.stringMarker.replaceIn text).map (⟨span, ·, .stringLiteral⟩)

/-- A header in angle brackets exchanged for its target. -/
def editInclude? (rules : Rules) (target : String) (angled : Bool) (span : Span)
    (inMainFile : Bool) : Option Edit :=
  if inMainFile && angled then
    (rules.symbols.lookup target).map fun t => ⟨span, "<" ++ t ++ ">", .inclusion⟩
  else none

/-- A name in the body of a macro exchanged for its target. -/
def editMacroName? (rules : Rules) (name : String) (span : Span) (inMainFile : Bool) :
    Option Edit :=
  if inMainFile then (rules.symbols.lookup name).map (⟨span, ·, .macroIdentifier⟩) else none

mutual

/-- The edits of a match, in the order in which they are to be proposed. -/
def editsFor (rules : Rules) : Match → List Edit
  | .call callee loc => (rename? rules.symbols callee loc .callRename).toList
  | .launch l nested => LaunchRule.edits rules.config.launch l (editsForAll rules nested)
  | .builtin base member loc => (renameBuiltin? rules base member loc).toList
  | .typeRef name loc _ => (rename? rules.symbols name loc .typeRename).toList
  | .stringLiteral text span => (editLiteral? rules text span).toList
  | .inclusion target angled span inMainFile =>
    (editInclude? rules target angled span inMainFile).toList
  | .macroIdentifier name _ span inMainFile => (editMacroName? rules name span inMainFile).toList

/-- The edits of several matches, one match after the other. -/
def editsForAll (rules : Rules) : List Match → List Edit
  | [] => []
  | m :: ms => editsFor rules m ++ editsForAll rules ms

end

theorem editsForAll_eq_flatMap (rules : Rules) (ms : List Match) :
    rules.editsForAll ms = ms.flatMap rules.editsFor := by
  induction ms with
  | nil => rfl
  | cons m ms ih => simp [editsForAll, ih]

end Rules

end CudaToHip
