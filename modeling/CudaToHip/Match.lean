import CudaToHip.Span

/-!
# Matches

A match is one occurrence of a construct that some rule may act on. Matches hold spans and literal
text only; nothing in them refers back to a syntax tree.
-/

namespace CudaToHip

/-- Text taken from the source, with the place it was taken from. -/
structure Captured where
  span : Span
  text : String
  deriving Repr, DecidableEq, Inhabited

/-- One argument of a launch configuration. -/
inductive ConfigArg where
  /-- An argument as written, with the declared type of the parameter it binds to. -/
  | written (arg : Captured) (declaredType : String)
  /-- An argument left out, which takes its default. -/
  | defaulted
  deriving Repr, DecidableEq, Inhabited

/-- The span of an argument that is written. -/
def ConfigArg.span? : ConfigArg → Option Span
  | .written arg _ => some arg.span
  | .defaulted => none

/-- Where a type or constant name was used. -/
inductive TypeRefKind where
  /-- A use of an enumerator. -/
  | enumConstant
  /-- A variable declared with an enumeration type. -/
  | enumVariable
  /-- A variable declared with any other named type. -/
  | structVariable
  | parameter
  | returnType
  /-- A type named inside an expression. -/
  | typeExpression
  deriving Repr, DecidableEq, Inhabited

def TypeRefKind.label : TypeRefKind → String
  | .enumConstant => "EnumConstant"
  | .enumVariable => "EnumVariable"
  | .structVariable => "StructVariable"
  | .parameter => "Parameter"
  | .returnType => "ReturnType"
  | .typeExpression => "TypeExpression"

/-- A kernel launch, apart from what was found inside its arguments. -/
structure Launch where
  callee : String
  /-- Parameter lists of every declaration of the kernel in this file, prototypes included, in
  source order. -/
  paramLists : List Captured
  configArgs : List ConfigArg
  launchArgs : List Captured
  /-- The whole expression, from the callee to the closing parenthesis. -/
  span : Span
  deriving Repr, DecidableEq, Inhabited

/-- The spans of all arguments that are written, configuration first. -/
def Launch.argSpans (l : Launch) : List Span :=
  l.configArgs.filterMap ConfigArg.span? ++ l.launchArgs.map Captured.span

/-- One occurrence of a construct. -/
inductive Match where
  /-- A direct call of a named function; the location is that of the name. -/
  | call (callee : String) (loc : SourceLoc)
  /-- A kernel launch, with the matches found inside its arguments. -/
  | launch (launch : Launch) (nested : List Match)
  /-- A member access on a built-in coordinate object; the base is the declaration it resolves to,
  the member is named as in the object's record. -/
  | builtin (base : Option String) (member : String) (loc : SourceLoc)
  /-- A use of an enumerator or of a named type. -/
  | typeRef (name : String) (loc : SourceLoc) (kind : TypeRefKind)
  /-- A string literal, quotes included. -/
  | stringLiteral (text : String) (span : Span)
  /-- The target of an include directive; the span takes in its delimiters. -/
  | inclusion (target : String) (angled : Bool) (span : Span) (inMainFile : Bool)
  /-- An identifier in the body of a macro definition. -/
  | macroIdentifier (name macroName : String) (span : Span) (inMainFile : Bool)
  deriving Repr, Inhabited

namespace Match

/-- The short name of the construct used in reports. -/
def label : Match → String
  | .call .. => "call"
  | .launch .. => "kernel launch"
  | .builtin .. => "builtin"
  | .typeRef .. => "type ref"
  | .stringLiteral .. => "string literal"
  | .inclusion .. => "include"
  | .macroIdentifier .. => "macro identifier"

/-- The match comes from a preprocessor directive. -/
def isDirective : Match → Bool
  | .inclusion .. | .macroIdentifier .. => true
  | _ => false

instance : ToString Match where
  toString
    | .call callee loc => "call \x60" ++ callee ++ "\x60 at " ++ toString loc.effective
    | .launch l _ => "kernel launch \x60" ++ l.callee ++ "\x60 at " ++ toString l.span
    | .builtin base member loc =>
      "builtin \x60" ++ base.getD "?" ++ "." ++ member ++ "\x60 at " ++ toString loc.effective
    | .typeRef name loc kind =>
      kind.label ++ " \x60" ++ name ++ "\x60 at " ++ toString loc.effective
    | .stringLiteral text span => "string " ++ text ++ " at " ++ toString span
    | .inclusion target angled span _ =>
      let (opening, closing) := if angled then ("<", ">") else ("\"", "\"")
      "include " ++ opening ++ target ++ closing ++ " at " ++ toString span
    | .macroIdentifier name macroName span _ =>
      "\x60" ++ name ++ "\x60 in macro " ++ macroName ++ " at " ++ toString span

end Match

end CudaToHip
