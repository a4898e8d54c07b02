import CudaToHip.Match
import CudaToHip.Token.Cursor
import CudaToHip.Tree.Site

/-!
# Matches in directives

The targets of include directives and the identifiers in the bodies of macro definitions, in order.
Only the file under conversion is parsed, so every directive found lives in the main file.

All of it is cut out of the source, and a cut that divides a character or is out of range fails.
Then the program breaks off. `scan?` is the scan with every cut that may fail; where none does, it
finds what `scan` finds, which takes every cut for granted.
-/

namespace CudaToHip.Directives

open CudaToHip.Tree

/-- An include directive or a macro definition. -/
def isDirective (s : Site) : Bool :=
  match s.kind with
  | .includeDirective | .defineDirective | .functionDefineDirective => true
  | _ => false

/-- The text without its first and last character. -/
def inner (text : String) : String := String.ofList (text.toList.drop 1).dropLast

/-- The target of an include directive. A target that is itself a macro has no match. -/
def ofInclude (source : String) (s : Site) : List Match :=
  match s.child? .path with
  | none => []
  | some path =>
    let found (angled : Bool) : List Match :=
      match path.span.text? source with
      | none => []
      | some text =>
        if text.utf8ByteSize < 2 then []
        else [.inclusion (inner text) angled path.span true]
    match path.kind with
    | .systemHeader => found true
    | .stringLiteral => found false
    | _ => []

/-- The identifiers in the body of a macro definition. -/
def ofDefine (source : String) (s : Site) : List Match :=
  match s.child? .name, s.child? .value with
  | some name, some value =>
    let macroName := name.node.text source
    (tokenizeIn source value.span).filterMap fun t =>
      if t.kind = .identifier then some (.macroIdentifier t.text macroName t.span true) else none
  | _, _ => []

/-- The matches of one directive. -/
def ofSite (source : String) (s : Site) : List Match :=
  match s.kind with
  | .includeDirective => ofInclude source s
  | .defineDirective | .functionDefineDirective => ofDefine source s
  | _ => []

/-- The matches of all directives of a tree. -/
def scan (source : String) (tree : Node) : List Match :=
  ((Site.root tree).outermost isDirective).flatMap (ofSite source)

/-! ## With every cut that may fail -/

/-- The text without its first and last byte. -/
def inner? (text : String) : Option String := Text.slice? text 1 (text.utf8ByteSize - 1)

/-- The target of an include directive, if it can be cut out of its delimiters. -/
def ofInclude? (source : String) (s : Site) : Option (List Match) :=
  match s.child? .path with
  | none => some []
  | some path =>
    if path.kind = .systemHeader ∨ path.kind = .stringLiteral then
      match path.span.text? source with
      | none => some []
      | some text =>
        if text.utf8ByteSize < 2 then some []
        else (inner? text).map fun target =>
          [.inclusion target (path.kind = .systemHeader) path.span true]
    else some []

/-- The identifiers in the body of a macro definition, if its name and its tokens can be cut out of
the source. -/
def ofDefine? (source : String) (s : Site) : Option (List Match) :=
  match s.child? .name, s.child? .value with
  | some name, some value => do
    let macroName ← name.span.text? source
    let tokens ← Cursor.readIn? source value.span
    return tokens.filterMap fun t =>
      if t.kind = .identifier then some (.macroIdentifier t.text macroName t.span true) else none
  | _, _ => some []

/-- The matches of one directive, if it can be read. -/
def ofSite? (source : String) (s : Site) : Option (List Match) :=
  match s.kind with
  | .includeDirective => ofInclude? source s
  | .defineDirective | .functionDefineDirective => ofDefine? source s
  | _ => some []

/-- The matches of all directives of a tree, if all of them can be read. -/
def scan? (source : String) (tree : Node) : Option (List Match) :=
  (((Site.root tree).outermost isDirective).mapM (ofSite? source)).map List.flatten

end CudaToHip.Directives
