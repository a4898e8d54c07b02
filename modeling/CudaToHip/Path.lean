/-!
# File paths

A path is a text; what it means are its components. Repeated slashes, slashes at the end and dots
that are not at the very front add no component, so two texts can be `same` path. Paths are
ordered by their components.

`sibling` puts another name in place of the last component and keeps the spelling of the rest.
-/

namespace CudaToHip

/-- A file path, as spelled. -/
structure Path where
  text : String
  deriving Repr, DecidableEq, Inhabited

namespace Path

/-- One step of a path. -/
inductive Component where
  | root
  /-- A dot at the front of a relative path. -/
  | here
  | up
  | name (s : String)
  deriving Repr, DecidableEq, Inhabited

namespace Component

def rank : Component → Nat
  | .root => 0
  | .here => 1
  | .up => 2
  | .name _ => 3

def text : Component → String
  | .name s => s
  | _ => ""

/-- The root comes first, then a leading dot, then two dots, then names in the order of their
code points. -/
instance : Ord Component := ⟨compareLex (compareOn rank) (compareOn text)⟩

end Component

/-- The texts between the slashes: one more than there are slashes. -/
def pieces : List Char → List (List Char)
  | [] => [[]]
  | c :: cs =>
    if c = '/' then [] :: pieces cs
    else
      match pieces cs with
      | [] => [[c]]
      | p :: ps => (c :: p) :: ps

/-- The pieces with slashes between them. -/
def joined (ps : List (List Char)) : List Char := List.intercalate ['/'] ps

/-- A piece that adds no component: nothing between two slashes, or a dot. -/
def isIdle (piece : List Char) : Bool := piece = [] || piece = ['.']

/-- The component a piece stands for, unless it is idle. -/
def component? (piece : List Char) : Option Component :=
  if isIdle piece then none
  else if piece = ['.', '.'] then some .up
  else some (.name (String.ofList piece))

/-- The front of a path and the rest of it. The front is the slash of an absolute path, the dot at
the very front of a relative one, or nothing. -/
def split (p : Path) : List Char × List Char :=
  match p.text.toList with
  | '/' :: rest => (['/'], rest)
  | ['.'] => (['.'], [])
  | '.' :: '/' :: rest => (['.'], '/' :: rest)
  | cs => ([], cs)

/-- A piece of one or two dots: it names no entry of the directory it stands in. -/
def isDots (piece : List Char) : Bool := piece = ['.'] || piece = ['.', '.']

/-- The last piece, slashes at the end left aside, and the pieces before it. -/
def lastPiece? (ps : List (List Char)) : Option (List (List Char) × List Char) :=
  match ps.reverse.dropWhile (· = []) with
  | [] => none
  | last :: before => some (before.reverse, last)

/-- The pieces before a name that slashes follow at the end. Such a path names a directory. -/
def beforeSlashedName? (ps : List (List Char)) : Option (List (List Char)) :=
  if ps.getLast? = some [] then
    match lastPiece? ps with
    | some (before, last) => if isDots last then none else some before
    | none => none
  else none

/-- What a path means. -/
def components (p : Path) : List Component :=
  let (front, rest) := p.split
  let head : List Component :=
    if front = ['/'] then [.root] else if front = ['.'] then [.here] else []
  head ++ (pieces rest).filterMap component?

/-- The path starts at the root. -/
def isAbsolute (p : Path) : Bool := p.text.toList.head? == some '/'

instance : Ord Path := ⟨compareOn components⟩

/-- The two texts spell the same path. -/
def same (a b : Path) : Bool := a.components == b.components

/-- The name at the end of a path, if a name stands there. -/
def fileName? (p : Path) : Option String :=
  match p.components.getLast? with
  | some (.name s) => some s
  | _ => none

/-- The pieces without the idle ones at the end. -/
def dropIdleEnd (ps : List (List Char)) : List (List Char) :=
  (ps.reverse.dropWhile isIdle).reverse

/-- The spelling of all components but the last. -/
def parentText (p : Path) : List Char :=
  let (front, rest) := p.split
  front ++ joined (dropIdleEnd (dropIdleEnd (pieces rest)).dropLast)

/-- The stretches from the front that end in a piece which is not idle, the longest first; the
pieces are given from the end. -/
def stretches : List (List Char) → List (List (List Char))
  | [] => []
  | piece :: before =>
    if isIdle piece then stretches before else (piece :: before).reverse :: stretches before

/-- The paths to the directories a path leads through, the nearest to its end first. -/
def parents (p : Path) : List Path :=
  let (front, rest) := p.split
  ((stretches (pieces rest).reverse).drop 1).map fun ps => ⟨String.ofList (front ++ joined ps)⟩

/-- The path with `name` in place of its last component. -/
def sibling (p : Path) (name : String) : Path :=
  let parent := p.parentText
  let joint : List Char := if parent = [] || parent.getLast? = some '/' then [] else ['/']
  ⟨String.ofList (parent ++ joint ++ name.toList)⟩

end Path

end CudaToHip
