import CudaToHip.Failure

/-!
# File systems

A file system as a value: what stands at each place, a place being the list of names that leads to
it from the root. A path means a place by `resolve?`, which goes from directory to directory and
fails where a step has no directory to stand in or a name is too long. The operations are the ones a
conversion needs; each gives the cause for which it fails.

`get?_put` and `get?_erase` say what the two ways to change an entry do to every place.
-/

namespace CudaToHip

/-- What stands at a place. -/
inductive Entry where
  | file (bytes : ByteArray)
  | directory

instance : DecidableEq Entry
  | .file a, .file b =>
    match ByteArray.instDecidableEq a b with
    | isTrue h => isTrue (congrArg Entry.file h)
    | isFalse h => isFalse fun e => h (Entry.file.inj e)
  | .directory, .directory => isTrue rfl
  | .file _, .directory => isFalse nofun
  | .directory, .file _ => isFalse nofun

/-- Names from the root on. -/
abbrev Place := List String

structure FileSystem where
  /-- The place relative paths start from. -/
  base : Place
  entries : List (Place × Entry)
  deriving DecidableEq

namespace FileSystem

/-- What stands at a place, other than at the root. -/
def get? (fs : FileSystem) (place : Place) : Option Entry := fs.entries.lookup place

/-- The place is a directory. -/
def isDirectory (fs : FileSystem) (place : Place) : Bool :=
  place.isEmpty || fs.get? place = some .directory

/-- Why nothing can be looked up in a place that is no directory. -/
def lookupError (fs : FileSystem) (place : Place) : FileError :=
  if (fs.get? place).isSome then .notDirectory else .notFound

/-- The longest name of an entry, in bytes. -/
def nameLimit : Nat := 255

/-- The bytes that a path must stay below. -/
def pathLimit : Nat := 4096

/-- The name has too many bytes for an entry. -/
def isLongName (piece : List Char) : Bool := (String.ofList piece).utf8ByteSize > nameLimit

/-- The place that the pieces of a path lead to from a place. -/
def descend (fs : FileSystem) (place : Place) : List (List Char) → Except FileError Place
  | [] => .ok place
  | piece :: pieces =>
    if !fs.isDirectory place then .error (fs.lookupError place)
    else if Path.isIdle piece then descend fs place pieces
    else if piece = ['.', '.'] then descend fs place.dropLast pieces
    else if isLongName piece then .error .nameTooLong
    else descend fs (place ++ [String.ofList piece]) pieces

/-- Why a path can mean no place, whatever stands where. -/
def pathError? (path : Path) : Option FileError :=
  if path.text.toList.contains '\x00' then some .nulInPath
  else if path.text = "" then some .notFound
  else if pathLimit ≤ path.text.utf8ByteSize then some .nameTooLong
  else none

/-- The place from which a path leads on. -/
def start (fs : FileSystem) (path : Path) : Place := if path.isAbsolute then [] else fs.base

/-- The place a path means; nothing need stand there yet. -/
def resolve? (fs : FileSystem) (path : Path) : Except FileError Place :=
  match pathError? path with
  | some e => .error e
  | none => fs.descend (fs.start path) (Path.pieces path.text.toList)

/-- The place at which a path makes a file. A name with slashes behind it is that of a directory,
even if nothing stands there. -/
def fileResolve? (fs : FileSystem) (path : Path) : Except FileError Place :=
  match pathError? path, Path.beforeSlashedName? (Path.pieces path.text.toList) with
  | none, some before =>
    match fs.descend (fs.start path) (before ++ [[]]) with
    | .ok _ => .error .isDirectory
    | .error e => .error e
  | _, _ => fs.resolve? path

/-- The place with a new entry: in place of the old one, or behind all others. -/
def put (fs : FileSystem) (place : Place) (e : Entry) : FileSystem :=
  if (fs.get? place).isSome then
    { fs with entries := fs.entries.map fun x => if x.1 = place then (place, e) else x }
  else { fs with entries := fs.entries ++ [(place, e)] }

/-- The file system without the entry at a place. -/
def erase (fs : FileSystem) (place : Place) : FileSystem :=
  { fs with entries := fs.entries.filter (·.1 ≠ place) }

theorem lookup_map_replace (entries : List (Place × Entry)) (place other : Place) (e : Entry) :
    (entries.map fun x => if x.1 = place then (place, e) else x).lookup other =
      if other = place ∧ (entries.lookup place).isSome then some e else entries.lookup other := by
  induction entries with
  | nil => simp
  | cons x xs ih =>
    obtain ⟨p, old⟩ := x
    by_cases hp : p = place
    · subst hp
      by_cases ho : other = p
      · simp [ho]
      · have : (other == p) = false := beq_false_of_ne ho
        simpa [List.lookup_cons, this, ho] using ih
    · have hl : List.lookup place ((p, old) :: xs) = List.lookup place xs := by
        rw [List.lookup_cons, beq_false_of_ne (Ne.symm hp)]
      rw [hl]
      by_cases ho : other = p
      · simp [ho, hp]
      · have : (other == p) = false := beq_false_of_ne ho
        simpa [List.lookup_cons, this, hp] using ih

/-- A new entry is found at its place, and nothing else changes. -/
theorem get?_put (fs : FileSystem) (place other : Place) (e : Entry) :
    (fs.put place e).get? other = if other = place then some e else fs.get? other := by
  unfold put get?
  split
  · rename_i h
    rw [lookup_map_replace]
    simp [h]
  · rename_i h
    rw [List.lookup_append]
    by_cases ho : other = place
    · subst ho
      simp [Option.not_isSome_iff_eq_none.mp h]
    · simp [ho, List.lookup_cons, beq_false_of_ne ho]

/-- An erased entry is gone, and nothing else changes. -/
theorem get?_erase (fs : FileSystem) (place other : Place) :
    (fs.erase place).get? other = if other = place then none else fs.get? other := by
  unfold erase get?
  induction fs.entries with
  | nil => simp
  | cons x xs ih =>
    obtain ⟨p, e⟩ := x
    by_cases hp : p = place
    · subst hp
      by_cases ho : other = p
      · simpa [ho] using ih
      · have : (other == p) = false := beq_false_of_ne ho
        simpa [List.lookup_cons, ho, this] using ih
    · by_cases ho : other = p
      · simp [ho, hp]
      · have : (other == p) = false := beq_false_of_ne ho
        simpa [List.lookup_cons, hp, this] using ih

/-- The file system without what stands at a place and below it. -/
def eraseTree (fs : FileSystem) (place : Place) : FileSystem :=
  { fs with entries := fs.entries.filter fun x => !place.isPrefixOf x.1 }

/-- Something stands strictly below the place. -/
def hasChildren (fs : FileSystem) (place : Place) : Bool :=
  fs.entries.any fun x => place.isPrefixOf x.1 && x.1 ≠ place

/-- What a path can be opened as: a directory too, though its bytes cannot be read. -/
def open? (fs : FileSystem) (path : Path) : Except FileError Entry := do
  let place ← fs.resolve? path
  if fs.isDirectory place then return .directory
  match fs.get? place with
  | some e => return e
  | none => throw .notFound

/-- The bytes of something opened. -/
def Entry.bytes? : Entry → Except FileError ByteArray
  | .file bytes => .ok bytes
  | .directory => .error .isDirectory

/-- The bytes of the file a path means. -/
def read? (fs : FileSystem) (path : Path) : Except FileError ByteArray := do
  Entry.bytes? (← fs.open? path)

/-- The text of the file a path means. -/
def readText? (fs : FileSystem) (path : Path) : Except FileError String := do
  match String.fromUTF8? (← fs.read? path) with
  | some text => return text
  | none => throw .notText

/-- A new empty file at a path where nothing stands yet. -/
def createNew (fs : FileSystem) (path : Path) : Except FileError FileSystem := do
  let place ← fs.fileResolve? path
  if fs.isDirectory place || (fs.get? place).isSome then throw .alreadyExists
  return fs.put place (.file .empty)

/-- The bytes written to the file at a path, which is made if nothing stands there. -/
def write (fs : FileSystem) (path : Path) (bytes : ByteArray) : Except FileError FileSystem := do
  let place ← fs.fileResolve? path
  if fs.isDirectory place then throw .isDirectory
  return fs.put place (.file bytes)

/-- A new directory at a path where nothing stands yet. A path that ends in dots means a directory
that is there already. -/
def makeDirectory (fs : FileSystem) (path : Path) : Except FileError FileSystem :=
  match pathError? path, Path.lastPiece? (Path.pieces path.text.toList) with
  | some e, _ => .error e
  | none, none => .error .alreadyExists
  | none, some (before, last) => do
    let parent ← fs.descend (fs.start path) (before ++ [[]])
    if Path.isDots last then throw .alreadyExists
    if isLongName last then throw .nameTooLong
    let place := parent ++ [String.ofList last]
    if (fs.get? place).isSome then throw .alreadyExists
    return fs.put place .directory

/-- A directory stands at the path. -/
def leadsToDirectory (fs : FileSystem) (path : Path) : Bool :=
  match fs.resolve? path with
  | .ok place => fs.isDirectory place
  | .error _ => false

/-- A directory made at a path, unless one is there, and the error if there is none afterwards. -/
def ensureDirectory (fs : FileSystem) (path : Path) : FileSystem × Option FileError :=
  match fs.makeDirectory path with
  | .ok fs => (fs, none)
  | .error e => (fs, if fs.leadsToDirectory path then none else some e)

/-- A directory at the first of some paths, each of which leads through the next. Where something
is missing on the way, the directories before it are made first; they stay even if a later step
fails. -/
def ensureAlong (fs : FileSystem) : List Path → FileSystem × Option FileError
  | [] => (fs, none)
  | path :: above =>
    match fs.ensureDirectory path with
    | (fs, some .notFound) =>
      match ensureAlong fs above with
      | (fs, none) => fs.ensureDirectory path
      | failed => failed
    | done => done

/-- A directory made at a path, with all directories missing on the way. The empty path asks for
none. -/
def makeDirectories (fs : FileSystem) (path : Path) : FileSystem × Option FileError :=
  if path.text = "" then (fs, none) else fs.ensureAlong (path :: path.parents)

/-- The file at a path removed. -/
def remove (fs : FileSystem) (path : Path) : Except FileError FileSystem := do
  let place ← fs.resolve? path
  if fs.isDirectory place then throw .isDirectory
  if (fs.get? place).isNone then throw .notFound
  return fs.erase place

/-- What stands at a path removed, a directory with all that is in it. -/
def removeAll (fs : FileSystem) (path : Path) : Except FileError FileSystem := do
  let place ← fs.resolve? path
  if fs.isDirectory place then return fs.eraseTree place
  fs.remove path

/-- What stands at one place, with everything below it, moved to another place. -/
def moveTree (fs : FileSystem) (source target : Place) : FileSystem :=
  let cleared := fs.erase target
  { cleared with
    entries := cleared.entries.map fun x =>
      if source.isPrefixOf x.1 then (target ++ x.1.drop source.length, x.2) else x }

/-- What the path `source` means moved to what the path `target` means. A file takes the place of a
file, a directory that of an empty directory. -/
def rename (fs : FileSystem) (source target : Path) : Except FileError FileSystem := do
  let source ← fs.resolve? source
  let target ← fs.resolve? target
  match fs.get? source with
  | none => throw .notFound
  | some (.file bytes) =>
    if source = target then return fs
    if fs.isDirectory target then throw .isDirectory
    return (fs.put target (.file bytes)).erase source
  | some .directory =>
    if source = target then return fs
    if source.isPrefixOf target then throw .invalidMove
    match fs.get? target with
    | some (.file _) => throw .notDirectory
    | some .directory => if fs.hasChildren target then throw .notEmpty
    | none => if fs.isDirectory target then throw .notEmpty
    return fs.moveTree source target

end FileSystem

end CudaToHip
