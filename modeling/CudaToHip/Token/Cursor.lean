import CudaToHip.Token.Lexer

/-!
# A cursor over the bytes of a text

The lexer as it goes over the bytes of a text: an escape takes the cursor two bytes on, into the
middle of a character even, a comment may take it past the end, and the text is cut wherever it
stands. In `Cursor.readFrom?` every such thing may fail: there may be no byte under the cursor, a
cut may be out of range or divide a character, and a round may not move on.

`Cursor.readIn?` reads a range of a text, `Cursor.read?` all of it. What they read are the tokens of
`tokenizeIn` and `tokenize`.
-/

namespace CudaToHip

namespace Cursor

open Lexer Text

/-- The byte at an offset, as the character of its number. -/
def look? (source : String) (i : Nat) : Option Char := (byte? source i).map Char.ofUInt8

/-- The first byte from `i` on that fails the test, or the end of the range. -/
def skipWhile? (source : String) (stop : Nat) (p : Char → Bool) (i : Nat) : Option Nat :=
  if i < stop then
    match look? source i with
    | some c => if p c then skipWhile? source stop p (i + 1) else some i
    | none => none
  else some i
termination_by stop - i

/-- The end of a block comment, from behind its opening mark on. -/
def skipBlockComment? (source : String) (stop i : Nat) : Option Nat :=
  if i < stop then
    match look? source i with
    | some c =>
      if c = '*' ∧ look? source (i + 1) = some '/' then some (min (i + 2) stop)
      else skipBlockComment? source stop (i + 1)
    | none => none
  else some (min (i + 2) stop)
termination_by stop - i

/-- The end of a quoted literal, from behind its opening quote on. -/
def skipQuoted? (source : String) (stop : Nat) (quote : Char) (i : Nat) : Option Nat :=
  if i < stop then
    match look? source i with
    | some c =>
      if c = '\\' then skipQuoted? source stop quote (i + 2)
      else if c = '\n' then some i
      else if c = quote then some (i + 1)
      else skipQuoted? source stop quote (i + 1)
    | none => none
  else some stop
termination_by stop - i

/-- The end of a number, from behind its first byte on. -/
def skipNumber? (source : String) (stop i : Nat) : Option Nat :=
  if i < stop then
    match look? source i, look? source (i - 1) with
    | some c, some last =>
      if c.isAlphanum || c = '_' || c = '.' || c = '\'' then skipNumber? source stop (i + 1)
      else if (c = '+' || c = '-') && (last = 'e' || last = 'E' || last = 'p' || last = 'P') then
        skipNumber? source stop (i + 1)
      else some i
    | _, _ => none
  else some i
termination_by stop - i

/-- The offset of the first occurrence of a word. -/
def find? (text : String) (word : List Char) : Option Nat :=
  (countBefore word text.toList).map fun n => byteLength (text.toList.take n)

/-- The end of a raw string whose opening quote is at `i`. -/
def skipRaw? (source : String) (stop i : Nat) : Option Nat := do
  let body ← slice? source (i + 1) stop
  match find? body ['('] with
  | none => some stop
  | some opening =>
    let delimiter ← slice? body 0 opening
    let rest ← slice? body opening body.utf8ByteSize
    let closing := ')' :: delimiter.toList ++ ['"']
    match find? rest closing with
    | some n => some (i + 1 + opening + n + byteLength closing)
    | none => some stop

/-- A name at `i`, or the literal that its letters introduce, and where it ends. -/
def name? (source : String) (stop i : Nat) : Option (TokenKind × Nat) := do
  let j ← skipWhile? source stop continuesName i
  let word ← slice? source i j
  if look? source j = some '"' ∧ rawMarks.contains word.toList then
    (skipRaw? source stop j).map (.string, ·)
  else if look? source j = some '"' ∧ encodings.contains word.toList then
    (skipQuoted? source stop '"' (j + 1)).map (.string, ·)
  else if look? source j = some '\'' ∧ encodings.contains word.toList then
    (skipQuoted? source stop '\'' (j + 1)).map (.char, ·)
  else some (.identifier, j)

/-- The end of the punctuator at `i`. -/
def skipPunct? (source : String) (stop i : Nat) : Option Nat := do
  let rest ← slice? source i stop
  match longPuncts.find? (·.isPrefixOf rest.toList) with
  | some p => some (i + byteLength p)
  | none => some (i + (rest.toList.head?.map Char.utf8Size).getD 1)

/-- One round of the cursor: the kind of token that begins at `i`, if one does, and where the cursor
stands behind it. -/
def step? (source : String) (stop i : Nat) : Option (Option TokenKind × Nat) := do
  let c ← look? source i
  let next := look? source (i + 1)
  if Lexer.isBlank c || (c = '\\' && (next = some '\n' || next = some '\r')) then some (none, i + 1)
  else if c = '/' && next = some '/' then (skipWhile? source stop (· ≠ '\n') i).map (none, ·)
  else if c = '/' && next = some '*' then (skipBlockComment? source stop (i + 2)).map (none, ·)
  else if c = '"' then (skipQuoted? source stop '"' (i + 1)).map (some .string, ·)
  else if c = '\'' then (skipQuoted? source stop '\'' (i + 1)).map (some .char, ·)
  else if startsName c then (name? source stop i).map fun (kind, j) => (some kind, j)
  else if c.isDigit || (c = '.' && next.any Char.isDigit) then
    (skipNumber? source stop (i + 1)).map (some .number, ·)
  else (skipPunct? source stop i).map (some .punct, ·)

/-- The tokens from `i` on. A round that does not move the cursor on is a failure. -/
def readFrom? (source : String) (stop i : Nat) : Option (List Token) :=
  if i < stop then
    match step? source stop i with
    | some (kind?, j) =>
      if i < j then
        match kind? with
        | some kind =>
          match slice? source i (min j stop) with
          | some text => (readFrom? source stop j).map (⟨kind, i, text⟩ :: ·)
          | none => none
        | none => readFrom? source stop j
      else none
    | none => none
  else some []
termination_by stop - i

/-- The tokens of a range. -/
def readIn? (source : String) (range : Span) : Option (List Token) :=
  readFrom? source (min range.stop source.utf8ByteSize) range.start

/-- The tokens of a text. -/
def read? (source : String) : Option (List Token) := readIn? source ⟨0, source.utf8ByteSize⟩

end Cursor

end CudaToHip
