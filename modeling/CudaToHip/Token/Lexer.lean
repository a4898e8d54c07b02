import CudaToHip.Text.Offset
import CudaToHip.Token.Basic

/-!
# Reading tokens

The lexer reads a range of a text. At each step `Lexer.measure` looks at the character it stands on
and says what begins there, a token or something to skip, and how many of the following characters
belong to it. Blanks, comments and backslashes before a line break are skipped.

Deciding what a character begins may take a look at the character after it. At the end of the range
that is the character behind the range (`after`), while nothing behind the range ever becomes part
of a token.

`tokenize` reads a whole text, `tokenizeIn` a range of it; offsets are those of the whole text.
-/

namespace CudaToHip

namespace Lexer

/-- Space, tab, line feed, form feed, carriage return. -/
def isBlank (c : Char) : Bool :=
  c = ' ' || c = '\t' || c = '\n' || c = '\x0c' || c = '\r'

/-- A name starts with a letter, an underscore or anything outside ASCII. -/
def startsName (c : Char) : Bool := c.isAlpha || c = '_' || 0x80 ≤ c.toNat

def continuesName (c : Char) : Bool := c.isAlphanum || c = '_' || 0x80 ≤ c.toNat

/-- Letters that give the encoding of a literal. -/
def encodings : List (List Char) := [['L'], ['u'], ['U'], ['u', '8']]

/-- Letters in front of a raw string. -/
def rawMarks : List (List Char) := ['R'] :: encodings.map (· ++ ['R'])

/-- Punctuators of several characters; of two that fit the earlier one is taken. -/
def longPuncts : List (List Char) :=
  ["<<<", ">>>", "<<=", ">>=", "...", "->*", "::", "->", "++", "--", "<<", ">>", "<=", ">=", "==",
   "!=", "&&", "||", "+=", "-=", "*=", "/=", "%=", "&=", "|=", "^="].map String.toList

/-- What begins at a character: a token of some kind or something to skip, and the number of
further characters that belong to it, which may be more than there are. -/
structure Measure where
  kind? : Option TokenKind
  further : Nat
  deriving Repr, DecidableEq

/-- The character that follows `cs`: within the range, or just behind it. -/
def next? (after : Option Char) (cs : List Char) : Option Char := cs.head?.or after

/-- Characters up to the end of a block comment, its end mark included. -/
def blockCommentLength (after : Option Char) : List Char → Nat
  | [] => 0
  | c :: cs =>
    if c = '*' ∧ next? after cs = some '/' then 2 else 1 + blockCommentLength after cs

/-- Characters up to the end of a quoted literal, its closing quote included. A backslash takes the
next character with it; a line feed ends the literal and is not part of it. -/
def quotedLength (quote : Char) : List Char → Nat
  | [] => 0
  | '\\' :: [] => 1
  | '\\' :: _ :: cs => 2 + quotedLength quote cs
  | '\n' :: _ => 0
  | c :: cs => if c = quote then 1 else 1 + quotedLength quote cs

/-- The number of characters before the first occurrence of `word`. -/
def countBefore (word : List Char) : List Char → Option Nat
  | [] => if word.isEmpty then some 0 else none
  | c :: cs => if word.isPrefixOf (c :: cs) then some 0 else (countBefore word cs).map (· + 1)

/-- Characters of a raw string after its opening quote: a delimiter, an opening parenthesis, and
everything up to a closing parenthesis with the same delimiter and a quote. Without them the
literal takes everything. -/
def rawLength (cs : List Char) : Nat :=
  let delimiter := cs.takeWhile (· ≠ '(')
  let closing := ')' :: delimiter ++ ['"']
  match countBefore closing (cs.drop delimiter.length) with
  | some n => delimiter.length + n + closing.length
  | none => cs.length

/-- Characters that go on a number, after the character `last`. A sign goes on after an exponent
letter. -/
def numberLength (last : Char) : List Char → Nat
  | [] => 0
  | c :: cs =>
    if c.isAlphanum || c = '_' || c = '.' || c = '\'' then 1 + numberLength c cs
    else if (c = '+' || c = '-') && (last = 'e' || last = 'E' || last = 'p' || last = 'P') then
      1 + numberLength c cs
    else 0

/-- A name, or the literal that its letters introduce. -/
def measureName (after : Option Char) (c : Char) (cs : List Char) : Measure :=
  let tail := cs.takeWhile continuesName
  let rest := cs.drop tail.length
  let word := c :: tail
  match next? after rest with
  | some '"' =>
    if rawMarks.contains word then
      ⟨some .string, tail.length + 1 + rawLength (rest.drop 1)⟩
    else if encodings.contains word then
      ⟨some .string, tail.length + 1 + quotedLength '"' (rest.drop 1)⟩
    else
      ⟨some .identifier, tail.length⟩
  | some '\'' =>
    if encodings.contains word then
      ⟨some .char, tail.length + 1 + quotedLength '\'' (rest.drop 1)⟩
    else
      ⟨some .identifier, tail.length⟩
  | _ => ⟨some .identifier, tail.length⟩

/-- The number of characters of the punctuator at the front of a text, less one. -/
def punctFurther (cs : List Char) : Nat :=
  match longPuncts.find? (·.isPrefixOf cs) with
  | some p => p.length - 1
  | none => 0

/-- What begins at the character `c` that `cs` follows. -/
def measure (after : Option Char) (c : Char) (cs : List Char) : Measure :=
  let next := next? after cs
  if isBlank c || (c = '\\' && (next = some '\n' || next = some '\r')) then ⟨none, 0⟩
  else if c = '/' && next = some '/' then ⟨none, (cs.takeWhile (· ≠ '\n')).length⟩
  else if c = '/' && next = some '*' then ⟨none, 1 + blockCommentLength after (cs.drop 1)⟩
  else if c = '"' then ⟨some .string, quotedLength '"' cs⟩
  else if c = '\'' then ⟨some .char, quotedLength '\'' cs⟩
  else if startsName c then measureName after c cs
  else if c.isDigit || (c = '.' && next.any Char.isDigit) then ⟨some .number, numberLength c cs⟩
  else ⟨some .punct, punctFurther (c :: cs)⟩

/-- The tokens of `cs`, which begins at byte `pos`. -/
def tokens (after : Option Char) (pos : Nat) : List Char → List Token
  | [] => []
  | c :: cs =>
    let m := measure after c cs
    let text := c :: cs.take m.further
    let rest := tokens after (pos + Text.byteLength text) (cs.drop m.further)
    match m.kind? with
    | some kind => ⟨kind, pos, String.ofList text⟩ :: rest
    | none => rest
termination_by cs => cs.length
decreasing_by simp only [List.length_drop, List.length_cons]; omega

end Lexer

/-- The tokens of a text. -/
def tokenize (source : String) : List Token := Lexer.tokens none 0 source.toList

/-- The tokens of a range of a text. -/
def tokenizeIn (source : String) (range : Span) : List Token :=
  let rest := Text.dropBytes range.start source.toList
  let len := range.stop - range.start
  Lexer.tokens (Text.dropBytes len rest).head? range.start (Text.takeBytes len rest)

end CudaToHip
