import CudaToHip.Span

/-!
# Tokens

A token of C++ with CUDA's launch brackets: its kind, where it starts and its text. Its span is
computed from these, so a token cannot disagree with its own length.

`closing?` finds the bracket that closes an opening one by counting brackets of its kind.
-/

namespace CudaToHip

inductive TokenKind where
  | identifier
  | number
  /-- A string literal with its encoding letters, raw strings included. -/
  | string
  | char
  | punct
  deriving Repr, DecidableEq, Inhabited

/-- A token at a byte offset of a text. -/
structure Token where
  kind : TokenKind
  start : Nat
  text : String
  deriving Repr, DecidableEq, Inhabited

namespace Token

/-- The bytes the token takes. -/
def span (t : Token) : Span := .ofLength t.start t.text.utf8ByteSize

/-- The token is the given punctuator. -/
def isPunct (t : Token) (punct : String) : Bool := t.kind = .punct && t.text = punct

/-- The token is one of the given punctuators. -/
def isPunctIn (t : Token) (puncts : List String) : Bool := puncts.any t.isPunct

/-- The bracket that closes the given one. -/
def closer? (opening : String) : Option String :=
  if opening = "(" then some ")"
  else if opening = "[" then some "]"
  else if opening = "\x7b" then some "\x7d"
  else none

/-- How many tokens stand before the one that brings `depth` open brackets down to none. -/
def countToClose (opening closing : String) : Nat → List Token → Option Nat
  | _, [] => none
  | depth, t :: ts =>
    if t.isPunct opening then (countToClose opening closing (depth + 1) ts).map (· + 1)
    else if t.isPunct closing then
      if depth ≤ 1 then some 0
      else (countToClose opening closing (depth - 1) ts).map (· + 1)
    else (countToClose opening closing depth ts).map (· + 1)

/-- The index of the token that closes the bracket at index `opening`. -/
def closing? (tokens : List Token) (opening : Nat) : Option Nat := do
  let first ← tokens[opening]?
  let closing ← closer? first.text
  let n ← countToClose first.text closing 0 (tokens.drop opening)
  return opening + n

end Token

end CudaToHip
