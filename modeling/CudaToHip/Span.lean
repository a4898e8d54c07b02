import CudaToHip.Text.Offset

/-!
# Spans and locations

A span is a half-open range of byte offsets into a text that nobody changes while spans into it
are in use. Spans are ordered by start, then end, which is the order edits are applied in.

`overlaps` says that two spans claim common text. Identical spans always do, two insertions at one
offset among them; an insertion at the edge of a range does not.
-/

namespace CudaToHip

/-- The bytes from `start` up to, but not including, `stop`. -/
structure Span where
  start : Nat
  stop : Nat
  deriving Repr, DecidableEq, Inhabited

namespace Span

/-- The span of `len` bytes that begins at `offset`. -/
def ofLength (offset len : Nat) : Span := ⟨offset, offset + len⟩

def length (s : Span) : Nat := s.stop - s.start

def isEmpty (s : Span) : Bool := s.start == s.stop

/-- The offset lies inside the span and on neither edge. -/
def strictlyContains (s : Span) (point : Nat) : Bool := s.start < point && point < s.stop

/-- The two spans claim common text. -/
def overlaps (a b : Span) : Bool :=
  if a = b then true
  else if a.isEmpty then b.strictlyContains a.start
  else if b.isEmpty then a.strictlyContains b.start
  else a.start < b.stop && b.start < a.stop

/-- The second span lies inside the first, edges included. -/
def contains (outer inner : Span) : Bool :=
  outer.start ≤ inner.start && inner.stop ≤ outer.stop

/-- By start, then by end. -/
instance : Ord Span := ⟨compareLex (compareOn start) (compareOn stop)⟩

/-- The first span comes strictly before the second. -/
def before (a b : Span) : Bool := (compare a b).isLT

/-- The text a span covers, if its ends lie on character boundaries. -/
def text? (s : Span) (source : String) : Option String :=
  Text.slice? source s.start s.stop

instance : ToString Span := ⟨fun s => toString s.start ++ ".." ++ toString s.stop⟩

end Span

/-- Where a construct was found. A construct that came out of a macro argument is edited where the
argument was spelled, not where the macro body put it. -/
structure SourceLoc where
  offset : Nat
  macroArgSpelling : Option Nat
  deriving Repr, DecidableEq, Inhabited

namespace SourceLoc

/-- A location written directly in the file. -/
def direct (offset : Nat) : SourceLoc := ⟨offset, none⟩

/-- The offset at which the text literally stands. -/
def effective (l : SourceLoc) : Nat := l.macroArgSpelling.getD l.offset

/-- The span of `len` bytes at the effective offset. -/
def span (l : SourceLoc) (len : Nat) : Span := .ofLength l.effective len

end SourceLoc

end CudaToHip
