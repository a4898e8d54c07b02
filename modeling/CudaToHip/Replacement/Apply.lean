import CudaToHip.Failure
import CudaToHip.Replacement.Set

/-!
# Applying edits to a text

The accepted edits are applied in one sweep from the front over the text they were found in, so that
no edit moves the span of another. An edit that cannot be applied is skipped with a reason, and the
others still go in.

`applied_add_skipped`: every edit is counted once, as applied or as skipped.
-/

namespace CudaToHip

/-- Why an accepted edit was not applied. -/
inductive SkipReason where
  | outOfBounds (span : Span) (len : Nat)
  | splitsCharacter (span : Span)
  | overlapsApplied (span : Span)
  | sourceChanged
  | unreadable (failure : Failure)
  deriving Repr, DecidableEq, Inhabited

def SkipReason.message : SkipReason → String
  | .outOfBounds span len =>
    "span " ++ toString span ++ " is outside the " ++ toString len ++ "-byte source"
  | .splitsCharacter span => "span " ++ toString span ++ " splits a character"
  | .overlapsApplied span =>
    "span " ++ toString span ++ " overlaps an edit applied before it"
  | .sourceChanged => "file changed on disk after analysis"
  | .unreadable failure => failure.message

/-- A skipped edit. -/
structure Skip where
  edit : Edit
  reason : SkipReason
  deriving Repr, DecidableEq, Inhabited

/-- A text with edits applied. -/
structure Applied where
  text : String
  applied : Nat
  skipped : List Skip
  deriving Repr, DecidableEq, Inhabited

namespace Applied

/-- Nothing was skipped. -/
def isComplete (a : Applied) : Bool := a.skipped.isEmpty

/-- Why an edit cannot be applied to a text that is edited up to byte `cursor`. -/
def refusal? (source : String) (cursor : Nat) (e : Edit) : Option SkipReason :=
  let len := source.utf8ByteSize
  if e.span.stop > len then some (.outOfBounds e.span len)
  else if e.span.start < cursor then some (.overlapsApplied e.span)
  else if (e.span.text? source).isNone then some (.splitsCharacter e.span)
  else none

/-- The text from byte `cursor` on with the edits applied in turn. -/
def sweep (source : String) (cursor : Nat) : List Edit → Applied
  | [] => ⟨Text.since source cursor, 0, []⟩
  | e :: es =>
    match refusal? source cursor e with
    | some reason =>
      let rest := sweep source cursor es
      { rest with skipped := ⟨e, reason⟩ :: rest.skipped }
    | none =>
      let rest := sweep source e.span.stop es
      { rest with
        text := Text.between source cursor e.span.start ++ e.newText ++ rest.text
        applied := rest.applied + 1 }

/-- Every edit is counted once, as applied or as skipped. -/
theorem applied_add_skipped (source : String) (cursor : Nat) (es : List Edit) :
    (sweep source cursor es).applied + (sweep source cursor es).skipped.length = es.length := by
  induction es generalizing cursor with
  | nil => rfl
  | cons e es ih =>
    simp only [sweep]
    split
    · simp only [List.length_cons, ← ih cursor]; omega
    · simp only [List.length_cons, ← ih e.span.stop]; omega

end Applied

/-- The text with the accepted edits applied. -/
def ReplacementSet.applyTo (s : ReplacementSet) (source : String) : Applied :=
  Applied.sweep source 0 s.edits

end CudaToHip
