import CudaToHip.Config.Basic
import CudaToHip.Edit

/-!
# Replacement sets

The edits accepted for one file. Edits are proposed in the order they were found and the first edit
to claim a span wins; what is turned away is recorded as a conflict. When edits that overlap without
being identical are accepted, which is the case under the policy `exactSpan`, `overlappingPairs`
lists them.

`edits_propose`: a proposal leaves every accepted edit in place.
-/

namespace CudaToHip

/-- Why a proposed edit was turned away. -/
inductive ConflictReason where
  /-- An accepted edit has exactly this span. -/
  | spanClaimed
  /-- An accepted edit claims part of this span. -/
  | spanOverlapped
  deriving Repr, DecidableEq, Inhabited

def ConflictReason.label : ConflictReason → String
  | .spanClaimed => "span already claimed"
  | .spanOverlapped => "overlaps a claimed span"

/-- An edit turned away and the accepted edit it ran into. -/
structure Conflict where
  existing : Edit
  rejected : Edit
  reason : ConflictReason
  deriving Repr, DecidableEq, Inhabited

namespace Conflict

/-- Same span and same text: a construct was seen twice. -/
def isDuplicate (c : Conflict) : Bool :=
  c.existing.span = c.rejected.span && c.existing.newText = c.rejected.newText

instance : ToString Conflict where
  toString c := toString c.rejected ++ " rejected (" ++ c.reason.label ++ "), kept " ++
    toString c.existing

end Conflict

/-- The accepted edits of one file, sorted by span and one for each, and all conflicts in the order
they came up. -/
structure ReplacementSet where
  policy : ConflictPolicy
  edits : List Edit
  conflicts : List Conflict
  deriving Repr, DecidableEq, Inhabited

namespace ReplacementSet

def empty (policy : ConflictPolicy) : ReplacementSet := ⟨policy, [], []⟩

/-- The edit put in front of the first one whose span does not come before its own. -/
def insertBySpan (e : Edit) : List Edit → List Edit
  | [] => [e]
  | d :: ds => if d.span.before e.span then d :: insertBySpan e ds else e :: d :: ds

/-- The accepted edit of exactly this span. -/
def get? (s : ReplacementSet) (span : Span) : Option Edit := s.edits.find? (·.span = span)

/-- The conflict that a proposal of the edit runs into, if it runs into one. -/
def conflict? (s : ReplacementSet) (e : Edit) : Option Conflict :=
  match s.get? e.span with
  | some d => some ⟨d, e, .spanClaimed⟩
  | none =>
    match s.policy with
    | .exactSpan => none
    | .overlap => (s.edits.find? (·.span.overlaps e.span)).map (⟨·, e, .spanOverlapped⟩)

/-- The set after a proposal: the edit is accepted unless there is a conflict. -/
def propose (s : ReplacementSet) (e : Edit) : ReplacementSet :=
  match s.conflict? e with
  | some c => { s with conflicts := s.conflicts ++ [c] }
  | none => { s with edits := insertBySpan e s.edits }

/-- The set after all proposals in turn. -/
def proposeAll (s : ReplacementSet) (es : List Edit) : ReplacementSet := es.foldl propose s

def size (s : ReplacementSet) : Nat := s.edits.length

def isEmpty (s : ReplacementSet) : Bool := s.edits.isEmpty

/-- The edits among the following ones that overlap `e`. None that starts behind the end of `e` is
looked at, nor any behind it. -/
def overlapping (e : Edit) (following : List Edit) : List Edit :=
  (following.takeWhile (·.span.start ≤ e.span.stop)).filter (e.span.overlaps ·.span)

/-- Pairs of edits of a sorted list whose spans overlap. -/
def pairs : List Edit → List (Edit × Edit)
  | [] => []
  | e :: es => (overlapping e es).map (e, ·) ++ pairs es

/-- Pairs of accepted edits whose spans overlap. -/
def overlappingPairs (s : ReplacementSet) : List (Edit × Edit) := pairs s.edits

/-! ## Lemmas -/

theorem mem_insertBySpan {e d : Edit} {es : List Edit} :
    d ∈ insertBySpan e es ↔ d = e ∨ d ∈ es := by
  induction es with
  | nil => simp [insertBySpan]
  | cons f fs ih =>
    simp only [insertBySpan]
    split
    · simp only [List.mem_cons, ih]
      exact or_left_comm
    · simp only [List.mem_cons]

/-- A proposal leaves every accepted edit in place. -/
theorem edits_propose {s : ReplacementSet} {e d : Edit} (h : d ∈ s.edits) :
    d ∈ (s.propose e).edits := by
  unfold propose
  split
  · exact h
  · exact mem_insertBySpan.mpr (Or.inr h)

end ReplacementSet

end CudaToHip
