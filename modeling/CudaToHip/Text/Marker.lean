/-!
# Markers inside text

A marker is a word that is exchanged for another one wherever it stands in a text. `replaceAll`
reads the text once from the left: an occurrence is exchanged and skipped, so that what was put in
is never read again.
-/

namespace CudaToHip.Text

/-- A word to look for and the word to put in its place. -/
structure Marker where
  word : String
  into : String
  deriving Repr, DecidableEq

/-- The default marker. -/
def Marker.default : Marker := ⟨"cuda", "hip"⟩

/-- Every occurrence of `word`, taken from the left without overlap, exchanged for `into`.
An empty word occurs nowhere. -/
def replaceAll (word into : List Char) : List Char → List Char
  | [] => []
  | c :: cs =>
    if word ≠ [] ∧ word.isPrefixOf (c :: cs) then
      into ++ replaceAll word into (cs.drop (word.length - 1))
    else
      c :: replaceAll word into cs
termination_by cs => cs.length
decreasing_by
  · simp only [List.length_drop, List.length_cons]; omega
  · simp

/-- The word stands somewhere in the text. -/
def occurs (word : List Char) : List Char → Bool
  | [] => word.isPrefixOf []
  | c :: cs => word.isPrefixOf (c :: cs) || occurs word cs

/-- The text with the marker exchanged, or nothing if there is nothing to exchange. -/
def Marker.replaceIn (m : Marker) (text : String) : Option String :=
  if m.word ≠ "" ∧ occurs m.word.toList text.toList then
    some (String.ofList (replaceAll m.word.toList m.into.toList text.toList))
  else
    none

end CudaToHip.Text
