import CudaToHip.Match
import CudaToHip.Token.Lexer

/-!
# Neutralized source

A C++ grammar knows neither the qualifiers that say where code runs nor the `<<<...>>>` of a kernel
launch. `neutralize` finds both among the tokens and overwrites them with blanks, so that the rest
can be parsed. Blanking keeps every line break and every byte offset: what is recorded here about
the blanked places can be put back by position.
-/

namespace CudaToHip

/-- The qualifiers that are blanked. -/
inductive Qualifier where
  | global
  | device
  | host
  | shared
  | constant
  | managed
  | forceInline
  | noInline
  | restrict
  | launchBounds
  deriving Repr, DecidableEq, Inhabited

/-- The qualifier a name spells. -/
def Qualifier.ofKeyword? (word : String) : Option Qualifier :=
  if word = "__global__" then some .global
  else if word = "__device__" then some .device
  else if word = "__host__" then some .host
  else if word = "__shared__" then some .shared
  else if word = "__constant__" then some .constant
  else if word = "__managed__" then some .managed
  else if word = "__forceinline__" then some .forceInline
  else if word = "__noinline__" then some .noInline
  else if word = "__restrict__" then some .restrict
  else if word = "__launch_bounds__" then some .launchBounds
  else none

/-- A qualifier and where it stands, its arguments included. -/
structure QualifierSite where
  kind : Qualifier
  span : Span
  deriving Repr, DecidableEq, Inhabited

/-- A launch configuration: the span from the first to the last angle bracket, and the arguments
that are not empty. -/
structure LaunchConfig where
  span : Span
  args : List Captured
  deriving Repr, DecidableEq, Inhabited

namespace LaunchConfig

/-- A configuration read from the tokens behind its opening bracket: the arguments, the byte after
the closing bracket, and the number of tokens read, the closing bracket included. -/
structure Reading where
  args : List Captured
  stop : Nat
  count : Nat
  deriving Repr, DecidableEq

/-- The run of tokens so far, made longer by one. -/
def extend (run : Option Span) (t : Token) : Option Span :=
  match run with
  | none => some t.span
  | some s => some ⟨s.start, t.span.stop⟩

/-- The text of a finished run; nothing for an empty one. -/
def capture (source : String) (run : Option Span) : List Captured :=
  match run with
  | none => []
  | some s => [⟨s, Text.between source s.start s.stop⟩]

/-- Reads arguments up to the closing bracket at depth zero, commas at depth zero dividing them. A
semicolon, a bracket that was not opened here or the end of the tokens means that this is no launch
configuration. -/
def read? (source : String) (depth : Nat) (run : Option Span) : List Token → Option Reading
  | [] => none
  | t :: ts =>
    let goOn (depth : Nat) : Option Reading :=
      (read? source depth (extend run t) ts).map fun r => { r with count := r.count + 1 }
    if t.isPunctIn ["(", "[", "\x7b"] then goOn (depth + 1)
    else if t.isPunctIn [")", "]", "\x7d"] then
      if depth = 0 then none else goOn (depth - 1)
    else if t.isPunct ";" then none
    else if t.isPunct ">>>" ∧ depth = 0 then some ⟨capture source run, t.span.stop, 1⟩
    else if t.isPunct "," ∧ depth = 0 then
      (read? source depth none ts).map fun r =>
        { r with args := capture source run ++ r.args, count := r.count + 1 }
    else goOn depth

end LaunchConfig

/-- A place that gets blanked. -/
inductive BlankedSite where
  | qualifier (site : QualifierSite)
  | launch (config : LaunchConfig)
  deriving Repr, DecidableEq

namespace BlankedSite

def span : BlankedSite → Span
  | .qualifier s => s.span
  | .launch c => c.span

/-- A qualifier token: the place it takes, with the parenthesized arguments of launch bounds, and
the number of further tokens in it. -/
def ofQualifier (kind : Qualifier) (t : Token) (ts : List Token) : BlankedSite × Nat :=
  let plain : BlankedSite × Nat := (.qualifier ⟨kind, t.span⟩, 0)
  if kind = .launchBounds ∧ ts.head?.any (·.isPunct "(") then
    match Token.countToClose "(" ")" 0 ts with
    | some n =>
      match ts[n]? with
      | some closing => (.qualifier ⟨kind, ⟨t.start, closing.span.stop⟩⟩, n + 1)
      | none => plain
    | none => plain
  else plain

/-- What begins at the token `t` that `ts` follows: a place to blank, if any, and the number of
further tokens in it. -/
def at? (source : String) (t : Token) (ts : List Token) : Option BlankedSite × Nat :=
  if t.kind = .identifier then
    match Qualifier.ofKeyword? t.text with
    | some kind =>
      let (site, n) := ofQualifier kind t ts
      (some site, n)
    | none => (none, 0)
  else if t.isPunct "<<<" then
    match LaunchConfig.read? source 0 none ts with
    | some r => (some (.launch ⟨⟨t.start, r.stop⟩, r.args⟩), r.count)
    | none => (none, 0)
  else (none, 0)

/-- The places to blank, in order. -/
def all (source : String) : List Token → List BlankedSite
  | [] => []
  | t :: ts =>
    let (site?, n) := at? source t ts
    site?.toList ++ all source (ts.drop n)
termination_by ts => ts.length
decreasing_by simp only [List.length_drop, List.length_cons]; omega

end BlankedSite

/-- A line break stays as it is; any other character becomes as many spaces as it has bytes. -/
def blankChar (c : Char) : List Char :=
  if c = '\n' ∨ c = '\r' then [c] else List.replicate c.utf8Size ' '

/-- The text from byte `pos` on, with the characters that begin in one of the spans blanked. -/
def blankSpans (spans : List Span) (pos : Nat) : List Char → List Char
  | [] => []
  | c :: cs =>
    (if spans.any fun s => s.start ≤ pos && pos < s.stop then blankChar c else [c]) ++
      blankSpans spans (pos + c.utf8Size) cs

/-- Source ready for the grammar, and what was taken out of it, each list in order of position. -/
structure Neutralized where
  code : String
  qualifiers : List QualifierSite
  launches : List LaunchConfig
  deriving Repr, DecidableEq

namespace Neutralized

/-- The qualifiers that stand within a range. -/
def qualifiersIn (n : Neutralized) (range : Span) : List Qualifier :=
  (n.qualifiers.filter fun q => range.contains q.span).map (·.kind)

/-- The first launch configuration within a range. -/
def launchIn? (n : Neutralized) (range : Span) : Option LaunchConfig :=
  n.launches.find? fun l => range.contains l.span

end Neutralized

/-- Blanks out of a text what only CUDA knows. -/
def neutralize (source : String) : Neutralized :=
  let sites := BlankedSite.all source (tokenize source)
  { code := String.ofList (blankSpans (sites.map BlankedSite.span) 0 source.toList)
    qualifiers := sites.filterMap fun | .qualifier s => some s | .launch _ => none
    launches := sites.filterMap fun | .launch c => some c | .qualifier _ => none }

end CudaToHip
