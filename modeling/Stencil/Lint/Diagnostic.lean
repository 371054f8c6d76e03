import Stencil.Text.Lines
import Stencil.Text.Span

/-!
# Diagnostics

A finding is what a rule has to say about a span of a document, perhaps with a fix.  A diagnostic
is a finding with the rule that made it, its severity and its positions.  `normalize` brings
diagnostics in order and leaves out repetitions; `applyFixes` makes the fixes that lie apart from
each other, from left to right.
-/

namespace Stencil.Lint

/-- How findings are taken. -/
inductive Severity where
  | off
  | warn
  | error
  deriving DecidableEq, Repr, Inhabited

/-- How a severity is written in a configuration. -/
def Severity.key : Severity → String
  | off => "off"
  | warn => "warn"
  | error => "error"

/-- The severity that is written as given. -/
def Severity.ofKey? (s : String) : Option Severity := [off, warn, error].find? (·.key == s)

/-- How a severity is shown. -/
def Severity.shown : Severity → String
  | off => "off"
  | warn => "warning"
  | error => "error"

/-- The replacement of a span by a text. -/
structure Fix where
  span : Span
  replacement : Text
  deriving DecidableEq, Repr, Inhabited

namespace Fix

/-- The insertion of a text at an offset. -/
def insert (offset : Nat) (t : Text) : Fix := ⟨⟨offset, offset⟩, t⟩

/-- The removal of a span. -/
def remove (s : Span) : Fix := ⟨s, []⟩

end Fix

/-- What a rule has to say. -/
structure Finding where
  span : Span
  message : String
  fix : Option Fix := none
  deriving DecidableEq, Repr, Inhabited

/-- A finding with its rule, its severity and its positions, whose columns count from one. -/
structure Diagnostic where
  rule : String
  severity : Severity
  message : String
  span : Span
  start : Location
  stop : Location
  fix : Option Fix
  deriving DecidableEq, Repr, Inhabited

/-- The position of an offset. -/
def positionAt (lines : Lines) (offset : Nat) : Location :=
  let l := lines.location offset
  { l with column := l.column + 1 }

namespace Diagnostic

/-- The diagnostic of a finding. -/
def ofFinding (rule : String) (severity : Severity) (lines : Lines) (f : Finding) : Diagnostic :=
  ⟨rule, severity, f.message, f.span, positionAt lines f.span.start, positionAt lines f.span.stop,
    f.fix⟩

/-- How a diagnostic is shown. -/
def shown (d : Diagnostic) : String :=
  s!"{d.start.line}:{d.start.column}  {d.severity.shown}  {d.message}  {d.rule}"

/-- The order of diagnostics: by span, then by rule, then by message. -/
def le (a b : Diagnostic) : Bool :=
  if a.span ≠ b.span then a.span.before b.span
  else if a.rule ≠ b.rule then a.rule < b.rule
  else a.message ≤ b.message

end Diagnostic

/-- Leaves out entries that are equal to the one before them. -/
def dropRepeats {α : Type} [DecidableEq α] : List α → List α
  | [] => []
  | [a] => [a]
  | a :: b :: rest => if a = b then dropRepeats (b :: rest) else a :: dropRepeats (b :: rest)

/-- The diagnostics in order and without repetitions. -/
def normalize (ds : List Diagnostic) : List Diagnostic := dropRepeats (ds.mergeSort Diagnostic.le)

/-- The fixes that are made, from left to right.  A fix is left out if it does not begin after the
end of the last one that is made, or if it reaches beyond the document, whose width is given. -/
def chooseFixes (width : Nat) (last : Option Nat) : List Fix → List Fix
  | [] => []
  | f :: rest =>
    if last.any (f.span.start ≤ ·) || width < f.span.stop then chooseFixes width last rest
    else f :: chooseFixes width (some f.span.stop) rest

/-- The document from offset `cursor` on with fixes made that lie in order. -/
def makeFixes (document : Text) (cursor : Nat) : List Fix → Text
  | [] => Text.onward cursor document
  | f :: rest =>
    Text.slice document cursor f.span.start ++ f.replacement ++ makeFixes document f.span.stop rest

/-- The fixes of diagnostics in the order in which they are tried. -/
def orderedFixes (ds : List Diagnostic) : List Fix :=
  (ds.filterMap (·.fix)).mergeSort fun a b => a.span.le b.span

/-- The document with the fixes of diagnostics made that lie apart, and their number. -/
def applyFixes (document : Text) (ds : List Diagnostic) : Text × Nat :=
  let chosen := chooseFixes (Text.width document) none (orderedFixes ds)
  (makeFixes document 0 chosen, chosen.length)

end Stencil.Lint
