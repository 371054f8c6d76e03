import Stencil.Text.Basic
import Stencil.Text.Span

/-!
# Template tags

A template tag is a piece of code in a document.  Its span consists of an opening, the code and
a closing, one after the other.  The code of an output tag is an expression whose value takes
the place of the tag, while the code of an evaluate tag is part of a program.
-/

namespace Stencil

/-- The kinds of template tags. -/
inductive Tag.Kind where
  | evaluate
  | interpolate
  | escape
  deriving DecidableEq, Repr, Inhabited

namespace Tag.Kind

/-- The name of a kind. -/
def name : Kind → String
  | evaluate => "evaluate"
  | interpolate => "interpolate"
  | escape => "escape"

/-- The value of the code takes the place of the tag. -/
def isOutput : Kind → Bool
  | evaluate => false
  | interpolate => true
  | escape => true

end Tag.Kind

/-- A template tag, by the spans of its parts. -/
structure Tag where
  kind : Tag.Kind
  span : Span
  opening : Span
  code : Span
  closing : Span
  deriving DecidableEq, Repr, Inhabited

namespace Tag

/-- The tag with the given span and code. -/
def ofCode (kind : Kind) (span code : Span) : Tag :=
  ⟨kind, span, ⟨span.start, code.start⟩, code, ⟨code.stop, span.stop⟩⟩

end Tag

end Stencil
