import Stencil.Text.Lines
import Stencil.Text.Span

/-!
# Trivia

Between two lexemes there may be blank characters, line terminators and comments.  A comment
runs from `//` to the end of its line or from `/*` to `*/`.  Two further marks begin a comment
that runs to the end of its line: `<!--` anywhere, and `-->` where nothing but trivia stands
before it on its line.
-/

namespace Stencil.Script

/-- The character separates lexemes without ending a line. -/
def isSeparator (c : Char) : Bool :=
  c == ' ' || c == '\t' || c == '\x0B' || c == '\x0C'
    || (c.val ≥ 0x80 && !isLineBreak c && (isBlank c || c == '\u200B' || c == '\uFEFF'))

/-- Where the scan for trivia stands: outside comments, or in a comment that began at the given
offset, after a star or not. -/
inductive TriviaMode where
  | outside
  | line (start : Nat)
  | block (start : Nat) (star : Bool)
  deriving DecidableEq, Repr

/-- The result of skipping trivia: the text that is left and its offset, whether a line ended,
the comments with the last one first, and the start of a comment that was not closed. -/
structure Trivia where
  rest : Text
  offset : Nat
  newLine : Bool
  comments : List Span
  unclosed : Option Nat
  deriving Repr, Inhabited

/-- Skips the trivia at the beginning of a text that stands at the given offset. -/
def skipTrivia (mode : TriviaMode) (offset : Nat) (newLine : Bool) (comments : List Span) :
    Text → Trivia
  | [] =>
    match mode with
    | .outside => ⟨[], offset, newLine, comments, none⟩
    | .line start => ⟨[], offset, newLine, ⟨start, offset⟩ :: comments, none⟩
    | .block start _ => ⟨[], offset, newLine, comments, some start⟩
  | c :: t =>
    let next := offset + c.utf8Size
    match mode with
    | .line start =>
      if isLineBreak c then skipTrivia .outside next true (⟨start, offset⟩ :: comments) t
      else skipTrivia (.line start) next newLine comments t
    | .block start star =>
      if star && c == '/' then
        skipTrivia .outside next newLine (⟨start, next⟩ :: comments) t
      else skipTrivia (.block start (c == '*')) next (newLine || isLineBreak c) comments t
    | .outside =>
      if isLineBreak c then skipTrivia .outside next true comments t
      else if isSeparator c then skipTrivia .outside next newLine comments t
      else
        match c, t with
        | '/', '/' :: t => skipTrivia (.line offset) (offset + 2) newLine comments t
        | '/', '*' :: t => skipTrivia (.block offset false) (offset + 2) newLine comments t
        | '<', '!' :: '-' :: '-' :: t =>
          skipTrivia (.line offset) (offset + 4) newLine comments t
        | '-', '-' :: '>' :: t =>
          if newLine then skipTrivia (.line offset) (offset + 3) newLine comments t
          else ⟨'-' :: '-' :: '>' :: t, offset, newLine, comments, none⟩
        | c, t => ⟨c :: t, offset, newLine, comments, none⟩

end Stencil.Script
