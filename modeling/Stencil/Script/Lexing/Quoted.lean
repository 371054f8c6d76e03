import Stencil.Script.Lexing.Escape

/-!
# Quoted texts

A string ends at the quote it began with, a piece of a template at a backquote or before an
expression in braces, and a regular expression at a slash outside of brackets.  A backslash
takes the character after it out of consideration.  Strings and regular expressions do not run
over the end of a line, except that a string does so after a backslash.
-/

namespace Stencil.Script

/-- What was read of a quoted text: the text between its delimiters, whether its end was found,
and the text that is left. -/
structure QuotedReading where
  body : Text
  closed : Bool
  rest : Text
  deriving Repr, Inhabited

/-- Puts a character in front of what was read. -/
def QuotedReading.cons (c : Char) (r : QuotedReading) : QuotedReading :=
  { r with body := c :: r.body }

/-- Reads a string up to the given quote.  Where its line ends first, the terminator is passed
over. -/
def readString (quote : Char) : Text → QuotedReading
  | [] => ⟨[], false, []⟩
  | '\\' :: [] => ⟨['\\'], false, []⟩
  | '\\' :: '\r' :: '\n' :: t => (readString quote t).cons '\n' |>.cons '\r' |>.cons '\\'
  | '\\' :: c :: t => (readString quote t).cons c |>.cons '\\'
  | c :: t =>
    if c == quote then ⟨[], true, t⟩
    else if c == '\n' || c == '\r' then ⟨[], false, t⟩
    else (readString quote t).cons c

/-- The end of a piece of a template: the end of the template, an expression, or the end of the
text. -/
inductive TemplateEnd where
  | template
  | expression
  | text
  deriving DecidableEq, Repr, Inhabited

/-- What was read of a template up to the end of a piece. -/
structure TemplateReading where
  body : Text
  ending : TemplateEnd
  rest : Text
  deriving Repr, Inhabited

/-- Puts a character in front of what was read. -/
def TemplateReading.cons (c : Char) (r : TemplateReading) : TemplateReading :=
  { r with body := c :: r.body }

/-- Reads a piece of a template. -/
def readTemplate : Text → TemplateReading
  | [] => ⟨[], .text, []⟩
  | '\\' :: [] => ⟨['\\'], .text, []⟩
  | '\\' :: c :: t => (readTemplate t).cons c |>.cons '\\'
  | '\x60' :: t => ⟨[], .template, t⟩
  | '$' :: '{' :: t => ⟨[], .expression, t⟩
  | c :: t => (readTemplate t).cons c

/-- Reads a regular expression up to its closing slash.  Where its line ends first, the
terminator is passed over. -/
def readRegex (escaped inClass : Bool) : Text → QuotedReading
  | [] => ⟨[], false, []⟩
  | c :: t =>
    if isLineBreak c then ⟨[], false, t⟩
    else if escaped then (readRegex false inClass t).cons c
    else if c == '/' && !inClass then ⟨[], true, t⟩
    else if c == '[' then (readRegex false true t).cons c
    else if c == ']' then (readRegex false false t).cons c
    else (readRegex (c == '\\') inClass t).cons c

/-- The character may stand among the flags of a regular expression. -/
def isFlagCharacter (c : Char) : Bool := c == '$' || c == '_' || c.isAlphanum

/-- The flags are known and each of them stands once. -/
def areFlagsValid (flags : Text) : Bool :=
  flags.all (· ∈ ['g', 'i', 'm', 's', 'u', 'y', 'd', 'v']) && flags.eraseDups.length == flags.length

end Stencil.Script
