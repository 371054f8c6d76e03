import Stencil.Script.Lexeme
import Stencil.Script.Lexing.Word

/-!
# Numbers

A number is written in decimal notation, with a fraction and an exponent if need be, or with the
digits of another base after `0b`, `0o` or `0x`.  Single underscores may stand between digits.
A number that begins with a zero and another digit is octal if its digits permit it.  The letter
`n` at the end makes a number an integer of any size, and no word may begin right after a number.
-/

namespace Stencil.Script

/-- What was read of a number: the way it is written, or nothing where it is not written well,
and the text that is left. -/
structure NumberReading where
  form : Option NumberForm
  rest : Text
  deriving Repr, Inhabited

/-- The text after digits with single underscores between them, or nothing where an underscore
has no digit after it.  A digit stands before the text. -/
def afterDigits (isDigit : Char → Bool) : Text → Option Text
  | [] => some []
  | c :: t =>
    if isDigit c then afterDigits isDigit t
    else if c == '_' then
      match t with
      | d :: t => if isDigit d then afterDigits isDigit t else none
      | [] => none
    else some (c :: t)

/-- The text after at least one digit. -/
def afterSomeDigits (isDigit : Char → Bool) : Text → Option Text
  | [] => none
  | c :: t => if isDigit c then afterDigits isDigit t else none

/-- The text after digits, which may be absent. -/
def afterOptionalDigits (t : Text) : Option Text :=
  if t.head?.any Char.isDigit then afterDigits Char.isDigit t else some t

/-- Ends a number at a place where no word may begin. -/
def endNumber (form : NumberForm) (t : Text) : NumberReading :=
  if t.head?.any (fun c => c.isDigit || isWordStart c) then
    ⟨none, t.dropWhile isWordPart⟩
  else ⟨some form, t⟩

/-- The text after a sign, if there is one. -/
def afterSign : Text → Text
  | '-' :: t => t
  | '+' :: t => t
  | t => t

/-- Ends a number with an exponent, given the text after its letter. -/
def endExponent (t : Text) : NumberReading :=
  match afterSomeDigits Char.isDigit (afterSign t) with
  | some rest => endNumber .exponential rest
  | none => ⟨none, afterSign t⟩

/-- Ends a number after an exponent, if there is one. -/
def endWithExponent (form : NumberForm) : Text → NumberReading
  | 'e' :: t => endExponent t
  | 'E' :: t => endExponent t
  | t => endNumber form t

/-- Ends a number after its decimal point. -/
def endFraction (t : Text) : NumberReading :=
  match afterOptionalDigits t with
  | some rest => endWithExponent .float rest
  | none => ⟨none, t⟩

/-- The text after the letter of an integer of any size, if it stands there. -/
def afterSizeMark : Text → Text
  | 'n' :: t => t
  | t => t

/-- Ends a number in another base. -/
def endOtherBase (form : NumberForm) (isDigit : Char → Bool) (t : Text) : NumberReading :=
  match afterSomeDigits isDigit t with
  | some rest => endNumber form (afterSizeMark rest)
  | none => ⟨none, t⟩

/-- Ends a number at its decimal point, or without one. -/
def endPointed : Text → NumberReading
  | '.' :: t => endFraction t
  | t => endWithExponent .decimal t

/-- Ends a decimal number after its integral digits. -/
def endDecimal : Text → NumberReading
  | 'n' :: t => endNumber .decimal t
  | t => endPointed t

/-- Ends a number that begins with a zero and another digit. -/
def endWithLeadingZero (t : Text) : NumberReading :=
  let digits := t.takeWhile Char.isDigit
  let rest := t.drop digits.length
  if digits.all isOctalDigit then endNumber .octal rest else endPointed rest

/-- Reads a number that begins with a zero, given the text after that. -/
def readAfterZero (t : Text) : NumberReading :=
  match t with
  | [] => ⟨some .decimal, []⟩
  | c :: rest =>
    if c == 'b' || c == 'B' then endOtherBase .binary (fun d => d == '0' || d == '1') rest
    else if c == 'o' || c == 'O' then endOtherBase .octal isOctalDigit rest
    else if c == 'x' || c == 'X' then endOtherBase .hex (hexDigit? · |>.isSome) rest
    else if c.isDigit then endWithLeadingZero t
    else endDecimal t

/-- Reads a number, given its first character and the text after that.  The first character is a
digit, or a point before a digit. -/
def readNumber (first : Char) (t : Text) : NumberReading :=
  if first == '.' then endFraction t
  else if first == '0' then readAfterZero t
  else
    match afterDigits Char.isDigit t with
    | some rest => endDecimal rest
    | none => ⟨none, t⟩

end Stencil.Script
