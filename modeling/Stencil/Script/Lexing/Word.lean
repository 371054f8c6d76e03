import Stencil.Script.Lexing.Escape
import Stencil.Text.Category

/-!
# Words

A word is made of letters, digits, marks, `$` and `_`, and does not begin with a digit.  Any of
its characters may be written as an escape of its code point.
-/

namespace Stencil.Script

/-- The character may begin a word. -/
def isWordStart (c : Char) : Bool := c == '$' || c == '_' || Category.isIdentifierStart c

/-- The character may continue a word. -/
def isWordPart (c : Char) : Bool := c == '$' || Category.isIdentifierPart c

/-- What was read of a word: its characters, whether some of them were escaped, whether some
escape has no meaning, and the text that is left. -/
structure WordReading where
  name : Text
  escaped : Bool
  isFaulty : Bool
  rest : Text
  deriving Repr, Inhabited

/-- The characters at the beginning of a text that continue a word.  The next of them has to
satisfy `allowed`.  The budget is at least as long as the text. -/
def readWord (allowed : Char → Bool) (budget : Text) (t : Text) : WordReading :=
  match budget, t with
  | _ :: budget, '\\' :: t =>
    let code := match t with
      | 'u' :: t => codeEscape? t
      | _ => none
    match code with
    | none => ⟨[], true, true, t⟩
    | some (n, rest) =>
      let c := Char.ofNat n
      let more := readWord isWordPart budget rest
      ⟨c :: more.name, true, !allowed c || more.isFaulty, more.rest⟩
  | _ :: budget, c :: t =>
    if allowed c then
      let more := readWord isWordPart budget t
      { more with name := c :: more.name }
    else ⟨[], false, false, c :: t⟩
  | _, t => ⟨[], false, false, t⟩

end Stencil.Script
