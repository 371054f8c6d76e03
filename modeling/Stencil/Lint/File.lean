import Stencil.Text.Basic

/-!
# Files

A document is read from a file, whose bytes have to be the UTF-8 encoding of a text.
-/

namespace Stencil.Lint

/-- The reasons why a file cannot be read. -/
inductive ReadError where
  | missing
  | notText
  deriving DecidableEq, Repr, Inhabited

/-- The document in a file with the given bytes, if there is such a file. -/
def readDocument (content : Option ByteArray) : Except ReadError Text :=
  match content with
  | none => .error .missing
  | some bytes =>
    match String.fromUTF8? bytes with
    | some s => .ok s.toList
    | none => .error .notText

end Stencil.Lint
