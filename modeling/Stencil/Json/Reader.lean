import Stencil.Json.Number
import Stencil.Text.Basic

/-!
# Reading JSON

A text is read as a single value with blank characters around it.  Arrays and objects may be
nested in each other up to a limit.
-/

namespace Stencil.Json

/-- The character may stand between the parts of a value. -/
def isSpace (c : Char) : Bool := c == ' ' || c == '\n' || c == '\t' || c == '\r'

/-- The text after the blank characters at its beginning. -/
def skipSpace (t : List Char) : List Char := t.dropWhile isSpace

/-- Reads four hexadecimal digits. -/
def readUnit? (t : List Char) : Option (Nat × List Char) :=
  match t with
  | a :: b :: c :: d :: t =>
    match hexDigit? a, hexDigit? b, hexDigit? c, hexDigit? d with
    | some a, some b, some c, some d => some (((a * 16 + b) * 16 + c) * 16 + d, t)
    | _, _, _, _ => none
  | _ => none

/-- Reads the code of a character after `\u`, which takes two units beyond the first plane. -/
def readCode? (t : List Char) : Option (Char × List Char) := do
  let (unit, t) ← readUnit? t
  if 0xDC00 ≤ unit && unit ≤ 0xDFFF then none
  else if 0xD800 ≤ unit && unit ≤ 0xDBFF then
    match t with
    | '\\' :: 'u' :: t =>
      let (low, t) ← readUnit? t
      if 0xDC00 ≤ low && low ≤ 0xDFFF then
        some (Char.ofNat ((unit - 0xD800) * 0x400 + (low - 0xDC00) + 0x10000), t)
      else none
    | _ => none
  else some (Char.ofNat unit, t)

/-- Reads what stands after a backslash. -/
def readEscape? : List Char → Option (Char × List Char)
  | '"' :: t => some ('"', t)
  | '\\' :: t => some ('\\', t)
  | '/' :: t => some ('/', t)
  | 'b' :: t => some ('\x08', t)
  | 'f' :: t => some ('\x0C', t)
  | 'n' :: t => some ('\n', t)
  | 'r' :: t => some ('\r', t)
  | 't' :: t => some ('\t', t)
  | 'u' :: t => readCode? t
  | _ => none

/-- Reads the characters of a string up to its closing quote.  The budget is at least as long as
the text. -/
def readChars? (budget : List Char) (t : List Char) : Option (List Char × List Char) :=
  match budget, t with
  | _ :: budget, c :: t =>
    if c == '"' then some ([], t)
    else if c == '\\' then
      match readEscape? t with
      | some (c, t) => (readChars? budget t).map fun (cs, t) => (c :: cs, t)
      | none => none
    else if c.val < 0x20 then none
    else (readChars? budget t).map fun (cs, t) => (c :: cs, t)
  | _, _ => none

/-- Reads a string after its opening quote. -/
def readString? (t : List Char) : Option (String × List Char) :=
  (readChars? t t).map fun (cs, t) => (String.ofList cs, t)

/-- Reads items with commas between them up to a closing mark.  The budget is at least as long as
the text. -/
def readItems? {α : Type} (item : List Char → Option (α × List Char)) (close : Char)
    (budget : List Char) (t : List Char) : Option (List α × List Char) :=
  match budget with
  | [] => none
  | _ :: budget =>
    match item t with
    | none => none
    | some (a, t) =>
      match skipSpace t with
      | c :: t =>
        if c == close then some ([a], t)
        else if c == ',' then
          (readItems? item close budget t).map fun (as, t) => (a :: as, t)
        else none
      | [] => none

/-- Reads items with commas between them after an opening mark, where there may be none. -/
def readList? {α : Type} (item : List Char → Option (α × List Char)) (close : Char)
    (t : List Char) : Option (List α × List Char) :=
  match skipSpace t with
  | c :: rest => if c == close then some ([], rest) else readItems? item close t t
  | [] => none

/-- Reads an entry of an object. -/
def readPair? (value : List Char → Option (Json × List Char)) (t : List Char) :
    Option ((String × Json) × List Char) :=
  match skipSpace t with
  | '"' :: t =>
    match readString? t with
    | some (key, t) =>
      match skipSpace t with
      | ':' :: t => (value t).map fun (v, t) => ((key, v), t)
      | _ => none
    | none => none
  | _ => none

/-- Reads one of the words that are values. -/
def readWord? (t : List Char) : Option (Json × List Char) :=
  match t with
  | 'n' :: 'u' :: 'l' :: 'l' :: t => some (null, t)
  | 't' :: 'r' :: 'u' :: 'e' :: t => some (bool true, t)
  | 'f' :: 'a' :: 'l' :: 's' :: 'e' :: t => some (bool false, t)
  | _ => none

/-- Reads a value in which arrays and objects are nested up to the given depth. -/
def readValue? : (depth : Nat) → List Char → Option (Json × List Char)
  | depth, t =>
    match skipSpace t with
    | '"' :: t => (readString? t).map fun (s, t) => (string s, t)
    | '[' :: t =>
      match depth with
      | 0 => none
      | depth + 1 => (readList? (readValue? depth) ']' t).map fun (vs, t) => (array vs, t)
    | '{' :: t =>
      match depth with
      | 0 => none
      | depth + 1 =>
        (readList? (readPair? (readValue? depth)) '}' t).map fun (es, t) => (object es, t)
    | c :: t => if c == '-' || c.isDigit then readNumber? (c :: t) else readWord? (c :: t)
    | [] => none

/-- The number of arrays and objects that may be nested in each other. -/
def depthLimit : Nat := 127

/-- The value that a text writes. -/
def ofText? (t : List Char) : Option Json :=
  match readValue? depthLimit t with
  | some (v, rest) => if (skipSpace rest).isEmpty then some v else none
  | none => none

end Stencil.Json
