import Stencil.Text.Lines

/-!
# Escapes

In a quoted text a backslash gives the characters after it another meaning.  An escape of code
units may write one half of a surrogate pair; two halves that follow each other make one
character, and a half that stands alone is a unit of its own, which no text can hold.  It is
shown as the replacement character followed by its four digits, and so that this stays
unambiguous, a replacement character next to it is shown in the same way.
-/

namespace Stencil.Script

/-- What a quoted text is made of. -/
inductive QuotedUnit where
  | char (c : Char)
  | half (code : Nat)
  | invalid
  deriving DecidableEq, Repr, Inhabited

/-- The number that hexadecimal digits write. -/
def hexValue (digits : Text) : Nat :=
  digits.foldl (fun n c => n * 16 + (hexDigit? c).getD 0) 0

/-- The number written by the first `count` characters, if they are hexadecimal digits. -/
def fixedHex? (count : Nat) (t : Text) : Option (Nat × Text) :=
  let digits := t.take count
  if digits.length = count && digits.all (hexDigit? · |>.isSome) then
    some (hexValue digits, t.drop count)
  else none

/-- The number written by hexadecimal digits up to a closing brace. -/
def bracedHex? (t : Text) : Option (Nat × Text) :=
  let digits := t.takeWhile (hexDigit? · |>.isSome)
  match t.drop digits.length with
  | '}' :: rest =>
    if digits.isEmpty || hexValue digits > 0x10FFFF then none else some (hexValue digits, rest)
  | _ => none

/-- The number is the first half of a surrogate pair. -/
def isHighHalf (n : Nat) : Bool := 0xD800 ≤ n && n ≤ 0xDBFF

/-- The number is the second half of a surrogate pair. -/
def isLowHalf (n : Nat) : Bool := 0xDC00 ≤ n && n ≤ 0xDFFF

/-- The code point of a surrogate pair. -/
def joinHalves (high low : Nat) : Nat := (high - 0xD800) * 0x400 + (low - 0xDC00) + 0x10000

/-- The code point of the escape after `\u`, and the text after it. -/
def codeEscape? (t : Text) : Option (Nat × Text) :=
  match t with
  | '{' :: t => bracedHex? t
  | t =>
    match fixedHex? 4 t with
    | none => none
    | some (high, rest) =>
      match rest with
      | '\\' :: 'u' :: more =>
        if isHighHalf high then
          match fixedHex? 4 more with
          | none => none
          | some (low, after) =>
            if isLowHalf low then some (joinHalves high low, after) else some (high, rest)
        else some (high, rest)
      | _ => some (high, rest)

/-- The unit with the given code point. -/
def QuotedUnit.ofCode (n : Nat) : QuotedUnit :=
  if isHighHalf n || isLowHalf n then half n else char (Char.ofNat n)

/-- The character is an octal digit. -/
def isOctalDigit (c : Char) : Bool := '0' ≤ c && c ≤ '7'

/-- The octal digits of an escape at the beginning of a text, at most three of them and with a
value below 256. -/
def octalDigits (t : Text) : Text :=
  match t with
  | c :: _ => (t.take (if c ≤ '3' then 3 else 2)).takeWhile isOctalDigit
  | [] => []

/-- The number that octal digits write. -/
def octalValue (digits : Text) : Nat :=
  digits.foldl (fun n c => n * 8 + (c.toNat - '0'.toNat)) 0

/-- What the text after a backslash means, and the text after that.  Escapes in octal have no
meaning in a template. -/
def unescape (inTemplate : Bool) : Text → List QuotedUnit × Text
  | [] => ([], [])
  | '\r' :: '\n' :: t => ([], t)
  | 'b' :: t => ([.char '\x08'], t)
  | 't' :: t => ([.char '\t'], t)
  | 'n' :: t => ([.char '\n'], t)
  | 'v' :: t => ([.char '\x0B'], t)
  | 'f' :: t => ([.char '\x0C'], t)
  | 'r' :: t => ([.char '\r'], t)
  | 'x' :: t =>
    match fixedHex? 2 t with
    | some (n, rest) => ([.char (Char.ofNat n)], rest)
    | none => ([.invalid], t)
  | 'u' :: t =>
    match codeEscape? t with
    | some (n, rest) => ([.ofCode n], rest)
    | none => ([.invalid], t)
  | c :: t =>
    if isLineBreak c then ([], t)
    else if c.isDigit then
      if c == '0' && !(t.head?.any Char.isDigit) then ([.char '\x00'], t)
      else if inTemplate then ([.invalid], t)
      else if isOctalDigit c then
        let digits := octalDigits (c :: t)
        ([.char (Char.ofNat (octalValue digits))], (c :: t).drop digits.length)
      else ([.char c], t)
    else ([.char c], t)

/-- The units of a quoted text.  The budget is at least as long as the text. -/
def quotedUnits (inTemplate : Bool) (budget : Text) (t : Text) : List QuotedUnit :=
  match budget, t with
  | _ :: budget, '\\' :: t =>
    let (units, rest) := unescape inTemplate t
    units ++ quotedUnits inTemplate budget rest
  | _ :: budget, c :: t => .char c :: quotedUnits inTemplate budget t
  | _, _ => []

/-- The last four hexadecimal digits of a number. -/
def fourDigits (n : Nat) : Text :=
  [n / 4096 % 16, n / 256 % 16, n / 16 % 16, n % 16].map Nat.digitChar

/-- The text that a unit is shown as, where a replacement character has to be told from the
sign of a lone half. -/
def QuotedUnit.shownBesideHalves : QuotedUnit → Text
  | char c => if c == '\uFFFD' then '\uFFFD' :: fourDigits 0xFFFD else [c]
  | half n => '\uFFFD' :: fourDigits n
  | invalid => []

/-- The text that a unit is shown as, where no half stands alone. -/
def QuotedUnit.shown : QuotedUnit → Text
  | char c => [c]
  | _ => []

/-- The unit is half of a surrogate pair. -/
def QuotedUnit.isHalf : QuotedUnit → Bool
  | half _ => true
  | _ => false

/-- The text that units are shown as. -/
def showUnits (units : List QuotedUnit) : Text :=
  if units.any QuotedUnit.isHalf then units.flatMap QuotedUnit.shownBesideHalves
  else units.flatMap QuotedUnit.shown

end Stencil.Script
