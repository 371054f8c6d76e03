import Stencil.Json.Basic
import Stencil.Json.Digits

/-!
# Numbers in JSON

A number without a fraction and an exponent is whole if it fits into 64 bits.  Any other number
is the product of a significand, made of as many leading digits as fit into 64 bits, and a power
of ten, both rounded to floating-point numbers first.  A number too large for that is refused.
-/

namespace Stencil.Json

/-- The largest number of 64 bits. -/
def wordLimit : Nat := Nat.pow 2 64 - 1

/-- The significand with further digits, the digits that do not fit, and whether one of them was
left out. -/
def takeDigits (significand : Nat) : List Char → Nat × List Char
  | [] => (significand, [])
  | c :: t =>
    let next := significand * 10 + (c.toNat - '0'.toNat)
    if next ≤ wordLimit then takeDigits next t else (significand, c :: t)

/-- The power of ten as a floating-point number. -/
def tenTo (n : Nat) : Float := Float.ofScientific 1 false n

/-- The product of `f` and the power of ten with a negative exponent of the given size. -/
def divideByTenTo : (limit : Nat) → Float → Nat → Float
  | 0, f, _ => f
  | limit + 1, f, n =>
    if n ≤ 308 then f / tenTo n
    else if f == 0 then f
    else divideByTenTo limit (f / tenTo 308) (n - 308)

/-- The product of a significand and a power of ten, unless it is too large. -/
def scale? (significand : Nat) (exponent : Int) : Option Float :=
  let f := Float.ofNat significand
  if exponent < 0 then some (divideByTenTo 10 f (-exponent).toNat)
  else if exponent ≤ 308 then
    let f := f * tenTo exponent.toNat
    if f.isInf then none else some f
  else if significand = 0 then some f
  else none

/-- The number with the given sign and size. -/
def ofFloat (isNegative : Bool) (f : Float) : Json :=
  float (if isNegative then -f else f).toBits

/-- The number with the given digits before and after its point and the given exponent. -/
def ofDigits? (isNegative : Bool) (whole fraction : List Char) (exponent : Option Int) :
    Option Json :=
  let (significand, left) := takeDigits 0 whole
  if fraction.isEmpty && exponent.isNone && left.isEmpty then
    if !isNegative then some (int significand)
    else if significand = 0 || significand > Nat.pow 2 63 then
      some (ofFloat true (Float.ofNat significand))
    else some (int (-significand))
  else
    let (full, rest) := if left.isEmpty then takeDigits significand fraction else (significand, [])
    let taken := if left.isEmpty then fraction.length - rest.length else 0
    (scale? full (left.length - taken + exponent.getD 0)).map (ofFloat isNegative)

/-- The number that digits write. -/
def digitsValue (digits : List Char) : Nat :=
  digits.foldl (fun n c => n * 10 + (c.toNat - '0'.toNat)) 0

/-- Reads an exponent after the letter that introduces it. -/
def readExponent? (t : List Char) : Option (Int × List Char) :=
  let (isNegative, t) :=
    match t with
    | '-' :: t => (true, t)
    | '+' :: t => (false, t)
    | t => (false, t)
  let digits := t.takeWhile Char.isDigit
  if digits.isEmpty then none
  else
    let n : Int := min (digitsValue digits) (Nat.pow 2 31)
    some (if isNegative then -n else n, t.drop digits.length)

/-- Reads a number after its sign. -/
def readUnsigned? (isNegative : Bool) (t : List Char) : Option (Json × List Char) := do
  let whole := t.takeWhile Char.isDigit
  if whole.isEmpty || (whole.head? == some '0' && whole.length > 1) then none
  else
    let rest := t.drop whole.length
    let (fraction, rest) ← match rest with
      | '.' :: rest =>
        let fraction := rest.takeWhile Char.isDigit
        if fraction.isEmpty then none else some (fraction, rest.drop fraction.length)
      | rest => some ([], rest)
    let (exponent, rest) ← match rest with
      | 'e' :: rest => (readExponent? rest).map fun (n, rest) => (some n, rest)
      | 'E' :: rest => (readExponent? rest).map fun (n, rest) => (some n, rest)
      | rest => some (none, rest)
    let n ← ofDigits? isNegative whole fraction exponent
    pure (n, rest)

/-- Reads a number. -/
def readNumber? : List Char → Option (Json × List Char)
  | '-' :: t => readUnsigned? true t
  | t => readUnsigned? false t

/-- The text of a decimal number: with a point if it lies between `10^-5` and `10^16`, and else
with an exponent. -/
def decimalText (d : Decimal) : String :=
  let digits := toString d.factor
  let point := digits.length + d.exponent
  let zeros (n : Int) : String := String.ofList (List.replicate n.toNat '0')
  if 0 ≤ d.exponent && point ≤ 16 then digits ++ zeros d.exponent ++ ".0"
  else if 0 < point && point ≤ 16 then
    String.ofList (digits.toList.take point.toNat) ++ "."
      ++ String.ofList (digits.toList.drop point.toNat)
  else if -5 < point && point ≤ 0 then "0." ++ zeros (-point) ++ digits
  else
    let tail := String.ofList (digits.toList.drop 1)
    String.ofList (digits.toList.take 1) ++ (if tail.isEmpty then "" else "." ++ tail) ++ "e"
      ++ toString (point - 1)

/-- The text of the floating-point number with the given bits. -/
def floatText (bits : UInt64) : String :=
  let b := Binary.ofBits bits
  let sign := if bits.toNat < Nat.pow 2 63 then "" else "-"
  if b.factor = 0 then sign ++ "0.0" else sign ++ decimalText (shortestDigits b)

end Stencil.Json
