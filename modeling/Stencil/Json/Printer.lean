import Stencil.Json.Number

/-!
# Writing JSON

A value is written without blank characters.  How the characters of its strings are written is left
open: either no more of them are escaped than have to be, or all that are beyond ASCII are written
as escapes of their code units too.
-/

namespace Stencil.Json

/-- The escape of a code unit. -/
def unitText (n : Nat) : String :=
  "\\u" ++ String.ofList ([n / 4096 % 16, n / 256 % 16, n / 16 % 16, n % 16].map Nat.digitChar)

/-- The text of a character in a string that is written in ASCII. -/
def charText (c : Char) : String :=
  if c == '"' then "\\\""
  else if c == '\\' then "\\\\"
  else if c.val ≥ 0x20 && c.val < 0x7F then String.ofList [c]
  else if c.toNat < 0x10000 then unitText c.toNat
  else
    let n := c.toNat - 0x10000
    unitText (0xD800 + n / 0x400) ++ unitText (0xDC00 + n % 0x400)

/-- The text of a character in a string in which only quotes, backslashes and control characters are
escaped. -/
def plainText (c : Char) : String :=
  if c == '"' then "\\\""
  else if c == '\\' then "\\\\"
  else if c == '\x08' then "\\b"
  else if c == '\x0C' then "\\f"
  else if c == '\n' then "\\n"
  else if c == '\r' then "\\r"
  else if c == '\t' then "\\t"
  else if c.val < 0x20 then unitText c.toNat
  else String.ofList [c]

/-- The text of a string, given the texts of its characters. -/
def stringText (spelling : Char → String) (s : String) : String :=
  s.toList.foldl (fun text c => text ++ spelling c) "\"" ++ "\""

mutual

/-- The text of a value, given the texts of the characters of its strings. -/
def textWith (spelling : Char → String) : Json → String
  | null => "null"
  | bool b => if b then "true" else "false"
  | int n => toString n
  | float bits => floatText bits
  | string s => stringText spelling s
  | array items => "[" ++ itemsText spelling items ++ "]"
  | object entries => "\x7b" ++ entriesText spelling entries ++ "\x7d"

/-- The texts of values with commas between them. -/
def itemsText (spelling : Char → String) : List Json → String
  | [] => ""
  | [v] => textWith spelling v
  | v :: rest => textWith spelling v ++ "," ++ itemsText spelling rest

/-- The texts of entries with commas between them. -/
def entriesText (spelling : Char → String) : List (String × Json) → String
  | [] => ""
  | [(k, v)] => stringText spelling k ++ ":" ++ textWith spelling v
  | (k, v) :: rest =>
    stringText spelling k ++ ":" ++ textWith spelling v ++ "," ++ entriesText spelling rest

end

/-- The text of a value in ASCII. -/
def text (v : Json) : String := v.textWith charText

end Stencil.Json
