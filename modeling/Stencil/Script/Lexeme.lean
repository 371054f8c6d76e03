import Stencil.Text.Span

/-!
# Lexemes

A lexeme is a smallest meaningful piece of a script: a word, a mark such as a bracket or an
operator, a literal, or a part of a template.  Which words are reserved, and which marks are
operators of which rank, is said here once for the grammar.
-/

namespace Stencil.Script

/-- The ways to write a number. -/
inductive NumberForm where
  | decimal
  | float
  | exponential
  | binary
  | octal
  | hex
  deriving DecidableEq, Repr, Inhabited

/-- The name of a way to write a number. -/
def NumberForm.name : NumberForm → String
  | decimal => "decimal"
  | float => "float"
  | exponential => "exponential"
  | binary => "binary"
  | octal => "octal"
  | hex => "hex"

/-- The parts of a template: the whole of it, or a part before, between or after the expressions
in it. -/
inductive TemplatePart where
  | whole
  | head
  | middle
  | tail
  deriving DecidableEq, Repr, Inhabited

/-- The lexemes.  A word written with an escape is marked as `escaped`, and a part of a template
whose escapes all have a meaning as `valid`. -/
inductive Lexeme where
  | word (name : String) (escaped : Bool)
  | privateName
  | mark (text : String)
  | number (form : NumberForm)
  | string (value : Text)
  | template (part : TemplatePart) (valid : Bool)
  | regex
  | stop
  | malformed
  deriving DecidableEq, Repr, Inhabited

/-- The words that never name anything. -/
def reservedWords : List String :=
  ["break", "case", "catch", "class", "const", "continue", "debugger", "default", "delete", "do",
    "else", "enum", "export", "extends", "false", "finally", "for", "function", "if", "import",
    "in", "instanceof", "new", "null", "return", "super", "switch", "this", "throw", "true",
    "try", "typeof", "var", "void", "while", "with"]

/-- The words that have a meaning in some places and are names elsewhere. -/
def contextualWords : List String :=
  ["abstract", "accessor", "any", "as", "assert", "asserts", "async", "await", "bigint",
    "boolean", "constructor", "declare", "defer", "from", "get", "global", "implements", "infer",
    "interface", "intrinsic", "is", "keyof", "let", "meta", "module", "namespace", "never",
    "number", "object", "of", "out", "override", "package", "private", "protected", "public",
    "readonly", "require", "satisfies", "set", "source", "static", "string", "symbol", "target",
    "type", "undefined", "unique", "unknown", "using", "yield"]

/-- The words that may stand before the name of a member. -/
def modifierWords : List String :=
  ["abstract", "accessor", "async", "const", "declare", "default", "export", "in", "out",
    "override", "private", "protected", "public", "readonly", "static"]

/-- The operators that stand before their operand. -/
def unaryOperators : List String := ["+", "-", "~", "!", "delete", "typeof", "void"]

/-- The operators that assign. -/
def assignmentOperators : List String :=
  ["=", "+=", "-=", "*=", "/=", "%=", "**=", "<<=", ">>=", ">>>=", "&=", "|=", "^=", "&&=",
    "||=", "??="]

/-- The marks, longer ones before shorter ones with which they begin. -/
def marks : List String :=
  [">>>=", "...", "===", "!==", "**=", "<<=", ">>=", ">>>", "&&=", "||=", "??=", "=>", "==",
    "!=", "<=", ">=", "&&", "||", "??", "?.", "++", "--", "+=", "-=", "*=", "/=", "%=", "&=",
    "|=", "^=", "<<", ">>", "**", "\x7b", "\x7d", "(", ")", "[", "]", ";", ",", "<", ">", "+",
    "-", "*", "/", "%", "&", "|", "^", "!", "~", "?", ":", "=", "."]

/-- The marks with their texts. -/
def markTexts : List (String × Text) := marks.map fun m => (m, m.toList)

/-- The longest mark with which a text begins, and its length. -/
def markAt? (t : Text) : Option (String × Nat) :=
  (markTexts.find? fun (_, m) => m.isPrefixOf t).map fun (name, m) => (name, m.length)

/-- The rank of an operator between two operands.  A higher rank binds more tightly. -/
def rankOf? (operator : String) : Option Nat :=
  match operator with
  | "??" => some 1
  | "||" => some 2
  | "&&" => some 3
  | "|" => some 4
  | "^" => some 5
  | "&" => some 6
  | "==" => some 7
  | "!=" => some 7
  | "===" => some 7
  | "!==" => some 7
  | "<" => some 8
  | ">" => some 8
  | "<=" => some 8
  | ">=" => some 8
  | "instanceof" => some 8
  | "in" => some 8
  | "<<" => some 9
  | ">>" => some 9
  | ">>>" => some 9
  | "+" => some 10
  | "-" => some 10
  | "*" => some 11
  | "/" => some 11
  | "%" => some 11
  | "**" => some 12
  | _ => none

/-- The operator decides by its left operand whether the right one counts. -/
def isLogicalOperator (operator : String) : Bool :=
  operator == "&&" || operator == "||" || operator == "??"

namespace Lexeme

/-- How a lexeme is called where another one was expected. -/
def name : Lexeme → String
  | word w _ => if w ∈ reservedWords || w ∈ contextualWords then w else "Identifier"
  | privateName => "#identifier"
  | mark m => m
  | number form => form.name
  | string _ => "string"
  | template .whole _ => "$\x7b\x7d"
  | template .head _ => "$\x7b"
  | template .middle _ => "$\x7bexpr\x7d"
  | template .tail _ => "\x7d"
  | regex => "/regexp/"
  | stop => "EOF"
  | malformed => "Unknown"

/-- The lexeme is the given mark. -/
def isMark (l : Lexeme) (m : String) : Bool :=
  match l with
  | mark n => n == m
  | _ => false

/-- The lexeme is the given word. -/
def isWord (l : Lexeme) (w : String) : Bool :=
  match l with
  | word v _ => v == w
  | _ => false

/-- The lexeme is a word that never names anything. -/
def isReserved : Lexeme → Bool
  | word w _ => w ∈ reservedWords
  | _ => false

/-- The lexeme is a word that may name something. -/
def isName : Lexeme → Bool
  | word w _ => w ∉ reservedWords
  | _ => false

/-- The lexeme is a word. -/
def isAnyWord : Lexeme → Bool
  | word .. => true
  | _ => false

/-- No lexeme follows: the text has ended, or what stands next is no lexeme. -/
def isEnd : Lexeme → Bool
  | stop => true
  | malformed => true
  | _ => false

/-- The text of a word or a mark. -/
def spelling : Lexeme → String
  | word w _ => w
  | mark m => m
  | _ => ""

/-- The lexeme may be the name of a property, unless that is computed. -/
def isPropertyName : Lexeme → Bool
  | word .. => true
  | string _ => true
  | number _ => true
  | _ => false

/-- The lexeme begins a template. -/
def isTemplateStart : Lexeme → Bool
  | template .whole _ => true
  | template .head _ => true
  | _ => false

/-- The lexeme is a word or a literal that can follow `yield` and `await`. -/
def followsYield : Lexeme → Bool
  | word w _ => w != "in" && w != "instanceof"
  | string _ => true
  | number _ => true
  | template part _ => part == .whole || part == .head
  | _ => false

end Lexeme

end Stencil.Script
