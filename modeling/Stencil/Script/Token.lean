import Stencil.Script.Lexeme
import Stencil.Script.Tree
import Stencil.Text.Category
import Stencil.Text.Lines

/-!
# Tokens

The tokens of a script are its words, punctuators and literals from left to right.  The literals
and the comments are known from the tree and from the reading of the script; they are called
atoms here.  The text between atoms is cut into tokens by itself, and no such token runs into an
atom.
-/

namespace Stencil.Script

/-- The kinds of tokens.  The opening and the closing of a template tag are delimiters, which are
not part of a script. -/
inductive TokenKind where
  | identifier
  | keyword
  | punctuator
  | numeric
  | string
  | template
  | regularExpression
  | boolean
  | null
  | lineComment
  | blockComment
  | tagDelimiter
  deriving DecidableEq, Repr, Inhabited

namespace TokenKind

/-- The name of a kind of token. -/
def name : TokenKind → String
  | identifier => "Identifier"
  | keyword => "Keyword"
  | punctuator => "Punctuator"
  | numeric => "Numeric"
  | string => "String"
  | template => "Template"
  | regularExpression => "RegularExpression"
  | boolean => "Boolean"
  | null => "Null"
  | lineComment => "LineComment"
  | blockComment => "BlockComment"
  | tagDelimiter => "TagDelimiter"

/-- The token is a comment. -/
def isComment (k : TokenKind) : Bool := k == lineComment || k == blockComment

end TokenKind

/-- A token with its text. -/
structure Token where
  kind : TokenKind
  value : Text
  span : Span
  deriving DecidableEq, Repr, Inhabited

namespace Token

/-- The token is the given punctuator. -/
def isPunctuator (t : Token) (value : String) : Bool :=
  t.kind == .punctuator && t.value == value.toList

/-- The token is a comment. -/
def isComment (t : Token) : Bool := t.kind.isComment

/-- The span of the comment that is given by the span of all of it or of its content. -/
def commentSpan (source : Text) (s : Span) : Span :=
  let onward := Text.onward s.start source
  if (Text.ofString "//").isPrefixOf onward || (Text.ofString "/*").isPrefixOf onward then s
  else if (Text.ofString "/*").isSuffixOf (Text.before s.start source) then
    ⟨s.start - 2, min (s.stop + 2) (Text.width source)⟩
  else ⟨s.start - 2, s.stop⟩

/-- The content of a block comment, given the text after its opening. -/
def blockContent (t : Text) : Text :=
  if (Text.ofString "*/").isSuffixOf t then t.take (t.length - 2) else t

/-- The token of a comment. -/
def ofComment (source : Text) (s : Span) : Token :=
  let span := commentSpan source s
  match span.text source with
  | '/' :: '*' :: content => ⟨.blockComment, blockContent content, span⟩
  | raw => ⟨.lineComment, if Text.IsBoundary 2 raw then Text.onward 2 raw else [], span⟩

/-- The words that are keywords. -/
def keywords : List String :=
  ["break", "case", "catch", "class", "const", "continue", "debugger", "default", "delete", "do",
    "else", "export", "extends", "finally", "for", "function", "if", "import", "in", "instanceof",
    "let", "new", "return", "super", "switch", "this", "throw", "try", "typeof", "var", "void",
    "while", "with"]

/-- The kind of a word. -/
def kindOfWord (word : Text) : TokenKind :=
  let w := String.ofList word
  if w == "true" || w == "false" then .boolean
  else if w == "null" then .null
  else if w ∈ keywords then .keyword
  else .identifier

/-- The character may begin a word. -/
def beginsWord (c : Char) : Bool :=
  c == '_' || c == '$' || c == '\\' || c == '#' || Category.isAlphabetic c

/-- The character may continue a word. -/
def continuesWord (c : Char) : Bool :=
  c == '_' || c == '$' || c == '\\' || c == '\u200C' || c == '\u200D' || Category.isAlphanumeric c

/-- The number of characters up to and including the given quote, or of all characters where it
does not stand unescaped. -/
def quotedLength (quote : Char) : (escaped : Bool) → Text → Nat
  | _, [] => 0
  | true, _ :: t => quotedLength quote false t + 1
  | false, c :: t => if c == quote then 1 else quotedLength quote (c == '\\') t + 1

/-- The kind of the token that begins with `c` and goes on in `t`, and the number of its further
characters. -/
def cut (c : Char) (t : Text) : TokenKind × Nat :=
  if c == '"' || c == '\'' then (.string, quotedLength c false t)
  else if c.isDigit then (.numeric, (t.takeWhile continuesWord).length)
  else if beginsWord c then
    let tail := t.takeWhile continuesWord
    (kindOfWord (c :: tail), tail.length)
  else
    match markAt? (c :: t) with
    | some (_, length) => (.punctuator, length - 1)
    | none => (.punctuator, 0)

/-- The character between two tokens is skipped. -/
def isGap (c : Char) : Bool := isBlank c || c == '\uFEFF'

end Token

/-- A piece of a script that is known to be a token or a comment. -/
structure Atom where
  span : Span
  kind : TokenKind
  deriving DecidableEq, Repr, Inhabited

/-- The kind of token that a literal is. -/
def LiteralValue.tokenKind : LiteralValue → TokenKind
  | string _ => .string
  | number _ => .numeric
  | boolean _ => .boolean
  | null => .null
  | regex _ _ => .regularExpression

/-- The atom of a node, if the node is a literal or a template. -/
def Node.atom? (n : Node) : Option Atom :=
  match n.kind with
  | .literal value _ => some ⟨n.span, value.tokenKind⟩
  | .templateLiteral _ => some ⟨n.span, .template⟩
  | _ => none

/-- The atoms of a script in the order in which they begin. -/
def atoms (tree : Node) (comments : List Token) : List Atom :=
  (tree.preorder.filterMap Node.atom? ++ comments.map fun c => Atom.mk c.span c.kind).mergeSort
    fun a b => a.span.start ≤ b.span.start

/-- The tokens of the text `rest` at offset `pos`, where the atoms are given in the order in which
they begin.  An atom that begins before `pos` is passed over. -/
def tokensFrom (rest : Text) (pos : Nat) (atoms : List Atom) : List Token :=
  match rest with
  | [] => []
  | c :: t =>
    match _ : atoms.dropWhile (·.span.start < pos) with
    | atom :: later =>
      if atom.span.start = pos then
        let after :=
          tokensFrom (Text.onward (atom.span.stop - pos) (c :: t)) (max pos atom.span.stop) later
        if atom.kind.isComment then after
        else ⟨atom.kind, Text.before (atom.span.stop - pos) (c :: t), atom.span⟩ :: after
      else if Token.isGap c then tokensFrom t (pos + c.utf8Size) (atom :: later)
      else
        let piece := Text.before (atom.span.start - pos - c.utf8Size) t
        let (kind, more) := Token.cut c piece
        let value := c :: t.take more
        let stop := pos + Text.width value
        ⟨kind, value, ⟨pos, stop⟩⟩ :: tokensFrom (t.drop more) stop (atom :: later)
    | [] =>
      if Token.isGap c then tokensFrom t (pos + c.utf8Size) []
      else
        let (kind, more) := Token.cut c t
        let value := c :: t.take more
        let stop := pos + Text.width value
        ⟨kind, value, ⟨pos, stop⟩⟩ :: tokensFrom (t.drop more) stop []
  termination_by rest.length + atoms.length
  decreasing_by
    all_goals
      have hl : (atoms.dropWhile (·.span.start < pos)).length ≤ atoms.length :=
        (List.dropWhile_sublist _).length_le
      rw [‹List.dropWhile _ atoms = _›] at hl
    · have ho := Text.length_onward_le (atom.span.stop - pos) (c :: t)
      simp only [List.length_cons] at *
      omega
    all_goals
      simp only [List.length_cons, List.length_drop, List.length_nil] at *
      omega

/-- The tokens of a script with the given tree and comments. -/
def tokens (source : Text) (tree : Node) (comments : List Token) : List Token :=
  tokensFrom source 0 (atoms tree comments)

end Stencil.Script
