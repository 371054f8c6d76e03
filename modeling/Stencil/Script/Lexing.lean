import Stencil.Script.Fault
import Stencil.Script.Lexeme
import Stencil.Script.Lexing.Trivia
import Stencil.Script.Lexing.Word
import Stencil.Script.Lexing.Number
import Stencil.Script.Lexing.Quoted

/-!
# Lexing

`lex` reads the next lexeme of a script.  Three kinds of lexemes can be told apart only by the
grammar, which therefore asks for them by name after `lex` has given their first mark: a regular
expression after a slash, the continuation of a template after a closing brace, and the operators
that begin with a closing angle bracket.
-/

namespace Stencil.Script

/-- A lexeme that was read: the text from it on, its offsets, the text after it, whether a line
ended before it, and the comments before it and the faults found on the way with the last one
first. -/
structure Lexed where
  lexeme : Lexeme
  here : Text
  start : Nat
  stop : Nat
  rest : Text
  newLine : Bool
  comments : List Span
  faults : List Fault
  deriving Repr, Inhabited

/-- The number of bytes of a text before its suffix `rest`. -/
def consumed (t rest : Text) : Nat := Text.width (t.take (t.length - rest.length))

/-- The lexeme of a word. -/
def wordLexeme (r : WordReading) : Lexeme × Bool × Text :=
  (if r.isFaulty then .malformed else .word (String.ofList r.name) r.escaped, r.isFaulty, r.rest)

/-- The lexeme of a private name, given the text after its mark. -/
def privateLexeme (t : Text) : Lexeme × Bool × Text :=
  let r := readWord isWordStart t t
  if r.isFaulty || r.name.isEmpty then (.malformed, true, r.rest)
  else (.privateName, false, r.rest)

/-- The lexeme of a number. -/
def numberLexeme (r : NumberReading) : Lexeme × Bool × Text :=
  match r.form with
  | some form => (.number form, false, r.rest)
  | none => (.malformed, true, r.rest)

/-- The part of a template that ends as given. -/
def templatePart (atStart : Bool) (ending : TemplateEnd) : TemplatePart :=
  match atStart, ending with
  | true, .template => .whole
  | true, _ => .head
  | false, .template => .tail
  | false, _ => .middle

/-- The lexeme of a piece of a template, given the text after its first mark. -/
def templateLexeme (atStart : Bool) (t : Text) : Lexeme × Bool × Text :=
  let r := readTemplate t
  let valid := !(quotedUnits true r.body r.body).contains .invalid
  if r.ending == .text then (.malformed, true, r.rest)
  else (.template (templatePart atStart r.ending) valid, false, r.rest)

/-- The lexeme of a mark, given its first character and the text after that.  A question mark before
the point of a number stands for itself. -/
def markLexeme (c : Char) (t : Text) : Lexeme × Bool × Text :=
  match c, t with
  | '?', '.' :: d :: t =>
    if d.isDigit then (.mark "?", false, '.' :: d :: t) else (.mark "?.", false, d :: t)
  | c, t =>
    match markAt? (c :: t) with
    | some (m, length) => (.mark m, false, (c :: t).drop length)
    | none => (.malformed, true, t)

/-- The lexeme at the beginning of a text that is not empty, whether it has a fault without a
place, and the text after it. -/
def lexemeAt (c : Char) (t : Text) : Lexeme × Bool × Text :=
  if isWordStart c || c == '\\' then wordLexeme (readWord isWordStart (c :: t) (c :: t))
  else if c.isDigit || (c == '.' && t.head?.any Char.isDigit) then numberLexeme (readNumber c t)
  else if c == '#' then privateLexeme t
  else if c == '@' then (.mark "@", false, t)
  else if c == '>' then (.mark ">", false, t)
  else markLexeme c t

/-- Reads the lexeme at the beginning of a text without trivia, which stands at offset `start`. -/
def lexHere (start : Nat) (newLine : Bool) (comments : List Span) (t : Text) : Lexed :=
  match t with
  | [] => ⟨.stop, [], start, start, [], newLine, comments, []⟩
  | c :: t =>
    let read (lexeme : Lexeme) (rest : Text) (faultAt : Span → List Fault) : Lexed :=
      let stop := start + consumed (c :: t) rest
      ⟨lexeme, c :: t, start, stop, rest, newLine, comments, faultAt ⟨start, stop⟩⟩
    if c == '"' || c == '\'' then
      let r := readString c t
      if r.closed then
        let units := quotedUnits false r.body r.body
        read (.string (showUnits units)) r.rest
          fun _ => if units.contains .invalid then [.other] else []
      else read .malformed r.rest fun span => [.unterminatedString span]
    else if c == '\x60' then
      let (lexeme, isFaulty, rest) := templateLexeme true t
      read lexeme rest fun span => if isFaulty then [.unterminatedString span] else []
    else
      let (lexeme, isFaulty, rest) := lexemeAt c t
      read lexeme rest fun _ => if isFaulty then [.other] else []

/-- Reads the next lexeme of a text that stands at the given offset. -/
def lex (offset : Nat) (atStart : Bool) (t : Text) : Lexed :=
  let trivia := skipTrivia .outside offset atStart [] t
  match trivia.unclosed with
  | none => lexHere trivia.offset trivia.newLine trivia.comments trivia.rest
  | some start =>
    ⟨.stop, [], start, trivia.offset, [], trivia.newLine, trivia.comments,
      [.unterminatedComment ⟨start, trivia.offset⟩]⟩

/-- Reads a regular expression in place of a slash. -/
def Lexed.asRegex (l : Lexed) : Lexed :=
  if l.lexeme.isMark "/" || l.lexeme.isMark "/=" then
    let r := readRegex false false (l.here.drop 1)
    let flags := if r.closed then r.rest.takeWhile isFlagCharacter else []
    let rest := r.rest.drop flags.length
    let stop := l.start + consumed l.here rest
    let faults :=
      if !r.closed then [Fault.unterminatedRegex ⟨l.start, stop⟩]
      else if areFlagsValid flags then [] else [.other]
    { l with lexeme := .regex, stop := stop, rest := rest, faults := faults }
  else l

/-- Reads the continuation of a template in place of a closing brace. -/
def Lexed.asTemplate (l : Lexed) : Lexed :=
  if l.lexeme.isMark "\x7d" then
    let (lexeme, isFaulty, rest) := templateLexeme false (l.here.drop 1)
    let stop := l.start + consumed l.here rest
    let faults := if isFaulty then [Fault.unterminatedString ⟨l.start, stop⟩] else []
    { l with lexeme := lexeme, stop := stop, rest := rest, faults := faults }
  else l

/-- Reads the longest operator in place of a closing angle bracket. -/
def Lexed.asOperator (l : Lexed) : Lexed :=
  match l.lexeme.isMark ">", markAt? l.here with
  | true, some (m, length) =>
    { l with lexeme := .mark m, stop := l.start + length, rest := l.here.drop length }
  | _, _ => l

end Stencil.Script
