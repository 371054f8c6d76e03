import Stencil.Script.Lexing
import Stencil.Script.Tree

/-!
# Readers

A reader stands at a lexeme of a script and remembers what was noticed on the way there.  A
`Parse` moves a reader on and either has a result or stops at a fault that it cannot get over;
faults that it can get over are noted in the reader.  Going back to an earlier place of the text
is going back to an earlier reader.

Repetition is `Parse.loop`.  It takes at most one step for each character that is left, which is
enough because each step of the grammar takes a lexeme.
-/

namespace Stencil.Script

/-- A reader: the lexeme it stands at, the end of the one before, the faults of lexemes and of
the grammar and the comments so far with the last one first, the beginnings of shorthand
properties with a default that only a pattern may have, the beginnings of lists with a comma at
their end, and the places of parentheses that do not begin an arrow function. -/
structure Reader where
  lexed : Lexed
  lastEnd : Nat
  lexFaults : List Fault
  faults : List Fault
  comments : List Span
  uncovered : List Nat
  trailing : List Nat
  notArrows : List Nat
  deriving Inhabited

/-- A reader at the beginning of a text that stands at the given offset. -/
def Reader.ofText (offset : Nat) (t : Text) : Reader :=
  let l := lex offset true t
  ⟨l, offset, l.faults, [], l.comments, [], [], []⟩

/-- The reader at the next lexeme. -/
def Reader.next (r : Reader) : Reader :=
  let l := lex r.lexed.stop false r.lexed.rest
  { r with
    lexed := l
    lastEnd := r.lexed.stop
    lexFaults := l.faults ++ r.lexFaults
    comments := l.comments ++ r.comments }

/-- The reader with its lexeme read in another way. -/
def Reader.reread (r : Reader) (l : Lexed) : Reader :=
  { r with lexed := l, lexFaults := l.faults ++ r.lexFaults }

/-- The span of the lexeme that a reader stands at. -/
def Reader.span (r : Reader) : Span := ⟨r.lexed.start, r.lexed.stop⟩

/-- A computation that moves a reader on. -/
abbrev Parse (α : Type) := EStateM Fault Reader α

namespace Parse

variable {α β : Type}

/-- The lexeme that the reader stands at. -/
def current : Parse Lexeme := return (← get).lexed.lexeme

/-- The beginning of the lexeme that the reader stands at. -/
def start : Parse Nat := return (← get).lexed.start

/-- The end of the lexeme before the one that the reader stands at. -/
def lastEnd : Parse Nat := return (← get).lastEnd

/-- A line ends before the lexeme that the reader stands at. -/
def onNewLine : Parse Bool := return (← get).lexed.newLine

/-- The text from the lexeme on that the reader stands at. -/
def here : Parse Text := return (← get).lexed.here

/-- The reader stands at the given mark. -/
def atMark (m : String) : Parse Bool := return (← current).isMark m

/-- The reader stands at the given word. -/
def atWord (w : String) : Parse Bool := return (← current).isWord w

/-- No lexeme is left. -/
def atEnd : Parse Bool := return (← current).isEnd

/-- Notes a fault that can be got over. -/
def note (f : Fault) : Parse Unit := modify fun r => { r with faults := f :: r.faults }

/-- Notes a fault without a place under a condition. -/
def noteIf (condition : Bool) : Parse Unit := if condition then note .other else pure ()

/-- Moves on to the next lexeme, past a word that is used as a name. -/
def advanceName : Parse Unit := modify Reader.next

/-- Moves on to the next lexeme.  A word with a meaning of its own is not written with
escapes. -/
def advance : Parse Unit := do
  match ← current with
  | .word w escaped => noteIf (escaped && (w ∈ reservedWords || w ∈ contextualWords))
  | _ => pure ()
  advanceName

/-- Stops because the lexeme makes no sense where it stands.  Where no lexeme could be read, the
fault found then is the reason. -/
def unexpected : Parse α := do
  let r ← get
  match r.lexed.lexeme.isEnd, r.lexFaults with
  | true, f :: rest =>
    set { r with lexFaults := rest }
    throw f
  | _, _ => throw (.unexpected r.span)

/-- Stops because another lexeme was expected. -/
def expected (wanted : String) : Parse α := do
  let r ← get
  throw (.expected wanted r.lexed.lexeme.name r.span)

/-- Moves past the given mark, or stops. -/
def expect (m : String) : Parse Unit := do
  if ← atMark m then advance else expected m

/-- Moves past the given word, or stops. -/
def expectWord (w : String) : Parse Unit := do
  if ← atWord w then advance else expected w

/-- Moves past the given mark if the reader stands at it. -/
def eat (m : String) : Parse Bool := do
  if ← atMark m then
    advance
    pure true
  else pure false

/-- Moves past the given word if the reader stands at it. -/
def eatWord (w : String) : Parse Bool := do
  if ← atWord w then
    advance
    pure true
  else pure false

/-- A statement may end here: at a semicolon, or without one at a closing brace, at the end or
before a new line. -/
def atStatementEnd : Parse Bool := do
  let l ← current
  pure (l.isMark ";" || l.isMark "\x7d" || l == .stop || (← onNewLine))

/-- Ends a statement. -/
def endStatement : Parse Unit := do
  if ← atStatementEnd then discard (eat ";")
  else
    let e ← lastEnd
    throw (.noSemicolon ⟨e, e⟩)

/-- A node of the given kind from offset `start` to the end of the last lexeme. -/
def node (start : Nat) (kind : Kind Node) : Parse Node := return .mk 0 ⟨start, ← lastEnd⟩ kind

/-- The result of a parse, without moving. -/
def ahead (p : Parse α) (default : α) : Parse α := fun r =>
  match p r with
  | .ok a _ => .ok a r
  | .error _ _ => .ok default r

/-- The result of a parse that gets through without a fault it cannot get over, or nothing and
no move.  What is known about parentheses is kept. -/
def attempt (p : Parse α) : Parse (Option α) := fun r =>
  match p r with
  | .ok a s => .ok (some a) s
  | .error _ s => .ok none { r with notArrows := s.notArrows }

/-- Repeats a step as long as its result is on the left.  The budget bounds the number of
steps. -/
def loopFor (budget : Text) (step : α → Parse (α ⊕ β)) (a : α) : Parse β :=
  match budget with
  | [] => unexpected
  | _ :: budget => do
    match ← step a with
    | .inl a => loopFor budget step a
    | .inr b => pure b

/-- Repeats a step as long as its result is on the left. -/
def loop (step : α → Parse (α ⊕ β)) (a : α) : Parse β := do
  loopFor (' ' :: ' ' :: ' ' :: (← get).lexed.rest) step a

/-- The results of a parse that is repeated up to a condition. -/
def many (done : Parse Bool) (item : Parse α) : Parse (List α) :=
  loop
    (fun items => do
      if ← done then pure (.inr items.reverse) else pure (.inl ((← item) :: items)))
    []

/-- The results of a parse with commas between them, up to a closing mark that is not passed,
and whether a comma stands at the end. -/
def separated (close : String) (item : Parse α) : Parse (List α × Bool) :=
  loop
    (fun items => do
      let l ← current
      if l.isMark close || l.isEnd then pure (.inr (items.reverse, false))
      else
        if !items.isEmpty then expect ","
        if !items.isEmpty && (← atMark close) then pure (.inr (items.reverse, true))
        else pure (.inl ((← item) :: items)))
    []

end Parse

end Stencil.Script
