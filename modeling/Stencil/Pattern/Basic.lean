import Stencil.Text.Span
import Stencil.Pattern.CharSet

/-!
# Patterns

A pattern is a regular expression with groups.  `Pattern.outcomes p s` lists, in order of
preference, the states in which a match of `p` that begins in state `s` can end: an alternative
that is written first is preferred, and a repetition prefers more turns when it is greedy and
fewer turns otherwise.  The first turn of a repetition may match nothing, which ends it; a further
turn has to move on.
`Pattern.find?` takes the leftmost place where there is an outcome, and the first outcome there.
-/

namespace Stencil

/-- A condition on the surroundings of a place in a text. -/
inductive Assertion where
  | textStart
  | textEnd
  | lineStart
  | lineEnd
  | wordBoundary
  | noWordBoundary
  | wordStart
  | wordEnd
  deriving DecidableEq, Repr

/-- A regular expression whose groups are numbered. -/
inductive Pattern where
  | empty
  | one (s : CharSet)
  | assert (a : Assertion)
  | seq (p q : Pattern)
  | alt (p q : Pattern)
  | group (index : Nat) (p : Pattern)
  | option (greedy : Bool) (p : Pattern)
  | turns (greedy : Bool) (p : Pattern)
  deriving DecidableEq, Repr, Inhabited

namespace Pattern

/-- The state of a match: the place reached, the character before it, the text after it, and
the latest span of each group that has taken part. -/
structure State where
  pos : Nat
  prev : Option Char
  rest : Text
  groups : List (Nat × Span)
  deriving DecidableEq, Repr, Inhabited

namespace State

/-- The state at the beginning of a text. -/
def start (t : Text) : State := ⟨0, none, t, []⟩

/-- The state after the next character. -/
def next? (s : State) : Option State :=
  match s.rest with
  | [] => none
  | c :: rest => some ⟨s.pos + c.utf8Size, some c, rest, s.groups⟩

/-- Sets the span of a group. -/
def record (s : State) (index start : Nat) : State :=
  { s with groups := (index, ⟨start, s.pos⟩) :: s.groups }

/-- The latest span of a group. -/
def group? (s : State) (index : Nat) : Option Span := s.groups.lookup index

end State

end Pattern

/-- The assertion holds in the state. -/
def Assertion.holds (a : Assertion) (s : Pattern.State) : Bool :=
  let before := s.prev.any Category.isWord
  let after := s.rest.head?.any Category.isWord
  match a with
  | .textStart => s.prev.isNone
  | .textEnd => s.rest.isEmpty
  | .lineStart => s.prev.all (· == '\n')
  | .lineEnd => s.rest.head?.all (· == '\n')
  | .wordBoundary => before != after
  | .noWordBoundary => before == after
  | .wordStart => !before && after
  | .wordEnd => before && !after

namespace Pattern

/-- Any number of further turns of `step`, at most `limit` of them.  Each of them moves on, for one
that does not would only come to where the turn before it has ended. -/
def further (step : State → List State) (greedy : Bool) : Nat → State → List State
  | 0, s => [s]
  | limit + 1, s =>
    let more := ((step s).filter (·.pos != s.pos)).flatMap (further step greedy limit)
    if greedy then more ++ [s] else s :: more

/-- One or more turns of `step`. -/
def repeated (step : State → List State) (greedy : Bool) (s : State) : List State :=
  (step s).flatMap fun s' =>
    if s'.pos = s.pos then [s'] else further step greedy s'.rest.length s'

/-- The states in which a match from the given state can end, in order of preference. -/
def outcomes : Pattern → State → List State
  | empty, s => [s]
  | one set, s =>
    match s.rest with
    | [] => []
    | c :: rest => if set.mem c then [⟨s.pos + c.utf8Size, some c, rest, s.groups⟩] else []
  | assert a, s => if a.holds s then [s] else []
  | seq p q, s => (outcomes p s).flatMap (outcomes q)
  | alt p q, s => outcomes p s ++ outcomes q s
  | group index p, s => (outcomes p s).map (·.record index s.pos)
  | option greedy p, s => if greedy then outcomes p s ++ [s] else s :: outcomes p s
  | turns greedy p, s => repeated (outcomes p) greedy s

/-- A match of a pattern: its span, and the span of its first group if that took part. -/
structure Match where
  span : Span
  code : Option Span
  deriving DecidableEq, Repr, Inhabited

/-- The preferred match that begins in the given state. -/
def matchAt? (p : Pattern) (s : State) : Option Match :=
  (outcomes p s).head?.map fun e => ⟨⟨s.pos, e.pos⟩, e.group? 1⟩

/-- The match that begins at the given place or later and begins first, where the text after
the place is `rest`. -/
def findFrom? (p : Pattern) (pos : Nat) (prev : Option Char) (rest : Text) : Option Match :=
  match p.matchAt? ⟨pos, prev, rest, []⟩ with
  | some m => some m
  | none =>
    match rest with
    | [] => none
    | c :: rest => findFrom? p (pos + c.utf8Size) (some c) rest
  termination_by structural rest

/-- The first match that begins at offset `start` or later. -/
def find? (p : Pattern) (t : Text) (start : Nat) : Option Match :=
  p.findFrom? start (Text.before start t).getLast? (Text.onward start t)

/-! ### Common forms -/

/-- One character. -/
def char (c : Char) : Pattern := one (.single c)

/-- The characters of a text, one after the other. -/
def literal : Text → Pattern
  | [] => empty
  | c :: t => seq (char c) (literal t)

/-- Any number of turns. -/
def star (greedy : Bool) (p : Pattern) : Pattern := option greedy (turns greedy p)

/-- A fixed number of copies. -/
def copies (p : Pattern) : Nat → Pattern
  | 0 => empty
  | n + 1 => seq p (copies p n)

/-- At most `n` copies. -/
def atMost (greedy : Bool) (p : Pattern) : Nat → Pattern
  | 0 => empty
  | n + 1 => option greedy (seq p (atMost greedy p n))

/-- At least `min` and, unless `max` is absent, at most `max` copies. -/
def between (greedy : Bool) (p : Pattern) (min : Nat) : Option Nat → Pattern
  | some max => seq (copies p min) (atMost greedy p (max - min))
  | none =>
    match min with
    | 0 => star greedy p
    | n + 1 => seq (copies p n) (turns greedy p)

/-- The choice between a list of patterns. -/
def alts : List Pattern → Pattern
  | [] => empty
  | [p] => p
  | p :: rest => alt p (alts rest)

/-- The patterns of a list one after the other. -/
def seqs : List Pattern → Pattern
  | [] => empty
  | [p] => p
  | p :: rest => seq p (seqs rest)

end Pattern

end Stencil
