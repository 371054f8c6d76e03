import Stencil.Pattern.Basic

/-!
# The written form of patterns

`Pattern.ofSource?` reads the written form of a pattern and refuses a text that is not one.
The written form has literal characters, escapes, classes with their set operations, groups,
alternatives, repetitions, assertions and flags.  A flag holds from the place where it is set to
the end of the group around it.  `Pattern.escape` writes a text so that it reads back as the
literal pattern of that text.

Not all that is written in patterns elsewhere is read here.  Of the properties of characters those
of letters, letter case, marks, numbers, connecting punctuation, alphabetic characters and white
space have names, and `any` and `ascii`; a text with another name, as that of a script or of
punctuation as a whole, is refused.  So is a word boundary with braces, as `\b{start}`, for which
there are `\<` and `\>`.  The flags `u` and `R` may be set and change nothing: sets, letter case and
word boundaries always go by characters, and a line ends with a line feed.
-/

namespace Stencil.Pattern

/-- The flags under which a part of a pattern is read. -/
structure Flags where
  caseless : Bool := false
  multiline : Bool := false
  dotAll : Bool := false
  swapGreed : Bool := false
  verbose : Bool := false
  deriving DecidableEq, Repr, Inhabited

/-- The characters with a meaning of their own. -/
def isMeta (c : Char) : Bool :=
  c ∈ ['\\', '.', '+', '*', '?', '(', ')', '|', '[', ']', '{', '}', '^', '$', '#', '&', '-', '~']

/-- Writes a text so that it reads back as itself. -/
def escape (t : Text) : Text :=
  t.flatMap fun c => if isMeta c then ['\\', c] else [c]

/-- Skips the text that does not count under the flags: white space and comments. -/
def skipSpace (f : Flags) (t : Text) : Text :=
  if f.verbose then go false t else t
where
  /-- Skips on, inside a comment or not. -/
  go : Bool → Text → Text
    | _, [] => []
    | true, c :: t => go (c != '\n') t
    | false, c :: t => if c == '#' then go true t else if isBlank c then go false t else c :: t

/-- The value of a text of hexadecimal digits. -/
def hexValue? (t : Text) : Option Nat :=
  if t.isEmpty then none
  else t.foldlM (fun n c => (hexDigit? c).map (16 * n + ·)) 0

/-- The character with the given code point. -/
def scalar? (n : Nat) : Option Char :=
  if n.isValidChar then some (Char.ofNat n) else none

/-- Reads the digits of a hexadecimal escape, which are `width` digits or stand in braces. -/
def hexEscape? (width : Nat) (t : Text) : Option (Char × Text) :=
  match t with
  | '{' :: t =>
    match t.dropWhile (· != '}') with
    | '}' :: rest => do
      let n ← hexValue? (t.takeWhile (· != '}'))
      let c ← scalar? n
      pure (c, rest)
    | _ => none
  | _ => do
    let digits := t.take width
    guard (digits.length = width)
    let n ← hexValue? digits
    let c ← scalar? n
    pure (c, t.drop width)

/-- The property with the given name.  Case, spaces, hyphens and underscores do not count. -/
def property? (name : Text) : Option CharSet :=
  let name := (name.filter (fun c => c != ' ' && c != '_' && c != '-')).map Char.toLower
  let named (names : List String) : Bool := names.any (Text.ofString · == name)
  let having (p : Property) := some (CharSet.having p)
  if named ["l", "letter"] then having .letter
  else if named ["lu", "uppercaseletter"] then having .uppercase
  else if named ["ll", "lowercaseletter"] then having .lowercase
  else if named ["m", "mark"] then having .mark
  else if named ["n", "number"] then having .number
  else if named ["nd", "decimalnumber", "digit"] then having .digit
  else if named ["nl", "letternumber"] then having .letterNumber
  else if named ["no", "othernumber"] then having .otherNumber
  else if named ["pc", "connectorpunctuation"] then having .connector
  else if named ["alphabetic", "alpha"] then having .alphabetic
  else if named ["whitespace", "space"] then having .blank
  else if named ["any"] then having .any
  else if named ["ascii"] then some (.range '\x00' '\x7F')
  else none

/-- What an escape stands for. -/
inductive Escaped where
  | char (c : Char)
  | set (s : CharSet)
  | assert (a : Assertion)

/-- The set that a written set stands for under the flags.  Letter case is closed under before
the set is negated. -/
def signed (f : Flags) (negated : Bool) (s : CharSet) : CharSet :=
  let s := if f.caseless then CharSet.caseless s else s
  if negated then .compl s else s

/-- Reads a property escape after its letter, which is negated when `negated` is set. -/
def propertyEscape? (f : Flags) (negated : Bool) (t : Text) : Option (CharSet × Text) :=
  match t with
  | [] => none
  | '{' :: t =>
    match t.dropWhile (· != '}') with
    | '}' :: rest =>
      let (flipped, name) :=
        match t.takeWhile (· != '}') with
        | '^' :: name => (true, name)
        | name => (false, name)
      (property? name).map fun s => (signed f (negated != flipped) s, rest)
    | _ => none
  | c :: rest => (property? [c]).map fun s => (signed f negated s, rest)

/-- Reads an escape after its backslash. -/
def escape? (f : Flags) : Text → Option (Escaped × Text)
  | [] => none
  | c :: t =>
    let set (s : CharSet) := some (Escaped.set s, t)
    let char (c : Char) := some (Escaped.char c, t)
    match c with
    | 'x' => (hexEscape? 2 t).map fun (c, t) => (.char c, t)
    | 'u' => (hexEscape? 4 t).map fun (c, t) => (.char c, t)
    | 'U' => (hexEscape? 8 t).map fun (c, t) => (.char c, t)
    | 'p' => (propertyEscape? f false t).map fun (s, t) => (.set s, t)
    | 'P' => (propertyEscape? f true t).map fun (s, t) => (.set s, t)
    | 'd' => set (.having .digit)
    | 's' => set (.having .blank)
    | 'w' => set (.having .word)
    | 'D' => set (.compl (.having .digit))
    | 'S' => set (.compl (.having .blank))
    | 'W' => set (.compl (.having .word))
    | 'a' => char '\x07'
    | 'f' => char '\x0C'
    | 't' => char '\t'
    | 'n' => char '\n'
    | 'r' => char '\r'
    | 'v' => char '\x0B'
    | 'A' => some (.assert .textStart, t)
    | 'z' => some (.assert .textEnd, t)
    | 'b' => some (.assert .wordBoundary, t)
    | 'B' => some (.assert .noWordBoundary, t)
    | '<' => some (.assert .wordStart, t)
    | '>' => some (.assert .wordEnd, t)
    | c => if c.val < 0x80 && !c.isAlphanum then char c else none

/-! ### Classes -/

/-- The named classes of the form `[:name:]`. -/
def namedClass? (name : String) : Option CharSet :=
  let ranges (l : List (Char × Char)) := some (CharSet.unions (l.map fun r => .range r.1 r.2))
  match name with
  | "alnum" => ranges [('0', '9'), ('A', 'Z'), ('a', 'z')]
  | "alpha" => ranges [('A', 'Z'), ('a', 'z')]
  | "ascii" => ranges [('\x00', '\x7F')]
  | "blank" => ranges [('\t', '\t'), (' ', ' ')]
  | "cntrl" => ranges [('\x00', '\x1F'), ('\x7F', '\x7F')]
  | "digit" => ranges [('0', '9')]
  | "graph" => ranges [('!', '~')]
  | "lower" => ranges [('a', 'z')]
  | "print" => ranges [(' ', '~')]
  | "punct" => ranges [('!', '/'), (':', '@'), ('[', '\x60'), ('{', '~')]
  | "space" => ranges [('\t', '\r'), (' ', ' ')]
  | "upper" => ranges [('A', 'Z')]
  | "word" => ranges [('0', '9'), ('A', 'Z'), ('_', '_'), ('a', 'z')]
  | "xdigit" => ranges [('0', '9'), ('A', 'F'), ('a', 'f')]
  | _ => none

/-- Reads a named class after its opening `[:`. -/
def namedClassAt? (f : Flags) (t : Text) : Option (CharSet × Text) :=
  let (negated, t) :=
    match t with
    | '^' :: t => (true, t)
    | t => (false, t)
  match t.dropWhile (· != ':') with
  | ':' :: ']' :: rest =>
    (namedClass? (String.ofList (t.takeWhile (· != ':')))).map fun s =>
      (signed f negated s, rest)
  | _ => none

/-- The operations between the operands of a class. -/
inductive ClassOp where
  | inter
  | diff
  | symmDiff

/-- Applies a pending operation to its second operand. -/
def ClassOp.apply (pending : Option (CharSet × ClassOp)) (s : CharSet) : CharSet :=
  match pending with
  | none => s
  | some (t, inter) => .inter t s
  | some (t, diff) => .diff t s
  | some (t, symmDiff) => .symmDiff t s

/-- Reads one member of a class, either a single character or a set. -/
def classItem? (f : Flags) : Text → Option ((Char ⊕ CharSet) × Text)
  | [] => none
  | '\\' :: t =>
    match escape? f t with
    | some (.char c, t) => some (.inl c, t)
    | some (.set s, t) => some (.inr s, t)
    | _ => none
  | c :: t => some (.inl c, t)

/-- Reads one member of a class or a range of them. -/
def classRange? (f : Flags) (t : Text) : Option (CharSet × Text) := do
  let (item, t) ← classItem? f t
  let t := skipSpace f t
  let alone : Option (CharSet × Text) :=
    match item with
    | .inl c => some (signed f false (.single c), t)
    | .inr s => some (s, t)
  match t with
  | [] => none
  | '-' :: after =>
    match skipSpace f after with
    | [] => none
    | ']' :: _ => alone
    | '-' :: _ => alone
    | after =>
      match item, classItem? f after with
      | .inl a, some (.inl b, t) => if a ≤ b then some (signed f false (.range a b), t) else none
      | _, _ => none
  | _ => alone

/-- The beginning of a class after its `[`: whether it is negated, and the hyphens and the
bracket that stand for themselves because they come first. -/
def classOpening (f : Flags) (t : Text) : Bool × List CharSet × Text :=
  let t := skipSpace f t
  let (negated, t) :=
    match t with
    | '^' :: t => (true, skipSpace f t)
    | t => (false, t)
  let rec hyphens : List CharSet → Text → List CharSet × Text
    | members, '-' :: t => hyphens (.single '-' :: members) t
    | members, t => (members, t)
  let (members, t) := hyphens [] t
  match members, t with
  | [], ']' :: t => (negated, [.single ']'], t)
  | members, t => (negated, members, t)

/-- Reads a class after its opening, up to and including its `]`. -/
def classBody? (f : Flags) : Nat → Option (CharSet × ClassOp) → List CharSet → Text →
    Option (CharSet × Text)
  | 0, _, _, _ => none
  | limit + 1, pending, members, t =>
    let operand := CharSet.unions members.reverse
    match skipSpace f t with
    | [] => none
    | ']' :: t => some (ClassOp.apply pending operand, t)
    | '&' :: '&' :: t =>
      classBody? f limit (some (ClassOp.apply pending operand, .inter)) [] t
    | '-' :: '-' :: t =>
      classBody? f limit (some (ClassOp.apply pending operand, .diff)) [] t
    | '~' :: '~' :: t =>
      classBody? f limit (some (ClassOp.apply pending operand, .symmDiff)) [] t
    | '[' :: t =>
      let named :=
        match t with
        | ':' :: t => namedClassAt? f t
        | _ => none
      match named with
      | some (s, t) =>
        classBody? f limit pending (s :: members) t
      | none =>
        let (negated, inner, t) := classOpening f t
        match classBody? f limit none inner t with
        | none => none
        | some (s, t) =>
          classBody? f limit pending ((if negated then .compl s else s) :: members) t
    | t =>
      match classRange? f t with
      | none => none
      | some (s, t) => classBody? f limit pending (s :: members) t

/-- Reads a class after its `[`. -/
def class? (f : Flags) (t : Text) : Option (CharSet × Text) :=
  let (negated, members, t) := classOpening f t
  (classBody? f (t.length + 1) none members t).map fun (s, t) =>
    (if negated then .compl s else s, t)

/-! ### Repetitions -/

/-- The greed of a repetition, which a `?` after it turns around. -/
def greed (f : Flags) (t : Text) : Bool × Text :=
  match t with
  | '?' :: t => (f.swapGreed, t)
  | t => (!f.swapGreed, t)

/-- Reads a decimal number, with the white space around it. -/
def decimal? (t : Text) : Option Nat × Text :=
  let t := t.dropWhile isBlank
  let digits := t.takeWhile Char.isDigit
  let value := digits.foldl (fun n c => 10 * n + (c.toNat - '0'.toNat)) 0
  let rest := (t.dropWhile Char.isDigit).dropWhile isBlank
  (if digits.isEmpty || Nat.pow 2 32 ≤ value then none else some value, rest)

/-- Reads the bounds of a counted repetition after its `{`, up to and including its `}`. -/
def bounds? (f : Flags) (t : Text) : Option (Nat × Option Nat × Text) := do
  let (min, t) := decimal? (skipSpace f t)
  let min ← min
  match t with
  | '}' :: t => pure (min, some min, t)
  | ',' :: t =>
    match skipSpace f t with
    | '}' :: t => pure (min, none, t)
    | t =>
      let (max, t) := decimal? t
      let max ← max
      guard (min ≤ max)
      match t with
      | '}' :: t => pure (min, some max, t)
      | _ => none
  | _ => none

/-! ### Groups -/

/-- The opening of a group. -/
inductive Opening where
  | numbered (name : Option Text)
  | plain (f : Flags)
  | flags (f : Flags)

/-- Sets one flag by its letter.  The flags for other encodings and for other ends of lines change
nothing. -/
def Flags.set? (f : Flags) (on : Bool) : Char → Option Flags
  | 'i' => some { f with caseless := on }
  | 'm' => some { f with multiline := on }
  | 's' => some { f with dotAll := on }
  | 'U' => some { f with swapGreed := on }
  | 'x' => some { f with verbose := on }
  | 'u' => some f
  | 'R' => some f
  | _ => none

/-- Reads flags up to the `:` or `)` after them.  No flag may be set twice, and a hyphen must
be followed by a flag. -/
def flags? (f : Flags) (on : Bool) (seen : List Char) : Text → Option (Flags × Char × Text)
  | [] => none
  | '-' :: t =>
    if !on then none
    else
      match t with
      | [] => none
      | c :: _ => if c == ':' || c == ')' then none else flags? f false seen t
  | c :: t =>
    if c == ':' then some (f, c, t)
    else if c == ')' then some (f, c, t)
    else if seen.contains c then none
    else
      match f.set? on c with
      | some f => flags? f on (c :: seen) t
      | none => none

/-- The character may stand in the name of a group. -/
def isNameChar (first : Bool) (c : Char) : Bool :=
  if first then c == '_' || Category.isAlphabetic c
  else c == '_' || c == '.' || c == '[' || c == ']' || Category.isAlphanumeric c

/-- Reads the name of a group up to and including its `>`. -/
def name? (t : Text) : Option (Text × Text) :=
  let name := t.takeWhile (· != '>')
  match name, t.dropWhile (· != '>') with
  | first :: rest, '>' :: t =>
    if isNameChar true first && rest.all (isNameChar false) then some (name, t) else none
  | _, _ => none

/-- Reads the opening of a group after its `(`. -/
def opening? (f : Flags) (t : Text) : Option (Opening × Text) :=
  match skipSpace f t with
  | '?' :: '=' :: _ => none
  | '?' :: '!' :: _ => none
  | '?' :: '<' :: '=' :: _ => none
  | '?' :: '<' :: '!' :: _ => none
  | '?' :: 'P' :: '<' :: t => (name? t).map fun (n, t) => (.numbered (some n), t)
  | '?' :: '<' :: t => (name? t).map fun (n, t) => (.numbered (some n), t)
  | '?' :: ')' :: _ => none
  | '?' :: t =>
    (flags? f true [] t).map fun (f, c, t) => (if c == ')' then .flags f else .plain f, t)
  | t => some (.numbered none, t)

/-! ### Whole patterns -/

/-- What a reader has taken of a group so far: the flags in force, the finished alternatives
and the items of the current one, both latest first.  An absent item is a setting of flags. -/
structure Partial where
  flags : Flags
  done : List Pattern
  items : List (Option Pattern)

namespace Partial

/-- Takes one more item. -/
def push (b : Partial) (p : Pattern) : Partial := { b with items := some p :: b.items }

/-- Repeats the last item, if it can be repeated. -/
def repeat? (b : Partial) (r : Pattern → Pattern) : Option Partial :=
  match b.items with
  | some p :: items => some { b with items := some (r p) :: items }
  | _ => none

/-- Ends the current alternative. -/
def nextAlternative (b : Partial) : Partial :=
  { b with done := seqs (b.items.reverse.filterMap id) :: b.done, items := [] }

/-- The pattern of all that was taken. -/
def pattern (b : Partial) : Pattern := alts b.nextAlternative.done.reverse

end Partial

/-- The groups opened so far: their number and the names in use. -/
structure Groups where
  count : Nat
  names : List Text

/-- Reads the inside of a group, up to its `)` or to the end of the text. -/
def body? : Nat → Partial → Groups → Text → Option (Pattern × Groups × Text)
  | 0, _, _, _ => none
  | limit + 1, b, g, t =>
    let f := b.flags
    match skipSpace f t with
    | [] => some (b.pattern, g, [])
    | ')' :: t => some (b.pattern, g, ')' :: t)
    | '|' :: t => body? limit b.nextAlternative g t
    | '(' :: t =>
      match opening? f t with
      | none => none
      | some (.flags f, t) => body? limit { b with flags := f, items := none :: b.items } g t
      | some (.plain f, t) =>
        match body? limit ⟨f, [], []⟩ g t with
        | some (p, g, ')' :: t) => body? limit (b.push p) g t
        | _ => none
      | some (.numbered name, t) =>
        if name.any g.names.contains then none
        else
          let index := g.count + 1
          match body? limit ⟨f, [], []⟩ ⟨index, name.toList ++ g.names⟩ t with
          | some (p, g, ')' :: t) => body? limit (b.push (.group index p)) g t
          | _ => none
    | '[' :: t =>
      match class? f t with
      | some (s, t) => body? limit (b.push (.one s)) g t
      | none => none
    | '*' :: t =>
      let (greedy, t) := greed f t
      match b.repeat? (star greedy) with
      | some b => body? limit b g t
      | none => none
    | '+' :: t =>
      let (greedy, t) := greed f t
      match b.repeat? (turns greedy) with
      | some b => body? limit b g t
      | none => none
    | '?' :: t =>
      let (greedy, t) := greed f t
      match b.repeat? (option greedy) with
      | some b => body? limit b g t
      | none => none
    | '{' :: t =>
      match bounds? f t with
      | none => none
      | some (min, max, t) =>
        let (greedy, t) := greed f (skipSpace f t)
        match b.repeat? (between greedy · min max) with
        | some b => body? limit b g t
        | none => none
    | '.' :: t =>
      body? limit (b.push (.one (if f.dotAll then .all else .compl (.single '\n')))) g t
    | '^' :: t =>
      body? limit (b.push (.assert (if f.multiline then .lineStart else .textStart))) g t
    | '$' :: t =>
      body? limit (b.push (.assert (if f.multiline then .lineEnd else .textEnd))) g t
    | '\\' :: t =>
      match escape? f t with
      | some (.char c, t) => body? limit (b.push (.one (signed f false (.single c)))) g t
      | some (.set s, t) => body? limit (b.push (.one s)) g t
      | some (.assert a, t) => body? limit (b.push (.assert a)) g t
      | none => none
    | c :: t => body? limit (b.push (.one (signed f false (.single c)))) g t

/-- A pattern that was read, with the number of its groups. -/
structure Parsed where
  pattern : Pattern
  groups : Nat
  deriving DecidableEq, Repr

/-- Reads the written form of a pattern. -/
def ofSource? (t : Text) : Option Parsed :=
  match body? (t.length + 1) ⟨{}, [], []⟩ ⟨0, []⟩ t with
  | some (p, g, []) => some ⟨p, g.count⟩
  | _ => none

end Stencil.Pattern
