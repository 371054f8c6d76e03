import Stencil.Lint.Rule
import Stencil.Pattern.Source
import Stencil.Text.Category

/-!
# Warning terms

This rule reports comments in the code of tags that hold one of certain terms, by default only
where the term stands at the beginning of the comment.  Case does not matter, and a term that
ends in a letter or a digit is no part of a longer word.
-/

namespace Stencil.Lint

/-- Where a term is looked for. -/
inductive TermLocation where
  | start
  | anywhere
  deriving DecidableEq, Repr, Inhabited

/-- The options of the rule. -/
structure TermOptions where
  terms : List String := ["todo", "fixme", "xxx"]
  location : TermLocation := .start
  deriving DecidableEq, Repr, Inhabited

namespace TermOptions

/-- The name in a value that stands for one of several names. -/
def nameOf? : Json → Option String
  | .string s => some s
  | .object [(s, .null)] => some s
  | _ => none

/-- The location that a value names. -/
def location? (v : Json) : Option TermLocation :=
  match nameOf? v with
  | some "start" => some .start
  | some "anywhere" => some .anywhere
  | _ => none

/-- The terms that a value lists. -/
def terms? : Json → Option (List String)
  | .array items => items.mapM fun v =>
    match v with
    | .string s => some s
    | _ => none
  | _ => none

/-- The options with one more entry of an object. -/
def withEntry (o : TermOptions) (entry : String × Json) : Option TermOptions :=
  match entry with
  | ("terms", v) => (terms? v).map fun terms => { o with terms := terms }
  | ("location", v) => (location? v).map fun location => { o with location := location }
  | _ => none

/-- The options that a value gives. -/
def ofJson? : Json → Option TermOptions
  | .null => some {}
  | .object entries => entries.foldlM withEntry {}
  | .array [] => some {}
  | .array [terms] => withEntry {} ("terms", terms)
  | .array [terms, location] => do
    let o ← withEntry {} ("terms", terms)
    o.withEntry ("location", location)
  | _ => none

end TermOptions

/-- The character may be part of a longer word. -/
def isTermWord (c : Char) : Bool := c == '_' || Category.isAlphanumeric c

/-- The source of the pattern that finds a term. -/
def termSource (location : TermLocation) (term : Text) : Text :=
  let boundary (isNeeded : Bool) : Text := if isNeeded then ['\\', 'b'] else []
  let lead : Text :=
    match location with
    | .start => Text.ofString "^[\\s*]*"
    | .anywhere => boundary (term.head?.any isTermWord)
  Text.ofString "(?i)" ++ lead ++ Pattern.escape term ++ boundary (term.getLast?.any isTermWord)

/-- The terms of options with their patterns. -/
def termPatterns (o : TermOptions) : Except ConfigError (List (String × Pattern)) :=
  o.terms.mapM fun term =>
    match Pattern.ofSource? (termSource o.location term.toList) with
    | some p => .ok (term, p.pattern)
    | none => .error (.term term)

/-- The patterns that a value gives. -/
def termPatternsOf (options : Json) : Except ConfigError (List (String × Pattern)) :=
  match TermOptions.ofJson? options with
  | some o => termPatterns o
  | none => .error .termOptions

/-- The findings for the comments of a document. -/
def findTerms (a : Analysis) (patterns : List (String × Pattern)) : List Finding :=
  a.tags.flatMap fun tag =>
    match a.tokensOf? tag with
    | none => []
    | some info =>
      info.comments.filterMap fun comment =>
        (patterns.find? fun (_, p) => (p.find? comment.value 0).isSome).map fun (term, _) =>
          { span := comment.span, message := "Unexpected '" ++ term ++ "' comment." }

/-- Reports comments that hold warning terms. -/
def warningTerms : Rule where
  info :=
    ⟨"no-warning-terms", "Disallow warning terms such as TODO in template comments", false, .off⟩
  accepts options := (termPatternsOf options).map fun _ => ()
  check options a :=
    match termPatternsOf options with
    | .ok patterns => pure (findTerms a patterns)
    | .error _ => pure []

end Stencil.Lint
