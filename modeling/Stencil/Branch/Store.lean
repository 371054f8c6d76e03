import Stencil.Branch.Context
import Stencil.Markup.Reader
import Stencil.View.Markup

/-!
# Views of branches

A view for a target offset shows the target and hides every branch off its path: the ranges in
which it is striped are blanked.  The branches that do not hold the target are chosen so that
they go together with what is known along the path.  A store keeps the views made so far, and a
view that does not hide the target is made only if there is none yet.
-/

namespace Stencil

/-- A view of a document with the ranges that are hidden in it. -/
structure View where
  text : Text
  striped : List Span
  deriving DecidableEq, Repr, Inhabited

namespace View

/-- The view hides an offset. -/
def isStriped (v : View) (offset : Nat) : Bool := v.striped.any (·.contains offset)

/-- The markup of a view. -/
def markup (v : View) : Markup.Document := Markup.Document.ofText v.text

end View

/-- A document with its tags and branches. -/
structure Outlined where
  document : Text
  tags : List Tag
  branches : Branches
  deriving Repr, Inhabited

namespace Outlined

/-- The whole document as one view. -/
def wholeView (o : Outlined) : View := ⟨markupView o.document o.tags [], []⟩

/-- What is hidden and what is known to be false, while a view is made. -/
structure Path where
  striped : List Span := []
  refuted : List Condition := []
  deriving DecidableEq, Repr, Inhabited

namespace Path

/-- A range that is hidden encloses the span. -/
def hides (p : Path) (s : Span) : Bool := p.striped.any (·.encloses s)

/-- Hides further ranges. -/
def hide (p : Path) (spans : List Span) : Path := { p with striped := p.striped ++ spans }

/-- Takes conditions to hold, so that their opposites are known to be false. -/
def assume (p : Path) (conditions : List Condition) : Path :=
  { p with refuted := p.refuted ++ conditions.map Condition.negate }

/-- One of the conditions is known to be false. -/
def refutes (p : Path) (conditions : List Condition) : Bool :=
  conditions.any fun c => p.refuted.any (·.sameConstraint c)

/-- Keeps the consequent of a choice. -/
def takeConsequent (p : Path) (c : Choice) : Path := (p.hide [c.alternate]).assume c.whenTrue

/-- Keeps the alternative of a choice. -/
def takeAlternate (p : Path) (c : Choice) : Path := (p.hide [c.consequent]).assume c.whenFalse

/-- Keeps the branch of a choice that holds the target, if there is one. -/
def towards (target : Nat) (p : Path) (c : Choice) : Path :=
  if c.consequent.contains target then p.takeConsequent c
  else if c.alternate.contains target then p.takeAlternate c
  else p

/-- Keeps the group of a switch that holds the target, or else the first one. -/
def through (target : Nat) (p : Path) (s : Switch) : Path :=
  if p.hides s.span then p else p.hide (s.groups.eraseIdx (s.groupAt target))

/-- Keeps a branch of a choice that does not hold the target: the alternative if the consequent
is known not to be reached. -/
def past (p : Path) (c : Choice) : Path :=
  if p.hides c.span then p
  else if p.refutes c.whenTrue then p.takeAlternate c
  else p.takeConsequent c

end Path

/-- One of the branches of a choice holds the target. -/
def surrounds (target : Nat) (c : Choice) : Bool :=
  c.consequent.contains target || c.alternate.contains target

/-- The path to a target. -/
def pathTo (o : Outlined) (target : Nat) : Path :=
  let choices := o.branches.choices
  let p := choices.foldl (Path.towards target) {}
  let p := o.branches.switches.foldl (Path.through target) p
  (choices.filter (!surrounds target ·)).foldl Path.past p

/-- The view in which the given ranges are hidden. -/
def viewWithout (o : Outlined) (hidden : List Span) : View :=
  let striped := Span.merge hidden
  ⟨markupView (blankRanges o.document striped) o.tags striped, striped⟩

/-- The view for a target, made anew. -/
def viewFor (o : Outlined) (target : Nat) : View := o.viewWithout (o.pathTo target).striped

end Outlined

/-- The views made so far.  A view is known by its index. -/
abbrev ViewStore := List View

namespace ViewStore

/-- The view that does not hide the target, made on being asked for the first time. -/
def cover (o : Outlined) (target : Nat) : StateM ViewStore (Nat × View) :=
  modifyGet fun views =>
    match views.zipIdx.find? (!·.1.isStriped target) with
    | some (v, i) => ((i, v), views)
    | none => ((views.length, o.viewFor target), views ++ [o.viewFor target])

/-- The first beginning of a hidden range after an offset. -/
def nextStart? (v : View) (offset : Nat) : Option Nat :=
  ((v.striped.map (·.start)).filter (offset < ·)).min?

/-- The views for an offset and for the beginnings of hidden ranges after it, each text once.  At
most `limit` views are asked for.  The views collected so far are given. -/
def collect (o : Outlined) : (limit : Nat) → (offset : Nat) → List (Nat × View) →
    StateM ViewStore (List (Nat × View))
  | 0, _, found => pure found
  | limit + 1, offset, found => do
    let (i, v) ← cover o offset
    let found := if found.any (·.2.text == v.text) then found else found ++ [(i, v)]
    match nextStart? v offset with
    | some next => collect o limit next found
    | none => pure found

/-- The offsets at which branches begin. -/
def branchStarts (b : Branches) : List Nat :=
  b.choices.flatMap (fun c => [c.consequent.start, c.alternate.start])
    ++ b.switches.flatMap (·.groups.map (·.start))

/-- The views that are needed to show all branches, each text once. -/
def all (o : Outlined) : StateM ViewStore (List (Nat × View)) :=
  collect o ((branchStarts o.branches).length + 1) 0 []

end ViewStore

end Stencil
