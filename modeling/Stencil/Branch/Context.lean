import Stencil.Condition.Cache

/-!
# Branches

Pieces of a document that are never shown together lie in different branches of a script.  A
choice with an alternative has two branches.  A switch has a branch for each group of cases that
run on into each other: a group goes on up to the case that holds a `break`, either directly or
within nested blocks, and the range of a group extends to the beginning of the next one.
-/

namespace Stencil

open Script

/-- A choice with an alternative, with what is known in its branches. -/
structure Choice where
  span : Span
  consequent : Span
  alternate : Span
  whenTrue : List Condition
  whenFalse : List Condition
  deriving DecidableEq, Repr, Inhabited

/-- A switch with at least two cases, with the ranges of its groups. -/
structure Switch where
  span : Span
  groups : List Span
  deriving DecidableEq, Repr, Inhabited

/-- The choices and the switches of a script in the order in which they begin. -/
structure Branches where
  choices : List Choice := []
  switches : List Switch := []
  deriving DecidableEq, Repr, Inhabited

/-- The reasons why the branches of a tree cannot be told. -/
inductive BranchError where
  | consequent (span : Span)
  | alternate (span : Span)
  | switchCase (span : Span)
  deriving DecidableEq, Repr

namespace BranchError

/-- The wording of an error. -/
def message : BranchError → String
  | consequent _ => "if consequent is not a statement"
  | alternate _ => "if alternate is not a statement"
  | switchCase _ => "switch case is not a SwitchCase"

/-- The place of an error. -/
def span : BranchError → Span
  | consequent s => s
  | alternate s => s
  | switchCase s => s

end BranchError

namespace Script

mutual

/-- The node is a `break`, or a block that holds one. -/
def Node.breaks : Node → Bool
  | .mk _ _ (.breakStatement _) => true
  | .mk _ _ (.blockStatement body) => breaksAny body
  | _ => false

/-- One of the nodes is a `break`, or a block that holds one. -/
def breaksAny : List Node → Bool
  | [] => false
  | n :: rest => n.breaks || breaksAny rest

end

end Script

namespace Switch

/-- The beginnings of the groups of cases.  The next case begins a group unless one is open. -/
def groupStarts (isOpen : Bool) : List Node → Except BranchError (List Nat)
  | [] => .ok []
  | n :: rest =>
    match n.kind with
    | .switchCase _ consequent => do
      let starts ← groupStarts (!breaksAny consequent) rest
      pure (if isOpen then starts else n.span.start :: starts)
    | _ => .error (.switchCase n.span)

/-- The ranges from each of the given beginnings to the next, the last one up to `stop`. -/
def groupsOf (stop : Nat) : List Nat → List Span
  | [] => []
  | [start] => [⟨start, stop⟩]
  | start :: next :: rest => ⟨start, next⟩ :: groupsOf stop (next :: rest)

/-- The index of the group that holds an offset, or of the first group if none does. -/
def groupAt (s : Switch) (offset : Nat) : Nat :=
  let i := s.groups.findIdx (·.contains offset)
  if i < s.groups.length then i else 0

/-- The switch that a statement with the given span and cases is. -/
def ofCases? (span : Span) (cases : List Node) : Except BranchError (Option Switch) := do
  let starts ← groupStarts false cases
  pure (if cases.length < 2 then none else some ⟨span, groupsOf span.stop starts⟩)

end Switch

namespace Branches

/-- A computation that collects branches. -/
abbrev Collect (α : Type) := ExceptT BranchError (StateM ConditionCache) α

/-- The choice that a statement with the given span and parts is. -/
def choice? (source : Text) (span : Span) (test consequent : Node) (alternate : Option Node) :
    Collect (Option Choice) := do
  if !consequent.isStatement then throw (.consequent consequent.span)
  match alternate with
  | none => pure none
  | some alternate =>
    if !alternate.isStatement then throw (.alternate alternate.span)
    let whenTrue ← ConditionCache.assumptionValues source true test
    let whenFalse ← ConditionCache.assumptionValues source false test
    pure (some ⟨span, consequent.span, alternate.span, whenTrue, whenFalse⟩)

/-- The branches of a list of nodes. -/
def ofNodes (source : Text) : List Node → Collect Branches
  | [] => pure {}
  | n :: rest =>
    match n.kind with
    | .ifStatement test consequent alternate => do
      let choice ← choice? source n.span test consequent alternate
      let later ← ofNodes source rest
      pure { later with choices := choice.toList ++ later.choices }
    | .switchStatement _ cases => do
      let switch ← Switch.ofCases? n.span cases
      let later ← ofNodes source rest
      pure { later with switches := switch.toList ++ later.switches }
    | _ => ofNodes source rest

/-- The branches of a tree, or the first reason why they cannot be told. -/
def ofTree (source : Text) (tree : Node) : Except BranchError Branches :=
  ((ofNodes source tree.preorder).run.run {}).1

/-- There are no branches. -/
def isEmpty (b : Branches) : Bool := b.choices.isEmpty && b.switches.isEmpty

end Branches

end Stencil
