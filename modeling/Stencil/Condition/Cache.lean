import Stencil.Condition.Test

/-!
# Shared conditions

A condition that is asked for again is not made again: a pool keeps the conditions that were made
so far, and with each of them its opposite once that was asked for.  So an opposite of an opposite
is a condition of its own, equal to the first.  A cache remembers which conditions and which lists
of them were made for which node.
-/

namespace Stencil

/-- A condition in a pool, as the number of conditions that were made before it. -/
abbrev ConditionKey := Nat

/-- The conditions made so far, and the opposites that were asked for. -/
structure ConditionPool where
  made : List Condition := []
  opposites : List (ConditionKey × ConditionKey) := []
  deriving Repr, Inhabited

namespace ConditionPool

/-- The condition of a key. -/
def get (p : ConditionPool) (k : ConditionKey) : Condition := p.made.getD k default

/-- Makes a condition. -/
def add (p : ConditionPool) (c : Condition) : ConditionKey × ConditionPool :=
  (p.made.length, { p with made := p.made ++ [c] })

/-- The opposite of a condition, which is made on being asked for the first time. -/
def negate (p : ConditionPool) (k : ConditionKey) : ConditionKey × ConditionPool :=
  match p.opposites.lookup k with
  | some o => (o, p)
  | none =>
    let (o, p) := p.add (p.get k).negate
    (o, { p with opposites := (k, o) :: p.opposites })

end ConditionPool

/-- What was made for the nodes of a tree: conditions by the identity of the node, and lists of
conditions by the identity and by whether the node is true. -/
structure ConditionCache where
  pool : ConditionPool := {}
  lists : List (List ConditionKey) := []
  conditions : List (Nat × ConditionKey) := []
  assumed : List ((Nat × Bool) × Nat) := []
  deriving Repr, Inhabited

namespace ConditionCache

open Script

/-- Makes a condition. -/
def make (c : Condition) : StateM ConditionCache ConditionKey :=
  modifyGet fun s =>
    let (k, pool) := s.pool.add c
    (k, { s with pool := pool })

/-- The opposite of a condition. -/
def negate (k : ConditionKey) : StateM ConditionCache ConditionKey :=
  modifyGet fun s =>
    let (o, pool) := s.pool.negate k
    (o, { s with pool := pool })

/-- The condition of a node, which is found by `find` on being asked for the first time. -/
def rememberCondition (id : Nat) (find : StateM ConditionCache ConditionKey) :
    StateM ConditionCache ConditionKey := do
  match (← get).conditions.lookup id with
  | some k => pure k
  | none =>
    let k ← find
    modify fun s => { s with conditions := (id, k) :: s.conditions }
    pure k

/-- The list of conditions of a node, which is found by `find` on being asked for the first
time. -/
def rememberList (id : Nat) (truth : Bool) (find : StateM ConditionCache Nat) :
    StateM ConditionCache Nat := do
  match (← get).assumed.lookup (id, truth) with
  | some l => pure l
  | none =>
    let l ← find
    modify fun s => { s with assumed := ((id, truth), l) :: s.assumed }
    pure l

/-- Makes a list of conditions. -/
def makeList (keys : List ConditionKey) : StateM ConditionCache Nat :=
  modifyGet fun s => (s.lists.length, { s with lists := s.lists ++ [keys] })

/-- The conditions of a list. -/
def listAt (l : Nat) : StateM ConditionCache (List ConditionKey) :=
  return (← get).lists.getD l []

/-- The condition that a test is true. -/
def condition (source : Text) : Node → StateM ConditionCache ConditionKey
  | .mk id span (.unary operator argument) =>
    rememberCondition id <|
      if operator = "!" then do negate (← condition source argument)
      else make (Node.simpleCondition source (.mk id span (.unary operator argument)))
  | .mk id span (.call callee [argument] optional) =>
    rememberCondition id <|
      if callee.isBooleanName && !argument.isSpread then condition source argument
      else make (Node.simpleCondition source (.mk id span (.call callee [argument] optional)))
  | .mk id span kind =>
    rememberCondition id <| make (Node.condition source (.mk id span kind))

/-- The condition that a test is true, or that it is false. -/
def ownCondition (source : Text) (truth : Bool) (n : Node) :
    StateM ConditionCache ConditionKey := do
  let k ← condition source n
  if truth then pure k else negate k

/-- The list of the conditions that are known to hold where a test is true, or where it is
false. -/
def assumptions (source : Text) (truth : Bool) : Node → StateM ConditionCache Nat
  | .mk id span (.unary operator argument) =>
    rememberList id truth <|
      if operator = "!" then assumptions source (!truth) argument
      else do
        makeList [← ownCondition source truth (.mk id span (.unary operator argument))]
  | .mk id span (.call callee [argument] optional) =>
    rememberList id truth <|
      if callee.isBooleanName && !argument.isSpread then assumptions source truth argument
      else do
        makeList [← ownCondition source truth (.mk id span (.call callee [argument] optional))]
  | .mk id span (.logical operator left right) =>
    rememberList id truth <|
      if operator = splitOperator truth then do
        let l ← listAt (← assumptions source truth left)
        let r ← listAt (← assumptions source truth right)
        let own ← ownCondition source truth (.mk id span (.logical operator left right))
        makeList (l ++ r ++ [own])
      else do
        makeList [← ownCondition source truth (.mk id span (.logical operator left right))]
  | .mk id span kind =>
    rememberList id truth do makeList [← ownCondition source truth (.mk id span kind)]

/-- The conditions that are known to hold where a test is true, or where it is false. -/
def assumptionValues (source : Text) (truth : Bool) (n : Node) :
    StateM ConditionCache (List Condition) := do
  let keys ← listAt (← assumptions source truth n)
  let s ← get
  pure (keys.map s.pool.get)

end ConditionCache

end Stencil
