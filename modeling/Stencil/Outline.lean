/-!
# Outlines and walks

An outline is the ordered tree that a walk sees: each node carries a value and the list of the
nodes below it that are visited.  A table of keys says which fields of a tree are visited, type
by type, and so determines the outline of the tree.

A walk goes through an outline depth first.  A visitor enters a node before the nodes below it
and leaves it after them; its answer on entering decides whether the nodes below are visited
and whether the walk goes on at all.  `Outline.walk` keeps the steps that are still to be taken
on a stack.
-/

namespace Stencil

/-- The names of the fields that are visited, by the name of the type. -/
abbrev Keys := List (String × List String)

/-- The names of the fields of a type that are visited. -/
def Keys.fieldsOf (keys : Keys) (typeName : String) : List String :=
  (keys.lookup typeName).getD []

/-- An ordered tree. -/
inductive Outline (α : Type) where
  | node (value : α) (below : List (Outline α))

/-- What a visitor decides on entering a node. -/
inductive Action where
  | continue
  | skip
  | stop
  deriving DecidableEq, Repr, Inhabited

/-- A visitor with a state.  On entering and leaving a node it is told the node above it. -/
structure Visitor (α σ : Type) where
  enter : α → Option α → σ → Action × σ
  leave : α → Option α → σ → σ

namespace Outline

variable {α σ : Type}

/-- The value at the top. -/
def value : Outline α → α
  | node a _ => a

mutual

/-- The number of nodes. -/
def size : Outline α → Nat
  | node _ below => sizeAll below + 1

/-- The number of nodes of several outlines. -/
def sizeAll : List (Outline α) → Nat
  | [] => 0
  | t :: ts => size t + sizeAll ts

end

mutual

/-- The values with the values above them, from the top down and from left to right. -/
def withParents (parent : Option α) : Outline α → List (α × Option α)
  | node a below => (a, parent) :: withParentsAll (some a) below

/-- The values of several outlines with the values above them. -/
def withParentsAll (parent : Option α) : List (Outline α) → List (α × Option α)
  | [] => []
  | t :: ts => withParents parent t ++ withParentsAll parent ts

end

/-- The values, from the top down and from left to right. -/
def values (t : Outline α) : List α := (t.withParents none).map (·.1)

/-- A step of a walk. -/
inductive Step (α : Type) where
  | enter (t : Outline α) (parent : Option α)
  | leave (a : α) (parent : Option α)

/-- A bound on the number of steps that a step gives rise to. -/
def Step.weight : Step α → Nat
  | enter t _ => 2 * t.size
  | leave _ _ => 1

/-- The sum of the weights of the steps on a stack. -/
def stackWeight : List (Step α) → Nat
  | [] => 0
  | s :: rest => s.weight + stackWeight rest

theorem stackWeight_append (steps rest : List (Step α)) :
  stackWeight (steps ++ rest) = stackWeight steps + stackWeight rest
  := by
  induction steps with
  | nil => simp [stackWeight]
  | cons s steps ih => simp [stackWeight, ih, Nat.add_assoc]

/-- The steps that enter several outlines from left to right. -/
def enterAll (parent : Option α) : List (Outline α) → List (Step α)
  | [] => []
  | t :: ts => .enter t parent :: enterAll parent ts

theorem stackWeight_enterAll (parent : Option α) (ts : List (Outline α)) :
  stackWeight (enterAll parent ts) = 2 * sizeAll ts
  := by
  induction ts with
  | nil => rfl
  | cons t ts ih =>
    simp only [stackWeight, enterAll, Step.weight, sizeAll, ih]
    omega

/-- Takes the steps on a stack one by one.  The first result says whether the walk was
completed. -/
def run (v : Visitor α σ) (steps : List (Step α)) (s : σ) : Bool × σ :=
  match steps with
  | [] => (true, s)
  | .leave a parent :: rest => run v rest (v.leave a parent s)
  | .enter (.node a below) parent :: rest =>
    match v.enter a parent s with
    | (.stop, s) => (false, s)
    | (.skip, s) => run v (.leave a parent :: rest) s
    | (.continue, s) =>
      run v (enterAll (some a) below ++ .leave a parent :: rest) s
  termination_by stackWeight steps
  decreasing_by
    · simp [stackWeight, Step.weight]
    · simp only [stackWeight, Step.weight, size]
      omega
    · have h := stackWeight_enterAll (some a) below
      simp only [stackWeight, stackWeight_append, Step.weight, size, h]
      omega

/-- Walks through an outline. -/
def walk (v : Visitor α σ) (t : Outline α) (s : σ) : Bool × σ := run v [.enter t none] s

end Outline

end Stencil
