import Mathlib.Tactic.DeriveTraversable
import Stencil.Proofs.Script.Moved
import Stencil.Proofs.Walk

/-!
# Walks that miss nothing

A visitor that always goes on enters every node of a tree and leaves every node of it.  Which nodes
these are is told in two ways.  The walk looks at the fields that the table of keys names for the
type of a node.  The declaration of the type of kinds says by itself what a kind of node holds: to
go through the parts of a kind is derived from it, without a list of names.  The two agree for every
kind, so no field with nodes is missing from the table, and a walk enters each node that a tree
contains once, below the node that holds it.
-/

namespace Stencil

variable {α β σ ν : Type}

/-! ### Visitors that always go on -/

/-- The visitor goes on wherever it is. -/
def Visitor.AlwaysContinues (v : Visitor α σ) : Prop :=
  ∀ a parent s, (v.enter a parent s).1 = .continue

/-- The value that is entered in a call, with the value above it. -/
def Call.entered? : Call α → Option (α × Option α)
  | enter a parent _ => some (a, parent)
  | leave _ _ => none

/-- The value that is left in a call. -/
def Call.left? : Call α → Option α
  | enter _ _ _ => none
  | leave a _ => some a

namespace Course

/-- The end is reached, and what is picked from the calls is as given. -/
structure Tells (pick : Call α → Option β) (c : Course α σ) (told : List β) : Prop where
  isCompleted : c.isCompleted = true
  picked : c.calls.filterMap pick = told

variable {pick : Call α → Option β}

theorem tells_idle (s : σ) :
  Tells pick (idle s : Course α σ) []
  := ⟨rfl, rfl⟩

theorem tells_leave (v : Visitor α σ) (a : α) (parent : Option α) (s : σ) :
  Tells pick (leave v a parent s) (pick (.leave a parent)).toList
  := ⟨rfl, List.filterMap_cons ..⟩

theorem Tells.andThen {c : Course α σ} {next : σ → Course α σ} {told told' : List β}
    (hc : Tells pick c told) (hnext : ∀ s, Tells pick (next s) told') :
  Tells pick (c.andThen next) (told ++ told')
  := by
  rw [Course.andThen, if_pos hc.isCompleted]
  constructor
  · exact (hnext c.state).isCompleted
  · rw [List.filterMap_append, hc.picked, (hnext c.state).picked]

theorem tells_inTurn {course : ν → σ → Course α σ} {told : ν → List β} {l : List ν}
    (h : ∀ b ∈ l, ∀ s, Tells pick (course b s) (told b)) (s : σ) :
  Tells pick (inTurn course l s) (l.flatMap told)
  := by
  induction l generalizing s with
  | nil => exact tells_idle s
  | cons b rest ih =>
      rw [List.forall_mem_cons] at h
      rw [inTurn, List.flatMap_cons]
      exact (h.1 s).andThen (ih h.2)

/-- A visitor that always goes on enters a node, comes by what is in it, and leaves it. -/
theorem tells_within {v : Visitor α σ} (hv : v.AlwaysContinues) (a : α) (parent : Option α)
    {inside : σ → Course α σ} {told : List β} (h : ∀ s, Tells pick (inside s) told) (s : σ) :
  Tells pick (within v a parent inside s)
    ((pick (.enter a parent .continue)).toList ++ told ++ (pick (.leave a parent)).toList)
  := by
  unfold within
  rcases hanswer : v.enter a parent s with ⟨answer, s'⟩
  obtain rfl : answer = .continue := by rw [← hv a parent s, hanswer]
  refine Tells.andThen (Tells.andThen ?_ ?_) (tells_leave v a parent)
  · exact ⟨rfl, List.filterMap_cons ..⟩
  · exact h

end Course

namespace Outline

/-- The values, each after those below it. -/
def postorder (t : Outline α) : List α :=
  match t with
  | node a below => below.attach.flatMap (fun u => postorder u.1) ++ [a]
  termination_by sizeOf t
  decreasing_by
    have := List.sizeOf_lt_of_mem u.2
    simp only [node.sizeOf_spec]
    omega

theorem postorder_node (a : α) (below : List (Outline α)) :
  (node a below).postorder = below.flatMap postorder ++ [a]
  := by
  rw [postorder]
  congr 1
  have hbelow := List.flatMap_subtype (l := below.attach) (f := fun u => u.1.postorder)
    (g := postorder) fun _ _ => rfl
  rwa [List.unattach_attach] at hbelow

end Outline

namespace Anatomy

variable {T : Anatomy ν α} {keys : Keys} {v : Visitor α σ}

/-- A walk with a visitor that always goes on tells of an outline what is picked from the calls for
its value, with what is told of the outlines below in between. -/
theorem tells_course {pick : Call α → Option β} {f : Option α → Outline α → List β}
    (hnode : ∀ parent a below, f parent (.node a below)
      = (pick (.enter a parent .continue)).toList ++ below.flatMap (f (some a))
        ++ (pick (.leave a parent)).toList)
    (hv : v.AlwaysContinues) (n : ν) (parent : Option α) (s : σ) :
  Course.Tells pick (T.course keys v n parent s) (f parent (T.outline keys n))
  := by
  induction n using T.inductionOnParts keys generalizing parent s with
  | step n ih =>
      have hbelow (s : σ) : Course.Tells pick
          (Course.inTurn (fun m => T.course keys v m.1 (some (T.value n)))
            (T.parts keys n).attach s)
          ((T.parts keys n).attach.flatMap fun m =>
            f (some (T.value n)) (T.outline keys m.1)) :=
        Course.tells_inTurn (fun m _ s => ih m.1 m.2 (some (T.value n)) s) s
      rw [course, outline, hnode, List.flatMap_map]
      apply Course.tells_within hv (T.value n) parent hbelow s

/-- It enters all nodes of the outline, each below the node that stands above it there. -/
theorem tells_entered (hv : v.AlwaysContinues) (n : ν) (parent : Option α) (s : σ) :
  Course.Tells Call.entered? (T.course keys v n parent s) ((T.outline keys n).withParents parent)
  := by
  apply tells_course (f := fun parent t => t.withParents parent) ?_ hv
  intro parent a below
  simp [Call.entered?, Outline.withParents, Outline.withParentsAll_eq_flatMap]

/-- It leaves all of them, each after those below it. -/
theorem tells_left (hv : v.AlwaysContinues) (n : ν) (parent : Option α) (s : σ) :
  Course.Tells Call.left? (T.course keys v n parent s) (T.outline keys n).postorder
  := by
  apply tells_course (f := fun _ t => t.postorder) ?_ hv
  intro parent a below
  simp [Call.left?, Outline.postorder_node]

end Anatomy

namespace Script

/-! ### What a kind of node holds -/

deriving instance Functor for Kind

deriving instance Traversable for Kind

namespace Kind

/-- Writes down a part. -/
def meet (n : ν) : StateM (List ν) Unit := modify (· ++ [n])

/-- The parts that a kind of node holds, in the order in which they are met when the fields of its
constructor are gone through. -/
def held (k : Kind ν) : List ν := ((k.traverse meet).run []).2

section Meeting

variable {μ ρ : Type} (l : List ν)

theorem run_meet (n : ν) :
  ((meet n).run l).2 = l ++ [n]
  := rfl

theorem run_pure (x : μ) :
  ((pure x : StateM (List ν) μ).run l).2 = l
  := rfl

theorem run_seq (f : StateM (List ν) (μ → ρ)) (p : StateM (List ν) μ) :
  ((f <*> p).run l).2 = (p.run (f.run l).2).2
  := rfl

theorem run_traverse_list (nodes : List ν) :
  ((List.traverse meet nodes).run l).2 = l ++ nodes
  := by
  induction nodes generalizing l with
  | nil => exact (List.append_nil l).symm
  | cons n rest ih =>
      have hrest := ih (l ++ [n])
      rw [List.append_assoc] at hrest
      exact hrest

theorem run_traverse_option (o : Option ν) :
  ((Option.traverse meet o).run l).2 = l ++ [o].filterMap id
  := by
  cases o with
  | none => exact (List.append_nil l).symm
  | some n => rfl

theorem run_traverse_gaps (nodes : List (Option ν)) :
  ((List.traverse (Option.traverse meet) nodes).run l).2 = l ++ nodes.filterMap id
  := by
  induction nodes generalizing l with
  | nil => exact (List.append_nil l).symm
  | cons o rest ih =>
      have hrest := ih (l ++ [o].filterMap id)
      rw [List.append_assoc] at hrest
      cases o with
      | none => exact ih l
      | some n => exact hrest

end Meeting

/-- What a kind holds stands in its fields. -/
theorem held_eq_parts (k : Kind Node) :
  k.held = k.parts
  := by
  unfold held parts
  cases k <;>
    simp only [Kind.traverse, Traversable.traverse, run_seq, run_pure, run_meet, run_traverse_list,
      run_traverse_option, run_traverse_gaps] <;>
    simp

/-- The fields that the table names for the type of a kind hold all that the kind holds. -/
theorem held_eq_fields (k : Kind Node) :
  k.held = (visitorKeys.fieldsOf k.typeName).flatMap k.field
  := by
  have hparts := Node.parts_eq (.mk 0 default k)
  rw [Node.parts_of_kind rfl] at hparts
  rw [held_eq_parts]
  exact hparts.symm

end Kind

/-! ### What a tree contains -/

namespace Node

theorem sizeOf_lt_of_mem_held {n m : Node} (h : m ∈ n.kind.held) :
  sizeOf m < sizeOf n
  := by
  rw [Kind.held_eq_parts, ← parts_eq] at h
  exact sizeOf_lt_of_mem_parts h

/-- The nodes that a tree contains, each with the node that holds it, from the top down and in the
order in which they are held. -/
def contained (parent : Option Node) (n : Node) : List (Node × Option Node) :=
  (n, parent) :: n.kind.held.attach.flatMap fun m => contained (some n) m.1
  termination_by n
  decreasing_by exact sizeOf_lt_of_mem_held m.2

theorem contained_eq (parent : Option Node) (n : Node) :
  n.contained parent = (n, parent) :: n.kind.held.flatMap (contained (some n))
  := by
  rw [contained]
  congr 1
  have hheld := List.flatMap_subtype (l := n.kind.held.attach)
    (f := fun m => contained (some n) m.1) (g := contained (some n)) fun _ _ => rfl
  rwa [List.unattach_attach] at hheld

theorem parts_anatomy (n : Node) :
  anatomy.parts visitorKeys n = n.parts
  := rfl

/-- The outline of a tree shows what the tree contains. -/
theorem withParents_outline (n : Node) (parent : Option Node) :
  (n.outline visitorKeys).withParents parent = n.contained parent
  := by
  induction n using inductionOnParts generalizing parent with
  | step n ih =>
      have hparts : n.kind.held = n.parts := by rw [Kind.held_eq_parts, parts_eq]
      rw [outline_eq, Anatomy.outline_eq, parts_anatomy, Outline.withParents,
        Outline.withParentsAll_eq_flatMap, List.flatMap_map, contained_eq, hparts]
      congr 1
      apply List.flatMap_congr
      intro m hm
      rw [← outline_eq]
      apply ih m hm

/-- A walk with a visitor that always goes on comes to its end and enters exactly the nodes that
the tree contains, each as often as it is contained and below the node that holds it.  For every
kind of node the fields that are named in the table of keys hold all that the kind holds. -/
theorem enters_contained {σ : Type} {v : Visitor Node σ} (hv : v.AlwaysContinues) (tree : Node)
    (s : σ) :
  let walk := (tree.outline visitorKeys).walk v.recording ([], s)
  walk.1 = true
    ∧ walk.2.1.filterMap Call.entered? = tree.contained none
    ∧ ∀ k : Kind Node, k.held = (visitorKeys.fieldsOf k.typeName).flatMap k.field
  := by
  dsimp only
  have htells : Course.Tells Call.entered? (anatomy.course visitorKeys v tree none s)
      ((anatomy.outline visitorKeys tree).withParents none) :=
    Anatomy.tells_entered hv tree none s
  have hwalk := (Anatomy.walk_eq_course anatomy visitorKeys v tree s).2.1
  rw [← outline_eq] at htells hwalk
  rw [hwalk]
  refine ⟨htells.isCompleted, ?_, Kind.held_eq_fields⟩
  rw [htells.picked, withParents_outline]

/-- A statement with an array that has a gap, and a loop without a head. -/
def gappedTree : Node :=
  let name (id : Nat) : Node := .mk id default (.identifier [])
  let array : Node := .mk 2 default (.arrayExpression [some (name 0), none, some (name 1)])
  let statement : Node := .mk 3 default (.expressionStatement array false)
  let block : Node := .mk 4 default (.blockStatement [])
  let loop : Node := .mk 5 default (.forStatement none none none block)
  .mk 6 default (.program [statement, loop])

/-- The visitor that counts the nodes. -/
def counter : Visitor Node Nat where
  enter _ _ n := (.continue, n + 1)
  leave _ _ n := n

theorem enters_contained_gappedTree :
  counter.AlwaysContinues
    ∧ ((gappedTree.outline visitorKeys).walk counter.recording ([], 0)).1 = true
    ∧ (((gappedTree.outline visitorKeys).walk counter.recording ([], 0)).2.1.filterMap
        Call.entered?).map (fun x => (x.1.id, x.2.map id))
      = [(6, none), (3, some 6), (2, some 3), (0, some 2), (1, some 2), (5, some 6), (4, some 5)]
  := by
  have hcounter : counter.AlwaysContinues := fun _ _ _ => rfl
  obtain ⟨hdone, henters, -⟩ := enters_contained hcounter gappedTree 0
  refine ⟨hcounter, hdone, ?_⟩
  rw [henters]
  simp [gappedTree, contained_eq, Kind.held_eq_parts, Kind.parts, kind, id]

end Node

end Script

end Stencil
