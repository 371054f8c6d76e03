import Mathlib.Data.List.ReduceOption
import Stencil.Markup.Tree
import Stencil.Script.Tree

/-!
# The course of a walk

A walk takes the steps on a stack, but what happens on it can be told by recursion on the tree: the
visitor enters a node, then the parts of the node are visited one after the other if the visitor
says so, and then it leaves the node; as soon as it says so, everything stops.  The anatomy of a
type of trees tells what the parts of a node are.  Whatever the anatomy, the table of keys and the
visitor, a walk makes the calls of its course.
-/

namespace Stencil

variable {α β σ τ ν : Type}

/-! ### What happens on a walk -/

/-- A call of a visitor, with what the visitor is told and what it decides. -/
inductive Call (α : Type) where
  | enter (a : α) (parent : Option α) (answer : Action)
  | leave (a : α) (parent : Option α)

/-- The visitor stops the walk. -/
def Call.IsStop (c : Call α) : Prop := ∃ a parent, c = .enter a parent .stop

/-- The visitor that also writes down its calls. -/
def Visitor.recording (v : Visitor α σ) : Visitor α (List (Call α) × σ) where
  enter a parent s :=
    let (answer, own) := v.enter a parent s.2
    (answer, s.1 ++ [.enter a parent answer], own)
  leave a parent s := (s.1 ++ [.leave a parent], v.leave a parent s.2)

/-- What happens on a walk or a part of it: the calls of the visitor, whether the end was reached,
and the state of the visitor after it. -/
structure Course (α σ : Type) where
  calls : List (Call α)
  isCompleted : Bool
  state : σ

namespace Course

/-- Nothing happens. -/
def idle (s : σ) : Course α σ := ⟨[], true, s⟩

/-- What happens next follows, unless the walk was stopped. -/
def andThen (c : Course α σ) (next : σ → Course α σ) : Course α σ :=
  if c.isCompleted then
    let d := next c.state
    ⟨c.calls ++ d.calls, d.isCompleted, d.state⟩
  else c

/-- What happens for the entries of a list, one after the other. -/
def inTurn (course : β → σ → Course α σ) : List β → σ → Course α σ
  | [], s => idle s
  | b :: rest, s => (course b s).andThen (inTurn course rest)

/-- The visitor leaves a node. -/
def leave (v : Visitor α σ) (a : α) (parent : Option α) (s : σ) : Course α σ :=
  ⟨[.leave a parent], true, v.leave a parent s⟩

/-- The visitor enters a node, something happens in the node if the visitor goes on, and it leaves
the node. -/
def within (v : Visitor α σ) (a : α) (parent : Option α) (inside : σ → Course α σ) (s : σ) :
    Course α σ :=
  let (answer, s) := v.enter a parent s
  let entered : Course α σ := ⟨[.enter a parent answer], answer != .stop, s⟩
  (entered.andThen (if answer = .continue then inside else idle)).andThen (leave v a parent)

/-! ### The end is reached unless the visitor stops -/

/-- The end was reached exactly if the visitor did not stop the walk. -/
def IsHonest (c : Course α σ) : Prop := c.isCompleted = true ↔ ∀ call ∈ c.calls, ¬call.IsStop

theorem isHonest_idle (s : σ) :
  (idle s : Course α σ).IsHonest
  := by simp [IsHonest, idle]

theorem isHonest_leave (v : Visitor α σ) (a : α) (parent : Option α) (s : σ) :
  (leave v a parent s).IsHonest
  := by simp [IsHonest, leave, Call.IsStop]

theorem IsHonest.andThen {c : Course α σ} {next : σ → Course α σ} (hc : c.IsHonest)
    (hnext : ∀ s, (next s).IsHonest) :
  (c.andThen next).IsHonest
  := by
  rw [Course.andThen]
  split
  · next hcompleted =>
      have hfirst := hc.mp hcompleted
      have hsecond := hnext c.state
      rw [IsHonest] at hsecond ⊢
      rw [hsecond, List.forall_mem_append]
      exact ⟨fun h => ⟨hfirst, h⟩, And.right⟩
  · exact hc

theorem isHonest_inTurn {course : β → σ → Course α σ} {l : List β}
    (h : ∀ b ∈ l, ∀ s, (course b s).IsHonest) (s : σ) :
  (inTurn course l s).IsHonest
  := by
  induction l generalizing s with
  | nil => exact isHonest_idle s
  | cons b rest ih =>
      rw [List.forall_mem_cons] at h
      exact (h.1 s).andThen (ih h.2)

theorem isHonest_within (v : Visitor α σ) (a : α) (parent : Option α) {inside : σ → Course α σ}
    (h : ∀ s, (inside s).IsHonest) (s : σ) :
  (within v a parent inside s).IsHonest
  := by
  unfold within
  obtain ⟨answer, s'⟩ := v.enter a parent s
  refine IsHonest.andThen (IsHonest.andThen ?_ ?_) (isHonest_leave v a parent)
  · simp [IsHonest, Call.IsStop]
  · split
    · exact h
    · exact isHonest_idle

/-! ### The course of a recording visitor -/

/-- The course of a visitor that also writes down its calls after those in a list. -/
def recorded (c : Course α σ) (before : List (Call α)) : Course α (List (Call α) × σ) :=
  ⟨c.calls, c.isCompleted, before ++ c.calls, c.state⟩

theorem recorded_idle (s : σ) (before : List (Call α)) :
  (idle s).recorded before = idle (before, s)
  := by simp [recorded, idle]

theorem recorded_leave (v : Visitor α σ) (a : α) (parent : Option α) (s : σ)
    (before : List (Call α)) :
  (leave v a parent s).recorded before = leave v.recording a parent (before, s)
  := rfl

theorem recorded_andThen {c : Course α σ} {next : σ → Course α σ}
    {next' : List (Call α) × σ → Course α (List (Call α) × σ)} (before : List (Call α))
    (h : ∀ s before, (next s).recorded before = next' (before, s)) :
  (c.andThen next).recorded before = (c.recorded before).andThen next'
  := by
  unfold andThen
  by_cases hcompleted : c.isCompleted = true
  · have hnext := h c.state (before ++ c.calls)
    simp [recorded, hcompleted, ← hnext]
  · simp [recorded, hcompleted]

theorem recorded_inTurn {course : β → σ → Course α σ}
    {course' : β → List (Call α) × σ → Course α (List (Call α) × σ)} {l : List β}
    (h : ∀ b ∈ l, ∀ s before, (course b s).recorded before = course' b (before, s)) (s : σ)
    (before : List (Call α)) :
  (inTurn course l s).recorded before = inTurn course' l (before, s)
  := by
  induction l generalizing s before with
  | nil => exact recorded_idle s before
  | cons b rest ih =>
      rw [List.forall_mem_cons] at h
      rw [inTurn, inTurn, ← h.1 s before]
      apply recorded_andThen
      exact ih h.2

theorem recorded_within (v : Visitor α σ) (a : α) (parent : Option α)
    {inside : σ → Course α σ} {inside' : List (Call α) × σ → Course α (List (Call α) × σ)}
    (h : ∀ s before, (inside s).recorded before = inside' (before, s)) (s : σ)
    (before : List (Call α)) :
  (within v a parent inside s).recorded before = within v.recording a parent inside' (before, s)
  := by
  unfold within
  rcases hanswer : v.enter a parent s with ⟨answer, s'⟩
  simp only [Visitor.recording, hanswer]
  rw [recorded_andThen before (recorded_leave v a parent)]
  congr 1
  apply recorded_andThen
  intro s before
  split
  · exact h s before
  · exact recorded_idle s before

end Course

/-! ### Walks through outlines -/

namespace Outline

open Course

variable {v : Visitor α σ}

/-- What the steps on a stack do after a course. -/
def runAfter (v : Visitor α σ) (c : Course α σ) (rest : List (Step α)) : Bool × σ :=
  if c.isCompleted then run v rest c.state else (false, c.state)

theorem runAfter_andThen (c : Course α σ) (next : σ → Course α σ) (rest : List (Step α)) :
  runAfter v (c.andThen next) rest
    = if c.isCompleted then runAfter v (next c.state) rest else (false, c.state)
  := by
  unfold andThen runAfter
  by_cases hcompleted : c.isCompleted = true
  · simp [hcompleted]
  · simp [hcompleted]

/-- The steps that enter outlines make their courses in turn. -/
theorem run_enterAll {outline : β → Outline α} {parent : Option α} {course : β → σ → Course α σ}
    {l : List β} (h : ∀ b ∈ l, ∀ rest s,
      run v (.enter (outline b) parent :: rest) s = runAfter v (course b s) rest)
    (rest : List (Step α)) (s : σ) :
  run v (enterAll parent (l.map outline) ++ rest) s = runAfter v (inTurn course l s) rest
  := by
  induction l generalizing s with
  | nil => simp [enterAll, inTurn, idle, runAfter]
  | cons b l ih =>
      rw [List.forall_mem_cons] at h
      rw [List.map_cons, enterAll, List.cons_append, h.1, inTurn, runAfter_andThen, runAfter]
      simp only [ih h.2]

/-- The step that enters an outline makes a course, if the steps for what is below do. -/
theorem run_enter {a : α} {below : List (Outline α)} {inside : σ → Course α σ}
    (h : ∀ rest s, run v (enterAll (some a) below ++ rest) s = runAfter v (inside s) rest)
    (parent : Option α) (rest : List (Step α)) (s : σ) :
  run v (.enter (.node a below) parent :: rest) s = runAfter v (within v a parent inside s) rest
  := by
  rw [run]
  unfold within
  obtain ⟨answer, s'⟩ := v.enter a parent s
  cases answer with
  | «continue» =>
      simp only [h, runAfter_andThen, ↓reduceIte]
      simp [runAfter, andThen, leave, run]
  | skip => simp [runAfter, andThen, idle, leave, run]
  | stop => simp [runAfter, andThen]

/-- A visitor whose states are those of another one without something that does not matter goes the
same way. -/
theorem run_eq_of_map {w : Visitor α τ} (f : σ → τ)
    (henter : ∀ a parent s,
      w.enter a parent (f s) = ((v.enter a parent s).1, f (v.enter a parent s).2))
    (hleave : ∀ a parent s, w.leave a parent (f s) = f (v.leave a parent s))
    (steps : List (Step α)) (s : σ) :
  run w steps (f s) = ((run v steps s).1, f (run v steps s).2)
  := by
  fun_induction run v steps s with
  | case1 s => rw [run]
  | case2 s a parent rest ih => rw [run, hleave, ih]
  | case3 s a below parent rest s' h =>
      have hw := henter a parent s
      rw [run, hw, h]
  | case4 s a below parent rest s' h ih =>
      have hw := henter a parent s
      rw [h] at hw
      rw [run.eq_3, hw]
      exact ih
  | case5 s a below parent rest s' h ih =>
      have hw := henter a parent s
      rw [run, hw, h]
      exact ih

end Outline

/-! ### Trees with fields -/

/-- How the nodes of a type of trees are taken apart: what a visitor is shown of a node, the name of
its type, and the nodes in each of its fields, which may have gaps.  No tree has an infinite
branch. -/
structure Anatomy (ν α : Type) where
  value : ν → α
  typeName : ν → String
  field : ν → String → List (Option ν)
  isWellFounded : WellFounded fun m n => ∃ key, some m ∈ field n key

namespace Anatomy

variable (T : Anatomy ν α) (keys : Keys)

/-- The parts of a node: the nodes in the fields that are visited, in the order of the table and
from left to right. -/
def parts (n : ν) : List ν :=
  (keys.fieldsOf (T.typeName n)).flatMap fun key => (T.field n key).reduceOption

theorem exists_mem_field_of_mem_parts {T : Anatomy ν α} {keys : Keys} {n m : ν}
    (h : m ∈ T.parts keys n) :
  ∃ key, some m ∈ T.field n key
  := by
  obtain ⟨key, -, hm⟩ := List.mem_flatMap.mp h
  exact ⟨key, List.reduceOption_mem_iff.mp hm⟩

/-- The outline of a tree. -/
def outline (n : ν) : Outline α :=
  .node (T.value n) ((T.parts keys n).attach.map fun m => outline m.1)
  termination_by T.isWellFounded.wrap n
  decreasing_by exact exists_mem_field_of_mem_parts m.2

/-- The course of a walk through a tree, by recursion on the tree. -/
def course (v : Visitor α σ) (n : ν) (parent : Option α) : σ → Course α σ :=
  Course.within v (T.value n) parent <|
    Course.inTurn (fun m => course v m.1 (some (T.value n))) (T.parts keys n).attach
  termination_by T.isWellFounded.wrap n
  decreasing_by exact exists_mem_field_of_mem_parts m.2

/-- What passes from the parts of a node to the node holds of every node. -/
theorem inductionOnParts {motive : ν → Prop}
    (step : ∀ n, (∀ m ∈ T.parts keys n, motive m) → motive n) (n : ν) :
  motive n
  := T.isWellFounded.induction n fun n ih =>
    step n fun m hm => ih m (exists_mem_field_of_mem_parts hm)

variable {T keys}

theorem outline_eq (n : ν) :
  T.outline keys n = .node (T.value n) ((T.parts keys n).map (T.outline keys))
  := by rw [outline, List.attach_map_val]

theorem isHonest_course (v : Visitor α σ) (n : ν) (parent : Option α) (s : σ) :
  (T.course keys v n parent s).IsHonest
  := by
  induction n using T.inductionOnParts keys generalizing parent s with
  | step n ih =>
      rw [course]
      apply Course.isHonest_within
      apply Course.isHonest_inTurn
      exact fun m _ s => ih m.1 m.2 _ s

theorem recorded_course (v : Visitor α σ) (n : ν) (parent : Option α) (s : σ)
    (before : List (Call α)) :
  (T.course keys v n parent s).recorded before = T.course keys v.recording n parent (before, s)
  := by
  induction n using T.inductionOnParts keys generalizing parent s before with
  | step n ih =>
      rw [course, course]
      apply Course.recorded_within
      apply Course.recorded_inTurn
      exact fun m _ s before => ih m.1 m.2 _ s before

/-- The step that enters the outline of a tree makes the course of a walk through the tree. -/
theorem run_enter_outline (v : Visitor α σ) (n : ν) (parent : Option α)
    (rest : List (Outline.Step α)) (s : σ) :
  Outline.run v (.enter (T.outline keys n) parent :: rest) s
    = Outline.runAfter v (T.course keys v n parent s) rest
  := by
  induction n using T.inductionOnParts keys generalizing parent rest s with
  | step n ih =>
      rw [outline, course]
      apply Outline.run_enter
      apply Outline.run_enterAll
      exact fun m _ rest s => ih m.1 m.2 _ rest s

theorem walk_outline (v : Visitor α σ) (n : ν) (s : σ) :
  (T.outline keys n).walk v s
    = ((T.course keys v n none s).isCompleted, (T.course keys v n none s).state)
  := by
  rw [Outline.walk, run_enter_outline, Outline.runAfter, Outline.run]
  split
  · next h => rw [h]
  · next h => rw [Bool.eq_false_iff.mpr h]

/-- A walk through a tree, which keeps the steps that are still to be taken on a stack, has the
course that is told by recursion on the tree: it makes the same calls in the same order, leaves the
visitor in the same state, and says in the same cases that it was completed, which is if and only
if the visitor never stopped it. -/
theorem walk_eq_course (T : Anatomy ν α) (keys : Keys) (v : Visitor α σ) (n : ν) (s : σ) :
  let course := T.course keys v n none s
  (T.outline keys n).walk v s = (course.isCompleted, course.state)
    ∧ (T.outline keys n).walk v.recording ([], s)
      = (course.isCompleted, course.calls, course.state)
    ∧ (course.isCompleted = true ↔ ∀ call ∈ course.calls, ¬call.IsStop)
  := by
  refine ⟨walk_outline v n s, ?_, isHonest_course v n none s⟩
  rw [walk_outline, ← recorded_course]
  rfl

end Anatomy

/-! ### The trees of scripts -/

namespace Script

/-- The anatomy of syntax trees. -/
def Node.anatomy : Anatomy Node Node where
  value n := n
  typeName := typeName
  field n key := (n.kind.fields.lookup key).getD []
  isWellFounded := by
    refine Subrelation.wf (fun {m n} h => ?_) (measure (sizeOf : Node → Nat)).wf
    obtain ⟨key, hm⟩ := h
    exact sizeOf_lt_of_mem_field (List.reduceOption_mem_iff.mpr hm)

/-- The outline of a syntax tree is that of its anatomy. -/
theorem Node.outline_eq (keys : Keys) (n : Node) :
  n.outline keys = anatomy.outline keys n
  := by
  induction n using anatomy.inductionOnParts keys with
  | step n ih =>
      have hparts : n.outline keys = .node n ((anatomy.parts keys n).map (outline keys)) := by
        rw [outline, Anatomy.parts, List.map_flatMap]
        simp only [List.attach_map_val]
        rfl
      rw [hparts, Anatomy.outline_eq, List.map_congr_left ih]
      rfl

end Script

/-! ### The trees of markup -/

namespace Markup

/-- A part of a markup document that a walk visits. -/
inductive Part where
  | document (d : Document)
  | node (n : Node)
  | attr (a : Attribute)

namespace Part

/-- The item that a walk shows of a part. -/
def item : Part → Item
  | document d => ⟨.document, ⟨0, d.width⟩⟩
  | node (.element span name _ attributes _ _) => ⟨.element name attributes, span⟩
  | node (.text span) => ⟨.text, span⟩
  | node (.comment span) => ⟨.comment, span⟩
  | node (.doctype span) => ⟨.doctype, span⟩
  | attr a => ⟨.attr, a.span⟩

/-- The parts in a field. -/
def field : Part → String → List Part
  | document d, "children" => d.children.map node
  | node (.element _ _ _ attributes _ _), "attributes" => attributes.map attr
  | node (.element _ _ _ _ children _), "children" => children.map node
  | _, _ => []

/-- A number that is larger for a part than for the parts in it. -/
noncomputable def size : Part → Nat
  | document d => sizeOf d.children + 1
  | node n => sizeOf n
  | attr _ => 0

theorem size_lt_of_mem_field {p q : Part} {key : String} (h : q ∈ p.field key) :
  q.size < p.size
  := by
  unfold field at h
  split at h
  · obtain ⟨n, hn, rfl⟩ := List.mem_map.mp h
    have := List.sizeOf_lt_of_mem hn
    simp only [size]
    omega
  · obtain ⟨a, ha, rfl⟩ := List.mem_map.mp h
    simp only [size, Node.element.sizeOf_spec]
    omega
  · obtain ⟨n, hn, rfl⟩ := List.mem_map.mp h
    have := List.sizeOf_lt_of_mem hn
    simp only [size, Node.element.sizeOf_spec]
    omega
  · cases h

/-- The anatomy of markup documents.  There are no gaps. -/
def anatomy : Anatomy Part Item where
  value := item
  typeName p := p.item.typeName
  field p key := (p.field key).map some
  isWellFounded := by
    refine Subrelation.wf (fun {q p} h => ?_) (measure size).wf
    obtain ⟨key, hq⟩ := h
    exact size_lt_of_mem_field (by simpa using hq)

theorem parts_eq (keys : Keys) (p : Part) :
  anatomy.parts keys p = (keys.fieldsOf p.item.typeName).flatMap p.field
  := by simp [Anatomy.parts, anatomy, List.reduceOption]

/-- The outline of the document, the node or the attribute. -/
def outline (keys : Keys) : Part → Outline Item
  | document d => d.outline keys
  | node n => n.outline keys
  | attr a => a.outline

theorem outlineAll_eq (keys : Keys) (nodes : List Node) :
  outlineAll keys nodes = nodes.map (Node.outline keys)
  := by
  induction nodes with
  | nil => rfl
  | cons n rest ih => rw [outlineAll, ih, List.map_cons]

theorem outlinesOf_field (keys : Keys) (p : Part) (names : List String) :
  outlinesOf names ((p.field "attributes").map (outline keys))
      ((p.field "children").map (outline keys))
    = names.flatMap fun name => (p.field name).map (outline keys)
  := by
  rw [outlinesOf]
  congr 1
  funext name
  simp only [beq_iff_eq]
  split
  · next h => rw [h]
  · split
    · next h => rw [h]
    · unfold field
      split <;> simp_all

/-- The outlines below a part are those of the parts in its fields. -/
theorem outline_eq_node (keys : Keys) (p : Part) :
  p.outline keys
    = .node p.item ((keys.fieldsOf p.item.typeName).flatMap fun name =>
        (p.field name).map (outline keys))
  := by
  rw [← outlinesOf_field]
  have hempty (names : List String) : outlinesOf names [] [] = [] := by simp [outlinesOf]
  cases p with
  | document d =>
      rw [outline, Document.outline, outlineAll_eq]
      simp only [field, item, Item.typeName, ItemKind.typeName, List.map_map]
      rfl
  | node n =>
      cases n with
      | element span name startTag attributes children endTag =>
          rw [outline, Node.outline, outlineAll_eq]
          simp only [field, item, Item.typeName, ItemKind.typeName, List.map_map]
          rfl
      | text span => simp [field, outline, Node.outline, item, hempty]
      | comment span => simp [field, outline, Node.outline, item, hempty]
      | doctype span => simp [field, outline, Node.outline, item, hempty]
  | attr a => simp [field, outline, Attribute.outline, item, hempty]

end Part

/-- The outline of a document is that of its anatomy. -/
theorem Document.outline_eq (keys : Keys) (d : Document) :
  d.outline keys = Part.anatomy.outline keys (.document d)
  := by
  suffices h : ∀ p : Part, p.outline keys = Part.anatomy.outline keys p from h (.document d)
  intro p
  induction p using Part.anatomy.inductionOnParts keys with
  | step p ih =>
      rw [Anatomy.outline_eq, ← List.map_congr_left ih, Part.parts_eq, List.map_flatMap]
      exact Part.outline_eq_node keys p

end Markup

end Stencil
