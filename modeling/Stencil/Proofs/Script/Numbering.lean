import Mathlib.Data.List.Perm.Basic
import Stencil.Proofs.Script.Traversal
import Stencil.Script.Program

/-!
# Lowered trees

Lowering leaves a tree as it is, but for the numbers of its nodes, and these count up in the order
in which a walk leaves the nodes.  Lowering goes through the parts of a node construct by construct,
and the walk through the fields that the table names, so it has to be shown for each construct that
the two orders are the same.

Nothing of this depends on where the tree stands or on the number with which lowering begins, as
long as there are numbers left.  So wherever a tree can be lowered, it can be lowered as well when
it is moved, from any other number on that is not too high.
-/

namespace Stencil.Script

namespace Node

/-- The nodes of a tree in the order in which a walk leaves them. -/
def postorder (n : Node) : List Node := (n.outline visitorKeys).postorder

theorem postorder_eq (n : Node) :
  n.postorder = n.parts.flatMap postorder ++ [n]
  := by
  rw [postorder, outline_eq, Anatomy.outline_eq, parts_anatomy, Outline.postorder_node,
    List.flatMap_map]
  simp only [← outline_eq]
  rfl

/-- A walk leaves the nodes that it enters. -/
theorem postorder_perm_preorder (n : Node) :
  n.postorder.Perm n.preorder
  := by
  induction n using inductionOnParts with
  | step n ih =>
      rw [postorder_eq, preorder_eq]
      apply List.perm_append_comm.trans
      rw [List.singleton_append]
      exact (List.Perm.flatMap_left n.parts ih).cons n

/-- What holds of any two nodes of a tree one of which is left before the other holds of any two
such nodes of each tree in it. -/
theorem pairwise_postorder {R : Node → Node → Prop} {tree n : Node}
    (h : tree.postorder.Pairwise R) (hn : n ∈ tree.preorder) :
  n.postorder.Pairwise R
  := by
  induction tree using inductionOnParts with
  | step tree ih =>
      rw [preorder_eq, List.mem_cons, List.mem_flatMap] at hn
      rcases hn with rfl | ⟨m, hm, hn⟩
      · exact h
      · rw [postorder_eq, List.pairwise_append, List.pairwise_flatMap] at h
        exact ih m hm (h.1.1 m hm) hn

end Node

/-! ### Counting up -/

/-- The numbers of the nodes of some trees, in the order in which the nodes are left, count up from
`low` to the number before `high`. -/
structure CountsUp (trees : List Node) (low high : Nat) : Prop where
  le : low ≤ high
  ids : (trees.flatMap Node.postorder).map Node.id = List.range' low (high - low)

namespace CountsUp

theorem nil (low : Nat) :
  CountsUp [] low low
  := ⟨Nat.le_refl low, by simp⟩

theorem append {trees trees' : List Node} {low middle high : Nat} (h : CountsUp trees low middle)
    (h' : CountsUp trees' middle high) :
  CountsUp (trees ++ trees') low high
  := by
  have hle := h.le
  have hle' := h'.le
  constructor
  · omega
  · have hmiddle : middle = low + 1 * (middle - low) := by omega
    have hlength : high - low = middle - low + (high - middle) := by omega
    rw [List.flatMap_append, List.map_append, h.ids, h'.ids, hlength, ← List.range'_append,
      ← hmiddle]

/-- A node that is numbered after its parts. -/
theorem node {span : Span} {low high : Nat} {kind : Kind Node} (h : CountsUp kind.parts low high) :
  CountsUp [.mk high span kind] low (high + 1)
  := by
  have hle := h.le
  constructor
  · omega
  · have hlast : low + (high - low) = high := by omega
    rw [List.flatMap_singleton, Node.postorder_eq, Node.parts_eq, List.map_append]
    change (kind.parts.flatMap Node.postorder).map Node.id ++ [high] = _
    rw [h.ids, Nat.succ_sub hle, List.range'_1_concat, hlast]

end CountsUp

/-! ### Computations that lower something -/

/-- What trees are made of. -/
class HasTrees (α : Type) where
  trees : α → List Node
  moved : (Span → Span) → α → α

namespace HasTrees

instance : HasTrees Node := ⟨fun n => [n], Node.moved⟩

instance : HasTrees (List Node) := ⟨fun nodes => nodes, fun f => List.map (Node.moved f)⟩

instance : HasTrees (Option Node) :=
  ⟨fun n => [n].filterMap fun m => m, fun f => Option.map (Node.moved f)⟩

instance : HasTrees (List (Option Node)) :=
  ⟨List.filterMap fun n => n, fun f => List.map (Option.map (Node.moved f))⟩

variable (f : Span → Span)

@[simp] theorem trees_node (n : Node) : trees n = [n] := rfl

@[simp] theorem trees_list (nodes : List Node) : trees nodes = nodes := rfl

@[simp] theorem trees_option (n : Option Node) : trees n = [n].filterMap fun m => m := rfl

@[simp] theorem trees_gaps (nodes : List (Option Node)) :
  trees nodes = nodes.filterMap fun n => n
  := rfl

@[simp] theorem moved_node (n : Node) : moved f n = n.moved f := rfl

@[simp] theorem moved_list (nodes : List Node) : moved f nodes = nodes.map (Node.moved f) := rfl

@[simp] theorem moved_option (n : Option Node) : moved f n = n.map (Node.moved f) := rfl

@[simp] theorem moved_gaps (nodes : List (Option Node)) :
  moved f nodes = nodes.map (Option.map (Node.moved f))
  := rfl

end HasTrees

/-- The fault is one of trees and not of texts. -/
def Fault.isOfTree : Fault → Bool
  | nesting _ => true
  | overflow => true
  | other => true
  | _ => false

namespace Lower

variable {α β : Type}

theorem bind_eq_error {p : Lower α} {k : α → Lower β} {s : Lowering} {e : Fault}
    (h : (p >>= k) s = .error e) :
  p s = .error e ∨ ∃ a t, p s = .ok (a, t) ∧ k a t = .error e
  := by
  change (p s >>= fun x => k x.1 x.2) = _ at h
  cases hp : p s with
  | error e' =>
      rw [hp] at h
      cases h
      exact .inl rfl
  | ok x =>
      rw [hp] at h
      exact .inr ⟨x.1, x.2, rfl, h⟩

theorem bind_eq_ok {p : Lower α} {k : α → Lower β} {s s' : Lowering} {b : β}
    (h : (p >>= k) s = .ok (b, s')) :
  ∃ a t, p s = .ok (a, t) ∧ k a t = .ok (b, s')
  := by
  cases hp : p s with
  | error e =>
      change (p s >>= fun x => k x.1 x.2) = _ at h
      rw [hp] at h
      cases h
  | ok x =>
      change (p s >>= fun x => k x.1 x.2) = _ at h
      rw [hp] at h
      exact ⟨x.1, x.2, rfl, h⟩

theorem bind_of_eq_ok {p : Lower α} {k : α → Lower β} {s t : Lowering} {a : α}
    (h : p s = .ok (a, t)) :
  (p >>= k) s = k a t
  := by
  change (p s >>= fun x => k x.1 x.2) = _
  rw [h]
  rfl

/-- From `s` to `s'` the depth stays and numbers are taken, and `q` takes as many from any other
number on from which there are as many left. -/
structure Advances (s s' : Lowering) (q : Lower β) : Prop where
  depth : s'.depth = s.depth
  le : s.nextId.toNat ≤ s'.nextId.toNat
  follows : ∀ t : Lowering, t.depth = s.depth → ∀ high,
    high + s.nextId.toNat = t.nextId.toNat + s'.nextId.toNat → high < UInt32.size →
      ∃ b t', q t = .ok (b, t') ∧ t'.depth = s.depth ∧ t'.nextId.toNat = high

theorem Advances.bind {q : Lower α} {k : α → Lower β} {s t s' : Lowering} (h : Advances s t q)
    (hk : ∀ a, Advances t s' (k a)) (a : α) :
  Advances s s' (q >>= k)
  := by
  have hle := h.le
  have hle' := (hk a).le
  refine ⟨(hk a).depth.trans h.depth, Nat.le_trans hle hle', ?_⟩
  intro u hu high hhigh hroom
  obtain ⟨c, u', hrun, hdepth, hnext⟩ :=
    h.follows u hu (u.nextId.toNat + t.nextId.toNat - s.nextId.toNat) (by omega) (by omega)
  rw [bind_of_eq_ok hrun, ← h.depth]
  exact (hk c).follows u' (hdepth.trans h.depth.symm) high (by omega) hroom

/-- The trees in `before` have been lowered and not yet become a part of anything.  If `p` makes
something of them, this differs from `b` in the numbers of its nodes at most, its nodes count up
from the first number of `before` on, and `q` makes something as well.  If `p` fails, it is for the
tree and not for the text. -/
structure Finishes [HasTrees β] (before : List Node) (p q : Lower β) (b : β) : Prop where
  moved : ∀ {s c s'}, p s = .ok (c, s') → HasTrees.moved id c = HasTrees.moved id b
  counts : ∀ {low s c s'}, CountsUp before low s.nextId.toNat → p s = .ok (c, s') →
    CountsUp (HasTrees.trees c) low s'.nextId.toNat
  advances : ∀ {s c s'}, p s = .ok (c, s') → Advances s s' q
  fails : ∀ {s e}, p s = .error e → e.isOfTree = true

/-- The computation `p` lowers `a`, and `q` lowers something as well whenever `p` does. -/
abbrev Lowers [HasTrees α] (p q : Lower α) (a : α) : Prop := Finishes [] p q a

namespace Finishes

variable [HasTrees α] [HasTrees β] {before between : List Node}

/-- Of two computations the second goes on with what it is given and with what the first makes. -/
theorem trans {p q : Lower α} {a : α} {k k' : α → Lower β} {b : β} (hp : Finishes between p q a)
    (hk : ∀ c c', HasTrees.moved id c = HasTrees.moved id a →
      Finishes (before ++ HasTrees.trees c) (k c) (k' c') b)
    (hbefore : before = [] ∨ between = []) :
  Finishes (before ++ between) (p >>= k) (q >>= k') b
  := by
  constructor
  · intro s d s' hrun
    obtain ⟨c, t, hc, hd⟩ := bind_eq_ok hrun
    exact (hk c c (hp.moved hc)).moved hd
  · intro low s d s' hcounts hrun
    obtain ⟨c, t, hc, hd⟩ := bind_eq_ok hrun
    apply (hk c c (hp.moved hc)).counts ?_ hd
    rcases hbefore with rfl | rfl
    · exact hp.counts hcounts hc
    · rw [List.append_nil] at hcounts
      exact hcounts.append (hp.counts (.nil _) hc)
  · intro s d s' hrun
    obtain ⟨c, t, hc, hd⟩ := bind_eq_ok hrun
    exact (hp.advances hc).bind (fun c' => (hk c c' (hp.moved hc)).advances hd) c
  · intro s e hrun
    rcases bind_eq_error hrun with hrun | ⟨c, t, hc, hrun⟩
    · exact hp.fails hrun
    · exact (hk c c (hp.moved hc)).fails hrun

/-- Something more is lowered, and then it goes on. -/
theorem bind {p q : Lower α} {a : α} {k k' : α → Lower β} {b : β} (hp : Lowers p q a)
    (hk : ∀ c c', HasTrees.moved id c = HasTrees.moved id a →
      Finishes (before ++ HasTrees.trees c) (k c) (k' c') b) :
  Finishes before (p >>= k) (q >>= k') b
  := by
  have h := hp.trans hk (.inr rfl)
  rwa [List.append_nil] at h

/-- Something is made of all that has been lowered, and then it goes on. -/
theorem andThen {p q : Lower α} {a : α} {k k' : α → Lower β} {b : β} (hp : Finishes before p q a)
    (hk : ∀ c c', HasTrees.moved id c = HasTrees.moved id a →
      Finishes (HasTrees.trees c) (k c) (k' c') b) :
  Finishes before (p >>= k) (q >>= k') b
  := by
  have h : Finishes ([] ++ before) (p >>= k) (q >>= k') b := hp.trans hk (.inl rfl)
  exact h

theorem pure {b c c' : β} (hmoved : HasTrees.moved id c = HasTrees.moved id b)
    (htrees : HasTrees.trees c = before) :
  Finishes before (Pure.pure c) (Pure.pure c') b
  := by
  constructor
  · rintro s d s' ⟨⟩
    exact hmoved
  · rintro low s d s' hcounts ⟨⟩
    rwa [htrees]
  · rintro s d s' ⟨⟩
    refine ⟨rfl, Nat.le_refl _, ?_⟩
    intro t ht high hhigh hroom
    exact ⟨c', t, rfl, ht, by omega⟩
  · rintro s e ⟨⟩

/-- What has been lowered becomes the parts of a node. -/
theorem node {i : Nat} {span span' : Span} {kind kind' kind'' : Kind Node}
    (hkind : kind'.moved id = kind.moved id) (hparts : kind'.parts = before) :
  Finishes before (Lower.node span kind') (Lower.node span' kind'') (.mk i span kind)
  := by
  have hnext {s : Lowering} (h : s.nextId.toNat + 1 < UInt32.size) :
      (s.nextId + 1).toNat = s.nextId.toNat + 1 := by
    rw [UInt32.toNat_add]
    exact Nat.mod_eq_of_lt h
  have hrun {s s' : Lowering} {c : Node} (h : Lower.node span kind' s = .ok (c, s')) :
      s.nextId.toNat + 1 < UInt32.size ∧ c = .mk s.nextId.toNat span kind'
        ∧ s' = { s with nextId := s.nextId + 1 } := by
    unfold Lower.node at h
    split at h
    · next hroom =>
        cases h
        exact ⟨hroom, rfl, rfl⟩
    · cases h
  constructor
  · intro s c s' h
    obtain ⟨-, rfl, -⟩ := hrun h
    rw [HasTrees.moved_node, HasTrees.moved_node, Node.moved, Node.moved, hkind]
  · intro low s c s' hcounts h
    obtain ⟨hroom, rfl, rfl⟩ := hrun h
    rw [HasTrees.trees_node, hnext hroom]
    apply CountsUp.node
    rwa [hparts]
  · intro s c s' h
    obtain ⟨hroom, -, rfl⟩ := hrun h
    refine ⟨rfl, ?_, ?_⟩
    · rw [hnext hroom]
      apply Nat.le_succ
    · intro t ht high hhigh hlast
      rw [hnext hroom] at hhigh
      have hroom' : t.nextId.toNat + 1 < UInt32.size := by omega
      refine ⟨_, _, if_pos hroom', ht, ?_⟩
      rw [hnext hroom']
      omega
  · intro s e h
    unfold Lower.node at h
    split at h <;> cases h
    rfl

theorem misplaced {q : Lower β} {b : β} :
  Finishes before Lower.misplaced q b
  := by
  constructor
  · rintro s c s' ⟨⟩
  · rintro low s c s' - ⟨⟩
  · rintro s c s' ⟨⟩
  · rintro s e ⟨⟩
    rfl

theorem nested {p q : Lower Node} {n : Node} (h : Lowers p q n) (span span' : Span) :
  Lowers (Lower.nested span p) (Lower.nested span' q) n
  := by
  have hrun {s s' : Lowering} {c : Node} (h : Lower.nested span p s = .ok (c, s')) :
      s.depth < nestingLimit ∧ ∃ t, p { s with depth := s.depth + 1 } = .ok (c, t)
        ∧ s' = { t with depth := t.depth - 1 } := by
    unfold Lower.nested at h
    split at h
    · next hdepth =>
        cases hc : p { s with depth := s.depth + 1 } with
        | error e =>
            rw [hc] at h
            cases h
        | ok x =>
            rw [hc] at h
            cases h
            exact ⟨hdepth, x.2, rfl, rfl⟩
    · cases h
  constructor
  · intro s c s' hc
    obtain ⟨-, t, hd, -⟩ := hrun hc
    exact h.moved hd
  · intro low s c s' hcounts hc
    obtain ⟨-, t, hd, rfl⟩ := hrun hc
    have hcounts' := h.counts (s := { s with depth := s.depth + 1 }) hcounts hd
    exact hcounts'
  · intro s c s' hc
    obtain ⟨hdepth, t, hd, rfl⟩ := hrun hc
    have hadvances := h.advances hd
    refine ⟨?_, hadvances.le, ?_⟩
    · rw [hadvances.depth, Nat.add_sub_cancel]
    · intro u hu high hhigh hroom
      obtain ⟨d, u', hq, hdepth', hnext⟩ :=
        hadvances.follows { u with depth := u.depth + 1 } (by rw [hu]) high hhigh hroom
      refine ⟨d, { u' with depth := u'.depth - 1 }, ?_, ?_, hnext⟩
      · rw [Lower.nested, if_pos (hu ▸ hdepth), hq]
        rfl
      · rw [hdepth', Nat.add_sub_cancel]
  · intro s e he
    unfold Lower.nested at he
    split at he
    · cases hc : p { s with depth := s.depth + 1 } with
      | error e' =>
          rw [hc] at he
          cases he
          exact h.fails hc
      | ok x =>
          rw [hc] at he
          cases he
    · cases he
      rfl

end Finishes

/-! ### What the constructs of the language make -/

variable {f : Span → Span}

theorem lowers_leaf (n : Node) :
  Lowers (leaf n) (leaf (n.moved f)) n
  := by
  obtain ⟨i, span, kind⟩ := n
  cases kind with
  | identifier name => exact .node rfl rfl
  | other typeName => exact .node rfl rfl
  | _ => exact .misplaced

theorem lowers_optionalName (n : Option Node) :
  Lowers (optionalName n) (optionalName (movedOption f n)) n
  := by
  cases n with
  | none => exact .pure rfl rfl
  | some n =>
      refine .bind (lowers_leaf n) fun _ _ h => .pure ?_ ?_
      all_goals simp_all +arith

theorem lowers_directiveText (n : Node) :
  Lowers (directiveText n) (directiveText (n.moved f)) n
  := by
  obtain ⟨i, span, kind⟩ := n
  cases kind with
  | literal value raw => exact .node rfl rfl
  | _ => exact .misplaced

theorem lowers_quasi (n : Node) :
  Lowers (quasi n) (quasi (n.moved f)) n
  := by
  obtain ⟨i, span, kind⟩ := n
  cases kind with
  | templateLiteral raw => exact .node rfl rfl
  | _ => exact .misplaced

/-- A tree is lowered in each place in which it may stand. -/
structure IsLowered (f : Span → Span) (n : Node) : Prop where
  statement : Lowers (statement n) (statement (n.moved f)) n
  block : Lowers (block n) (block (n.moved f)) n
  loopTarget : Lowers (loopTarget n) (loopTarget (n.moved f)) n
  functionBody : Lowers (functionBody n) (functionBody (n.moved f)) n
  binding : Lowers (binding n) (binding (n.moved f)) n
  expression : Lowers (expression n) (expression (n.moved f)) n
  target : Lowers (target n) (target (n.moved f)) n

/-- All trees below a size are lowered in each place in which they may stand. -/
structure Below (f : Span → Span) (size : Nat) : Prop where
  tree : ∀ n : Node, sizeOf n < size → IsLowered f n

namespace Below

variable {size : Nat} (ih : Below f size)

include ih

theorem below {size' : Nat} (h : size' ≤ size) :
  Below f size'
  := ⟨fun n hn => ih.tree n (Nat.lt_of_lt_of_le hn h)⟩

end Below

theorem lowers_optional (n : Option Node) (ih : Below f (sizeOf n)) :
  Lowers (optional n) (optional (movedOption f n)) n
  := by
  cases n with
  | none => exact .pure rfl rfl
  | some n =>
      refine .bind (ih.tree n ?_).expression fun _ _ h => .pure ?_ ?_
      all_goals simp_all +arith

theorem lowers_declarators (nodes : List Node) (ih : Below f (sizeOf nodes)) :
  Lowers (declarators nodes) (declarators (movedAll f nodes)) nodes
  := by
  induction nodes with
  | nil => exact .pure rfl rfl
  | cons n rest hrest =>
      obtain ⟨i, span, kind⟩ := n
      cases kind with
      | variableDeclarator target init =>
          refine .bind (ih.tree target ?_).binding fun _ _ h₁ =>
            .bind (lowers_optional init (ih.below ?_)) fun _ _ h₂ =>
            .andThen (a := Node.mk i span (.variableDeclarator target init))
              (.node ?_ ?_) fun _ _ h₃ =>
            .bind (hrest (ih.below ?_)) fun _ _ h₄ => .pure ?_ ?_
          all_goals simp_all +arith [Kind.moved, Kind.parts]
      | _ => exact .misplaced

theorem lowers_variableDeclaration {items : List Node} (ih : Below f (sizeOf items)) (i : Nat)
    (span span' : Span) (kind : DeclarationKind) :
  Lowers (variableDeclaration span kind (declarators items))
    (variableDeclaration span' kind (declarators (movedAll f items)))
    (.mk i span (.variableDeclaration kind items))
  := by
  refine .bind (lowers_declarators items ih) fun _ _ h₁ => .node ?_ ?_
  all_goals simp_all +arith [Kind.moved, Kind.parts]

theorem lowers_member {object name : Node} {computed optional : Bool}
    (ih : Below f (sizeOf (Kind.member object name computed optional))) (i : Nat)
    (span span' : Span) :
  Lowers
    (member span (expression object) (if computed then expression name else leaf name)
      computed optional)
    (member span' (expression (object.moved f))
      (if computed then expression (name.moved f) else leaf (name.moved f)) computed optional)
    (.mk i span (.member object name computed optional))
  := by
  have hname : Lowers (if computed then expression name else leaf name)
      (if computed then expression (name.moved f) else leaf (name.moved f)) name := by
    cases computed with
    | true =>
        refine (ih.tree name ?_).expression
        simp +arith
    | false => exact lowers_leaf name
  refine .bind (ih.tree object ?_).expression fun _ _ h₁ =>
    .bind hname fun _ _ h₂ => .node ?_ ?_
  all_goals simp_all +arith [Kind.moved, Kind.parts]

/-! ### Statements -/

theorem lowers_statements (nodes : List Node) (ih : Below f (sizeOf nodes)) :
  Lowers (statements nodes) (statements (movedAll f nodes)) nodes
  := by
  induction nodes with
  | nil => exact .pure rfl rfl
  | cons n rest hrest =>
      refine .bind (ih.tree n ?_).statement fun _ _ h₁ =>
        .bind (hrest (ih.below ?_)) fun _ _ h₂ => .pure ?_ ?_
      all_goals simp_all +arith

theorem lowers_optionalStatement (n : Option Node) (ih : Below f (sizeOf n)) :
  Lowers (optionalStatement n) (optionalStatement (movedOption f n)) n
  := by
  cases n with
  | none => exact .pure rfl rfl
  | some n =>
      refine .bind (ih.tree n ?_).statement fun _ _ h => .pure ?_ ?_
      all_goals simp_all +arith

theorem lowers_block (n : Node) (ih : Below f (sizeOf n)) :
  Lowers (block n) (block (n.moved f)) n
  := by
  obtain ⟨i, span, kind⟩ := n
  cases kind with
  | blockStatement body =>
      refine .bind (lowers_statements body (ih.below ?_)) fun _ _ h₁ => .node ?_ ?_
      all_goals simp_all +arith [Kind.moved, Kind.parts]
  | _ => exact .misplaced

theorem lowers_optionalBlock (n : Option Node) (ih : Below f (sizeOf n)) :
  Lowers (optionalBlock n) (optionalBlock (movedOption f n)) n
  := by
  cases n with
  | none => exact .pure rfl rfl
  | some n =>
      refine .bind (ih.tree n ?_).block fun _ _ h => .pure ?_ ?_
      all_goals simp_all +arith

theorem lowers_optionalBinding (n : Option Node) (ih : Below f (sizeOf n)) :
  Lowers (optionalBinding n) (optionalBinding (movedOption f n)) n
  := by
  cases n with
  | none => exact .pure rfl rfl
  | some n =>
      refine .bind (ih.tree n ?_).binding fun _ _ h => .pure ?_ ?_
      all_goals simp_all +arith

theorem lowers_catchClause (n : Option Node) (ih : Below f (sizeOf n)) :
  Lowers (catchClause n) (catchClause (movedOption f n)) n
  := by
  cases n with
  | none => exact .pure rfl rfl
  | some n =>
      obtain ⟨i, span, kind⟩ := n
      cases kind with
      | catchClause param body =>
          refine .bind (lowers_optionalBinding param (ih.below ?_)) fun _ _ h₁ =>
            .bind (ih.tree body ?_).block fun _ _ h₂ =>
            .andThen (a := Node.mk i span (.catchClause param body))
              (.node ?_ ?_) fun _ _ h₃ => .pure ?_ ?_
          all_goals simp_all +arith [Kind.moved, Kind.parts]
      | _ => exact .misplaced

theorem lowers_switchCases (nodes : List Node) (ih : Below f (sizeOf nodes)) :
  Lowers (switchCases nodes) (switchCases (movedAll f nodes)) nodes
  := by
  induction nodes with
  | nil => exact .pure rfl rfl
  | cons n rest hrest =>
      obtain ⟨i, span, kind⟩ := n
      cases kind with
      | switchCase test consequent =>
          refine .bind (lowers_optional test (ih.below ?_)) fun _ _ h₁ =>
            .bind (lowers_statements consequent (ih.below ?_)) fun _ _ h₂ =>
            .andThen (a := Node.mk i span (.switchCase test consequent)) (.node ?_ ?_) fun _ _ h₃ =>
            .bind (hrest (ih.below ?_)) fun _ _ h₄ => .pure ?_ ?_
          all_goals simp_all +arith [Kind.moved, Kind.parts]
      | _ => exact .misplaced

theorem lowers_loopInit (n : Option Node) (ih : Below f (sizeOf n)) :
  Lowers (loopInit n) (loopInit (movedOption f n)) n
  := by
  cases n with
  | none => exact .pure rfl rfl
  | some n =>
      obtain ⟨i, span, kind⟩ := n
      cases kind with
      | variableDeclaration kind items =>
          refine .bind (lowers_variableDeclaration (ih.below ?_) i span _ kind) fun _ _ h =>
            .pure ?_ ?_
          all_goals simp_all +arith
      | _ =>
          refine .bind (ih.tree (.mk i span _) ?_).expression fun _ _ h => .pure ?_ ?_
          all_goals simp_all +arith

theorem lowers_loopTarget (n : Node) (ih : Below f (sizeOf n)) :
  Lowers (loopTarget n) (loopTarget (n.moved f)) n
  := by
  obtain ⟨i, span, kind⟩ := n
  cases kind with
  | variableDeclaration kind items =>
      refine lowers_variableDeclaration (ih.below ?_) i span _ kind
      all_goals simp_all +arith
  | member object name computed optional =>
      refine lowers_member (ih.below ?_) i span _
      all_goals simp_all +arith
  | identifier name => exact .node rfl rfl
  | other typeName => exact .node rfl rfl
  | _ => exact .misplaced

/-! ### Functions -/

theorem lowers_body (nodes : List Node) (ih : Below f (sizeOf nodes)) :
  Lowers (body nodes) (body (movedAll f nodes)) nodes
  := by
  induction nodes with
  | nil => exact .pure rfl rfl
  | cons n rest hrest =>
      obtain ⟨i, span, kind⟩ := n
      cases kind with
      | expressionStatement e isDirective =>
          cases isDirective with
          | true =>
              refine .bind (lowers_directiveText e) fun _ _ h₁ =>
                .andThen (a := Node.mk i span (.expressionStatement e true))
                  (.node ?_ ?_) fun _ _ h₂ =>
                .bind (hrest (ih.below ?_)) fun _ _ h₃ => .pure ?_ ?_
              all_goals simp_all +arith [Kind.moved, Kind.parts]
          | false =>
              refine .bind (ih.tree (.mk i span _) ?_).statement fun _ _ h₁ =>
                .bind (hrest (ih.below ?_)) fun _ _ h₂ => .pure ?_ ?_
              all_goals simp_all +arith
      | _ =>
          refine .bind (ih.tree (.mk i span _) ?_).statement fun _ _ h₁ =>
            .bind (hrest (ih.below ?_)) fun _ _ h₂ => .pure ?_ ?_
          all_goals simp_all +arith

theorem lowers_functionBody (n : Node) (ih : Below f (sizeOf n)) :
  Lowers (functionBody n) (functionBody (n.moved f)) n
  := by
  obtain ⟨i, span, kind⟩ := n
  cases kind with
  | blockStatement items =>
      refine .bind (lowers_body items (ih.below ?_)) fun _ _ h₁ => .node ?_ ?_
      all_goals simp_all +arith [Kind.moved, Kind.parts]
  | _ => exact .misplaced

theorem lowers_parameters (nodes : List Node) (ih : Below f (sizeOf nodes)) :
  Lowers (parameters nodes) (parameters (movedAll f nodes)) nodes
  := by
  induction nodes with
  | nil => exact .pure rfl rfl
  | cons n rest hrest =>
      obtain ⟨i, span, kind⟩ := n
      cases kind with
      | restElement argument =>
          refine .bind (ih.tree argument ?_).binding fun _ _ h₁ =>
            .andThen (a := Node.mk i span (.restElement argument)) (.node ?_ ?_) fun _ _ h₂ =>
            .bind (hrest (ih.below ?_)) fun _ _ h₃ => .pure ?_ ?_
          all_goals simp_all +arith [Kind.moved, Kind.parts]
      | _ =>
          refine .bind (ih.tree (.mk i span _) ?_).binding fun _ _ h₁ =>
            .bind (hrest (ih.below ?_)) fun _ _ h₂ => .pure ?_ ?_
          all_goals simp_all +arith

theorem lowers_binding (n : Node) (ih : Below f (sizeOf n)) :
  Lowers (binding n) (binding (n.moved f)) n
  := by
  obtain ⟨i, span, kind⟩ := n
  cases kind with
  | assignmentPattern left right =>
      refine .bind (ih.tree left ?_).binding fun _ _ h₁ =>
        .bind (ih.tree right ?_).expression fun _ _ h₂ => .node ?_ ?_
      all_goals simp_all +arith [Kind.moved, Kind.parts]
  | identifier name => exact .node rfl rfl
  | other typeName => exact .node rfl rfl
  | _ => exact .misplaced

/-! ### Expressions -/

theorem lowers_expressions (nodes : List Node) (ih : Below f (sizeOf nodes)) :
  Lowers (expressions nodes) (expressions (movedAll f nodes)) nodes
  := by
  induction nodes with
  | nil => exact .pure rfl rfl
  | cons n rest hrest =>
      refine .bind (ih.tree n ?_).expression fun _ _ h₁ =>
        .bind (hrest (ih.below ?_)) fun _ _ h₂ => .pure ?_ ?_
      all_goals simp_all +arith

theorem lowers_elements (nodes : List (Option Node)) (ih : Below f (sizeOf nodes)) :
  Lowers (elements nodes) (elements (movedOptions f nodes)) nodes
  := by
  induction nodes with
  | nil => exact .pure rfl rfl
  | cons n rest hrest =>
      cases n with
      | none =>
          refine .bind (hrest (ih.below ?_)) fun _ _ h => .pure ?_ ?_
          all_goals simp_all +arith
      | some n =>
          obtain ⟨i, span, kind⟩ := n
          cases kind with
          | spreadElement argument =>
              refine .bind (ih.tree argument ?_).expression fun _ _ h₁ =>
                .andThen (a := Node.mk i span (.spreadElement argument)) (.node ?_ ?_) fun _ _ h₂ =>
                .bind (hrest (ih.below ?_)) fun _ _ h₃ => .pure ?_ ?_
              all_goals simp_all +arith [Kind.moved, Kind.parts]
          | _ =>
              refine .bind (ih.tree (.mk i span _) ?_).expression fun _ _ h₁ =>
                .bind (hrest (ih.below ?_)) fun _ _ h₂ => .pure ?_ ?_
              all_goals simp_all +arith

theorem lowers_properties (nodes : List Node) (ih : Below f (sizeOf nodes)) :
  Lowers (properties nodes) (properties (movedAll f nodes)) nodes
  := by
  induction nodes with
  | nil => exact .pure rfl rfl
  | cons n rest hrest =>
      obtain ⟨i, span, kind⟩ := n
      cases kind with
      | property key value kind computed shorthand method =>
          have hkey : Lowers
              (if computed || key.name?.isNone then expression key else leaf key)
              (if computed || (key.moved f).name?.isNone then expression (key.moved f)
                else leaf (key.moved f)) key := by
            rw [Node.name?_moved]
            split
            · refine (ih.tree key ?_).expression
              simp +arith
            · exact lowers_leaf key
          refine .bind hkey fun _ _ h₁ =>
            .bind (ih.tree value ?_).expression fun _ _ h₂ =>
            .andThen (a := Node.mk i span (.property key value kind computed shorthand method))
              (.node ?_ ?_) fun _ _ h₃ =>
            .bind (hrest (ih.below ?_)) fun _ _ h₄ => .pure ?_ ?_
          all_goals simp_all +arith [Kind.moved, Kind.parts]
      | spreadElement argument =>
          refine .bind (ih.tree argument ?_).expression fun _ _ h₁ =>
            .andThen (a := Node.mk i span (.spreadElement argument)) (.node ?_ ?_) fun _ _ h₂ =>
            .bind (hrest (ih.below ?_)) fun _ _ h₃ => .pure ?_ ?_
          all_goals simp_all +arith [Kind.moved, Kind.parts]
      | _ => exact .misplaced

theorem lowers_arguments (nodes : List Node) (ih : Below f (sizeOf nodes)) :
  Lowers (arguments nodes) (arguments (movedAll f nodes)) nodes
  := by
  induction nodes with
  | nil => exact .pure rfl rfl
  | cons n rest hrest =>
      obtain ⟨i, span, kind⟩ := n
      cases kind with
      | spreadElement argument =>
          refine .bind (ih.tree argument ?_).expression fun _ _ h₁ =>
            .andThen (a := Node.mk i span (.spreadElement argument)) (.node ?_ ?_) fun _ _ h₂ =>
            .bind (hrest (ih.below ?_)) fun _ _ h₃ => .pure ?_ ?_
          all_goals simp_all +arith [Kind.moved, Kind.parts]
      | _ =>
          refine .bind (ih.tree (.mk i span _) ?_).expression fun _ _ h₁ =>
            .bind (hrest (ih.below ?_)) fun _ _ h₂ => .pure ?_ ?_
          all_goals simp_all +arith

theorem lowers_target (n : Node) (ih : Below f (sizeOf n)) :
  Lowers (target n) (target (n.moved f)) n
  := by
  obtain ⟨i, span, kind⟩ := n
  cases kind with
  | member object name computed optional =>
      refine lowers_member (ih.below ?_) i span _
      all_goals simp_all +arith
  | identifier name => exact .node rfl rfl
  | other typeName => exact .node rfl rfl
  | _ => exact .misplaced

/-! ### All trees -/

theorem lowers_statementOfKind (kind : Kind Node) (ih : Below f (sizeOf kind)) (i : Nat)
    (span span' : Span) :
  Lowers (statementOfKind span kind) (statementOfKind span' (kind.moved f)) (.mk i span kind)
  := by
  cases kind with
  | expressionStatement e isDirective =>
      refine .bind (ih.tree e ?_).expression fun _ _ h₁ => .node ?_ ?_
      all_goals simp_all +arith [Kind.moved, Kind.parts]
  | blockStatement body =>
      refine .bind (lowers_statements body (ih.below ?_)) fun _ _ h₁ => .node ?_ ?_
      all_goals simp_all +arith [Kind.moved, Kind.parts]
  | emptyStatement => exact .node rfl rfl
  | debuggerStatement => exact .node rfl rfl
  | variableDeclaration kind items =>
      refine lowers_variableDeclaration (ih.below ?_) i span span' kind
      all_goals simp_all +arith
  | functionDeclaration name params body =>
      refine .bind (lowers_optionalName name) fun _ _ h₁ =>
        .bind (lowers_parameters params (ih.below ?_)) fun _ _ h₂ =>
        .bind (ih.tree body ?_).functionBody fun _ _ h₃ => .node ?_ ?_
      all_goals simp_all +arith [Kind.moved, Kind.parts]
  | ifStatement test consequent alternate =>
      refine .bind (ih.tree test ?_).expression fun _ _ h₁ =>
        .bind (ih.tree consequent ?_).statement fun _ _ h₂ =>
        .bind (lowers_optionalStatement alternate (ih.below ?_)) fun _ _ h₃ => .node ?_ ?_
      all_goals simp_all +arith [Kind.moved, Kind.parts]
  | switchStatement discriminant cases =>
      refine .bind (ih.tree discriminant ?_).expression fun _ _ h₁ =>
        .bind (lowers_switchCases cases (ih.below ?_)) fun _ _ h₂ => .node ?_ ?_
      all_goals simp_all +arith [Kind.moved, Kind.parts]
  | forStatement init test step body =>
      refine .bind (lowers_loopInit init (ih.below ?_)) fun _ _ h₁ =>
        .bind (lowers_optional test (ih.below ?_)) fun _ _ h₂ =>
        .bind (lowers_optional step (ih.below ?_)) fun _ _ h₃ =>
        .bind (ih.tree body ?_).statement fun _ _ h₄ => .node ?_ ?_
      all_goals simp_all +arith [Kind.moved, Kind.parts]
  | forInStatement left right body =>
      refine .bind (ih.tree left ?_).loopTarget fun _ _ h₁ =>
        .bind (ih.tree right ?_).expression fun _ _ h₂ =>
        .bind (ih.tree body ?_).statement fun _ _ h₃ => .node ?_ ?_
      all_goals simp_all +arith [Kind.moved, Kind.parts]
  | forOfStatement left right body =>
      refine .bind (ih.tree left ?_).loopTarget fun _ _ h₁ =>
        .bind (ih.tree right ?_).expression fun _ _ h₂ =>
        .bind (ih.tree body ?_).statement fun _ _ h₃ => .node ?_ ?_
      all_goals simp_all +arith [Kind.moved, Kind.parts]
  | whileStatement test body =>
      refine .bind (ih.tree test ?_).expression fun _ _ h₁ =>
        .bind (ih.tree body ?_).statement fun _ _ h₂ => .node ?_ ?_
      all_goals simp_all +arith [Kind.moved, Kind.parts]
  | doWhileStatement body test =>
      refine .bind (ih.tree body ?_).statement fun _ _ h₁ =>
        .bind (ih.tree test ?_).expression fun _ _ h₂ => .node ?_ ?_
      all_goals simp_all +arith [Kind.moved, Kind.parts]
  | tryStatement body handler finalizer =>
      refine .bind (ih.tree body ?_).block fun _ _ h₁ =>
        .bind (lowers_catchClause handler (ih.below ?_)) fun _ _ h₂ =>
        .bind (lowers_optionalBlock finalizer (ih.below ?_)) fun _ _ h₃ => .node ?_ ?_
      all_goals simp_all +arith [Kind.moved, Kind.parts]
  | breakStatement label =>
      refine .bind (lowers_optionalName label) fun _ _ h₁ => .node ?_ ?_
      all_goals simp_all +arith [Kind.moved, Kind.parts]
  | continueStatement label =>
      refine .bind (lowers_optionalName label) fun _ _ h₁ => .node ?_ ?_
      all_goals simp_all +arith [Kind.moved, Kind.parts]
  | returnStatement argument =>
      refine .bind (lowers_optional argument (ih.below ?_)) fun _ _ h₁ => .node ?_ ?_
      all_goals simp_all +arith [Kind.moved, Kind.parts]
  | throwStatement argument =>
      refine .bind (ih.tree argument ?_).expression fun _ _ h₁ => .node ?_ ?_
      all_goals simp_all +arith [Kind.moved, Kind.parts]
  | labeledStatement label body =>
      refine .bind (lowers_leaf label) fun _ _ h₁ =>
        .bind (ih.tree body ?_).statement fun _ _ h₂ => .node ?_ ?_
      all_goals simp_all +arith [Kind.moved, Kind.parts]
  | withStatement object body =>
      refine .bind (ih.tree object ?_).expression fun _ _ h₁ =>
        .bind (ih.tree body ?_).statement fun _ _ h₂ => .node ?_ ?_
      all_goals simp_all +arith [Kind.moved, Kind.parts]
  | other typeName => exact .node rfl rfl
  | _ => exact .misplaced

theorem lowers_expressionOfKind (kind : Kind Node) (ih : Below f (sizeOf kind)) (i : Nat)
    (span span' : Span) :
  Lowers (expressionOfKind span kind) (expressionOfKind span' (kind.moved f)) (.mk i span kind)
  := by
  cases kind with
  | literal value raw => exact .node rfl rfl
  | templateLiteral raw => exact .node rfl rfl
  | identifier name => exact .node rfl rfl
  | thisExpression => exact .node rfl rfl
  | arrayExpression items =>
      refine .bind (lowers_elements items (ih.below ?_)) fun _ _ h₁ => .node ?_ ?_
      all_goals simp_all +arith [Kind.moved, Kind.parts]
  | objectExpression items =>
      refine .bind (lowers_properties items (ih.below ?_)) fun _ _ h₁ => .node ?_ ?_
      all_goals simp_all +arith [Kind.moved, Kind.parts]
  | functionExpression name params body =>
      refine .bind (lowers_optionalName name) fun _ _ h₁ =>
        .bind (lowers_parameters params (ih.below ?_)) fun _ _ h₂ =>
        .bind (ih.tree body ?_).functionBody fun _ _ h₃ => .node ?_ ?_
      all_goals simp_all +arith [Kind.moved, Kind.parts]
  | arrowFunction params body isExpression =>
      cases isExpression with
      | true =>
          refine .bind (lowers_parameters params (ih.below ?_)) fun _ _ h₁ =>
            .bind (ih.tree body ?_).expression fun _ _ h₂ => .node ?_ ?_
          all_goals simp_all +arith [Kind.moved, Kind.parts]
      | false =>
          refine .bind (lowers_parameters params (ih.below ?_)) fun _ _ h₁ =>
            .bind (ih.tree body ?_).functionBody fun _ _ h₂ => .node ?_ ?_
          all_goals simp_all +arith [Kind.moved, Kind.parts]
  | unary operator argument =>
      refine .bind (ih.tree argument ?_).expression fun _ _ h₁ => .node ?_ ?_
      all_goals simp_all +arith [Kind.moved, Kind.parts]
  | update operator isLeading argument =>
      refine .bind (ih.tree argument ?_).target fun _ _ h₁ => .node ?_ ?_
      all_goals simp_all +arith [Kind.moved, Kind.parts]
  | binary operator left right =>
      refine .bind (ih.tree left ?_).expression fun _ _ h₁ =>
        .bind (ih.tree right ?_).expression fun _ _ h₂ => .node ?_ ?_
      all_goals simp_all +arith [Kind.moved, Kind.parts]
  | logical operator left right =>
      refine .bind (ih.tree left ?_).expression fun _ _ h₁ =>
        .bind (ih.tree right ?_).expression fun _ _ h₂ => .node ?_ ?_
      all_goals simp_all +arith [Kind.moved, Kind.parts]
  | assignment operator left right =>
      refine .bind (ih.tree left ?_).target fun _ _ h₁ =>
        .bind (ih.tree right ?_).expression fun _ _ h₂ => .node ?_ ?_
      all_goals simp_all +arith [Kind.moved, Kind.parts]
  | conditional test consequent alternate =>
      refine .bind (ih.tree test ?_).expression fun _ _ h₁ =>
        .bind (ih.tree consequent ?_).expression fun _ _ h₂ =>
        .bind (ih.tree alternate ?_).expression fun _ _ h₃ => .node ?_ ?_
      all_goals simp_all +arith [Kind.moved, Kind.parts]
  | call callee items optional =>
      refine .bind (ih.tree callee ?_).expression fun _ _ h₁ =>
        .bind (lowers_arguments items (ih.below ?_)) fun _ _ h₂ => .node ?_ ?_
      all_goals simp_all +arith [Kind.moved, Kind.parts]
  | new callee items =>
      refine .bind (ih.tree callee ?_).expression fun _ _ h₁ =>
        .bind (lowers_arguments items (ih.below ?_)) fun _ _ h₂ => .node ?_ ?_
      all_goals simp_all +arith [Kind.moved, Kind.parts]
  | member object name computed optional =>
      exact lowers_member ih i span span'
  | sequence items =>
      refine .bind (lowers_expressions items (ih.below ?_)) fun _ _ h₁ => .node ?_ ?_
      all_goals simp_all +arith [Kind.moved, Kind.parts]
  | taggedTemplate tag text =>
      refine .bind (ih.tree tag ?_).expression fun _ _ h₁ =>
        .bind (lowers_quasi text) fun _ _ h₂ => .node ?_ ?_
      all_goals simp_all +arith [Kind.moved, Kind.parts]
  | other typeName => exact .node rfl rfl
  | _ => exact .misplaced

/-- Every tree is lowered in each place in which it may stand. -/
theorem isLowered (f : Span → Span) (n : Node) :
  IsLowered f n
  := by
  have below (size : Nat) : Below f size := by
    induction size with
    | zero => exact ⟨fun n hn => absurd hn (Nat.not_lt_zero _)⟩
    | succ size ih =>
        constructor
        intro n hn
        have ih : Below f (sizeOf n) := ih.below (Nat.le_of_lt_succ hn)
        constructor
        · obtain ⟨i, span, kind⟩ := n
          refine (lowers_statementOfKind kind (ih.below ?_) i span _).nested _ _
          all_goals simp_all +arith
        · exact lowers_block n ih
        · exact lowers_loopTarget n ih
        · exact lowers_functionBody n ih
        · exact lowers_binding n ih
        · obtain ⟨i, span, kind⟩ := n
          refine (lowers_expressionOfKind kind (ih.below ?_) i span _).nested _ _
          all_goals simp_all +arith
        · exact lowers_target n ih
  exact (below (sizeOf n + 1)).tree n (Nat.lt_succ_self _)

theorem lowers_program (f : Span → Span) (n : Node) :
  Lowers (program n) (program (n.moved f)) n
  := by
  obtain ⟨i, span, kind⟩ := n
  cases kind with
  | program items =>
      refine .bind (lowers_body items ⟨fun n _ => isLowered f n⟩) fun _ _ h₁ => .node ?_ ?_
      all_goals simp_all +arith [Kind.moved, Kind.parts]
  | _ => exact .misplaced

end Lower

/-! ### Programs -/

/-- A lowered tree differs from the tree in the numbers of its nodes at most.  In the order in which
the nodes are left the numbers count up from zero, and no others have been given out. -/
theorem run_of_lowered {n m : Node} (h : n.lowered = .ok m) :
  m.moved id = n.moved id
    ∧ ∃ s, (Lower.program n).run {} = .ok (m, s) ∧ s.nextId.toNat = m.postorder.length
      ∧ m.postorder.map Node.id = List.range m.postorder.length
  := by
  cases hrun : (Lower.program n).run {} with
  | error e =>
      rw [Node.lowered, hrun] at h
      cases h
  | ok x =>
      obtain ⟨m', s⟩ := x
      rw [Node.lowered, hrun] at h
      cases h
      have hlowers := Lower.lowers_program id n
      have hids := (hlowers.counts (.nil 0) hrun).ids
      rw [HasTrees.trees_node, List.flatMap_singleton, Nat.sub_zero, ← List.range_eq_range'] at hids
      have hlength := congrArg List.length hids
      rw [List.length_map, List.length_range] at hlength
      rw [← hlength] at hids
      exact ⟨hlowers.moved hrun, s, rfl, hlength.symm, hids⟩

namespace Program

variable {source : Text} {p : Program}

/-- A program is made of a script that was read: its tree is that of the script, lowered, and its
comments and tokens stand where those of the script do. -/
theorem parsed_of_ofText (h : ofText source = .ok p) :
  ∃ parsed, Parsed.ofText source = .ok parsed ∧ parsed.tree.lowered = .ok p.tree
    ∧ p.comments = parsed.comments.map (Token.ofComment source)
    ∧ p.tokens = Script.tokens source p.tree p.comments
  := by
  unfold ofText at h
  split at h
  · cases h
  · cases hparsed : Parsed.ofText source with
    | error f =>
        rw [hparsed] at h
        cases h
    | ok parsed =>
        rw [hparsed] at h
        change parsed.program source = .ok p at h
        unfold Parsed.program at h
        cases htree : parsed.tree.lowered with
        | error f =>
            rw [htree] at h
            cases h
        | ok tree =>
            rw [htree] at h
            cases h
            exact ⟨parsed, rfl, htree, rfl, rfl⟩

/-- A script that was read is a program if its tree can be lowered and the count of its brackets
gets through. -/
theorem ofText_of_parsed {parsed : Parsed} {tree : Node}
    (hguard : bracketBeyond .code 0 0 source = none) (hparsed : Parsed.ofText source = .ok parsed)
    (htree : parsed.tree.lowered = .ok tree) :
  ∃ p, ofText source = .ok p ∧ p.tree = tree
  := by
  have hprogram : ofText source = parsed.program source := by
    rw [ofText, hguard, hparsed]
    rfl
  rw [hprogram, Parsed.program, htree]
  exact ⟨_, rfl, rfl⟩

/-- No two nodes of a program have the same number. -/
theorem nodup_ids (h : ofText source = .ok p) :
  (p.tree.preorder.map Node.id).Nodup
  := by
  obtain ⟨parsed, -, htree, -⟩ := parsed_of_ofText h
  obtain ⟨-, s, -, -, hids⟩ := run_of_lowered htree
  have hperm := p.tree.postorder_perm_preorder.map Node.id
  rw [← hperm.nodup_iff, hids]
  apply List.nodup_range

end Program

end Stencil.Script
