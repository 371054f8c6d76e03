import Mathlib.Data.List.Basic
import Stencil.Proofs.Span
import Stencil.Script.Tree

/-!
# Nested spans

In a tree with nested spans every part of a node lies within the node, and the parts follow each
other without overlap.  The one exception is a property in shorthand, whose key and value are
written once.  The nodes of such a tree, each before its parts, are in the order in which they
begin: a node is followed by what lies in one of its parts and then by what begins after its end.
-/

namespace Stencil

/-! ### The values of an outline -/

namespace Outline

variable {α : Type}

theorem withParentsAll_eq_flatMap (parent : Option α) (ts : List (Outline α)) :
  withParentsAll parent ts = ts.flatMap (withParents parent)
  := by
  induction ts with
  | nil => rfl
  | cons t ts ih => rw [withParentsAll, ih, List.flatMap_cons]

/-- The values do not depend on what is above the top. -/
theorem map_withParents (parent : Option α) (t : Outline α) :
  (t.withParents parent).map (·.1) = t.values
  := by
  cases t with
  | node a below => simp [values, withParents]

/-- The values are the one at the top and then those of the outlines below. -/
theorem values_node (a : α) (below : List (Outline α)) :
  (node a below).values = a :: below.flatMap values
  := by
  rw [values, withParents, List.map_cons, withParentsAll_eq_flatMap, List.map_flatMap]
  simp only [map_withParents]

end Outline

namespace Script

namespace Node

/-! ### The nodes of a tree -/

/-- The parts of a node that are visited, from left to right. -/
def parts (n : Node) : List Node := (visitorKeys.fieldsOf n.typeName).flatMap n.field

theorem parts_of_kind {n : Node} {kind : Kind Node} (h : n.kind = kind) :
  n.parts = (visitorKeys.fieldsOf kind.typeName).flatMap kind.field
  := by
  rw [← h]
  rfl

theorem sizeOf_lt_of_mem_parts {n m : Node} (h : m ∈ n.parts) :
  sizeOf m < sizeOf n
  := by
  obtain ⟨key, -, hm⟩ := List.mem_flatMap.mp h
  apply sizeOf_lt_of_mem_field hm

/-- What passes from the parts of a node to the node holds of every node. -/
theorem inductionOnParts {motive : Node → Prop}
    (step : ∀ n : Node, (∀ m ∈ n.parts, motive m) → motive n) (n : Node) :
  motive n
  := step n fun m _ => inductionOnParts step m
  termination_by n
  decreasing_by apply sizeOf_lt_of_mem_parts; assumption

theorem preorder_eq (n : Node) :
  n.preorder = n :: n.parts.flatMap preorder
  := by
  rw [preorder, outline, Outline.values_node, parts, List.flatMap_assoc, List.flatMap_assoc]
  simp only [List.flatMap_map]
  congr 1
  apply List.flatMap_congr
  intro key _
  have hfield := List.flatMap_subtype (l := (n.field key).attach) (f := fun m => m.1.preorder)
    (g := preorder) fun _ _ => rfl
  rwa [List.unattach_attach] at hfield

theorem self_mem_preorder (n : Node) :
  n ∈ n.preorder
  := by
  rw [preorder_eq]
  apply List.mem_cons_self

theorem preorder_subset_of_mem_parts {n m : Node} (h : m ∈ n.parts) :
  m.preorder ⊆ n.preorder
  := by
  rw [preorder_eq n]
  apply List.subset_cons_of_subset
  intro k hk
  rw [List.mem_flatMap]
  use m

theorem preorder_subset {tree n : Node} (h : n ∈ tree.preorder) :
  n.preorder ⊆ tree.preorder
  := by
  induction tree using inductionOnParts with
  | step tree ih =>
      have hmem := h
      rw [preorder_eq, List.mem_cons, List.mem_flatMap] at hmem
      rcases hmem with rfl | ⟨k, hk, hn⟩
      · apply List.Subset.refl
      · apply List.Subset.trans (ih k hk hn) (preorder_subset_of_mem_parts hk)

theorem mem_preorder_of_mem_parts {tree n m : Node} (hn : n ∈ tree.preorder) (hm : m ∈ n.parts) :
  m ∈ tree.preorder
  := preorder_subset hn (preorder_subset_of_mem_parts hm (self_mem_preorder m))

/-- The nodes of a tree down to a depth. -/
def preorderWithin : Nat → Node → List Node
  | 0, _ => []
  | depth + 1, n => n :: n.parts.flatMap (preorderWithin depth)

/-- The tree ends above a depth. -/
def endsWithin : Nat → Node → Bool
  | 0, _ => false
  | depth + 1, n => n.parts.all (endsWithin depth)

/-- The nodes of a tree can be listed by recursion on a bound for its depth. -/
theorem preorder_eq_preorderWithin {depth : Nat} {n : Node} (h : n.endsWithin depth = true) :
  n.preorder = n.preorderWithin depth
  := by
  induction depth generalizing n with
  | zero => simp [endsWithin] at h
  | succ depth ih =>
      rw [endsWithin, List.all_eq_true] at h
      rw [preorder_eq, preorderWithin]
      congr 1
      apply List.flatMap_congr
      intro m hm
      apply ih (h m hm)

/-! ### Nested spans -/

/-- A property in shorthand, whose key and value are the same piece of the source. -/
def isShorthand (n : Node) : Bool :=
  match n.kind with
  | .property key _ _ _ true _ => key.name?.isSome
  | _ => false

/-- The node covers something, its parts lie within it, and they follow each other, unless the
node is a property in shorthand. -/
structure Fits (n : Node) : Prop where
  nonempty : n.span.start < n.span.stop
  inside : ∀ m ∈ n.parts, n.span.encloses m.span = true
  inOrder : n.isShorthand = false → n.parts.Pairwise fun m k => m.span.stop ≤ k.span.start

/-- Every node of the tree covers something and its parts lie within it, one after the other. -/
def Nested (tree : Node) : Prop :=
  ∀ n ∈ tree.preorder, n.Fits

/-- The nodes follow each other. -/
def inOrder : List Node → Bool
  | [] => true
  | m :: rest => rest.all (fun k => m.span.stop ≤ k.span.start) && inOrder rest

theorem inOrder_iff {nodes : List Node} :
  inOrder nodes = true ↔ nodes.Pairwise fun m k => m.span.stop ≤ k.span.start
  := by
  induction nodes with
  | nil => simp [inOrder]
  | cons m rest ih => simp [inOrder, ih]

/-- Checks that a node fits. -/
def fits (n : Node) : Bool :=
  n.span.start < n.span.stop && n.parts.all (fun m => n.span.encloses m.span)
    && (n.isShorthand || inOrder n.parts)

theorem fits_iff {n : Node} :
  n.fits = true ↔ n.Fits
  := by
  simp only [fits, Bool.and_eq_true, decide_eq_true_eq, List.all_eq_true, Bool.or_eq_true,
    inOrder_iff]
  constructor
  · rintro ⟨⟨hnonempty, hinside⟩, hshort | horder⟩
    · exact ⟨hnonempty, hinside, fun h => absurd hshort (by simp [h])⟩
    · exact ⟨hnonempty, hinside, fun _ => horder⟩
  · intro h
    refine ⟨⟨h.nonempty, h.inside⟩, ?_⟩
    cases hshort : n.isShorthand with
    | true => exact Or.inl rfl
    | false => exact Or.inr (h.inOrder hshort)

variable {tree : Node}

/-- Whether a tree is nested can be checked node by node. -/
theorem nested_iff :
  tree.Nested ↔ tree.preorder.all fits = true
  := by
  simp only [Nested, List.all_eq_true, fits_iff]

theorem Nested.fits (h : tree.Nested) :
  tree.Fits
  := h tree (self_mem_preorder tree)

theorem Nested.of_mem_preorder (h : tree.Nested) {n : Node} (hn : n ∈ tree.preorder) :
  n.Nested
  := fun k hk => h k (preorder_subset hn hk)

theorem Nested.of_mem_parts (h : tree.Nested) {m : Node} (hm : m ∈ tree.parts) :
  m.Nested
  := fun k hk => h k (preorder_subset_of_mem_parts hm hk)

/-- All nodes of a nested tree lie within it. -/
theorem Nested.encloses (h : tree.Nested) :
  ∀ m ∈ tree.preorder, tree.span.encloses m.span = true
  := by
  induction tree using inductionOnParts with
  | step n ih =>
      intro m hm
      rw [preorder_eq, List.mem_cons, List.mem_flatMap] at hm
      rcases hm with rfl | ⟨k, hk, hm⟩
      · apply Span.encloses_refl
      · apply Span.encloses_trans (h.fits.inside k hk) (ih k hk (h.of_mem_parts hk) m hm)

/-- The place of a node relative to one that stands before it: it begins after its end or lies in
one of its parts.  An identifier may stand anywhere before. -/
def Precedes (n m : Node) : Prop :=
  n.span.stop ≤ m.span.start ∨ (∃ k ∈ n.parts, k.span.encloses m.span = true)
    ∨ n.name?.isSome = true

theorem preorder_of_name? {n : Node} (h : n.name?.isSome = true) :
  n.preorder = [n]
  := by
  have hparts : n.parts = [] := by
    obtain ⟨id, span, kind⟩ := n
    cases kind with
    | identifier name => rfl
    | _ => simp [name?, kind] at h
  rw [preorder_eq, hparts, List.flatMap_nil]

/-- The parts of a property in shorthand are its key, an identifier, and its value. -/
theorem parts_of_isShorthand {n : Node} (h : n.isShorthand = true) :
  ∃ key value : Node, n.parts = [key, value] ∧ key.name?.isSome = true
  := by
  obtain ⟨id, span, kind⟩ := n
  cases kind with
  | property key value _ _ shorthand _ =>
      cases shorthand with
      | true => exact ⟨key, value, rfl, h⟩
      | false => simp [isShorthand, kind] at h
  | _ => simp [isShorthand, kind] at h

/-- What lies in one part of a nested node stands in its place relative to what lies in a later
part. -/
theorem Nested.pairwise_parts (h : tree.Nested) :
  tree.parts.Pairwise fun m k => ∀ x ∈ m.preorder, ∀ y ∈ k.preorder, x.Precedes y
  := by
  cases hshort : tree.isShorthand with
  | false =>
      apply (h.fits.inOrder hshort).imp_of_mem
      intro m k hm hk hmk x hx y hy
      have hx := (h.of_mem_parts hm).encloses x hx
      have hy := (h.of_mem_parts hk).encloses y hy
      rw [Span.encloses_iff] at hx hy
      exact Or.inl (by omega)
  | true =>
      obtain ⟨key, value, hparts, hname⟩ := parts_of_isShorthand hshort
      rw [hparts, List.pairwise_pair, preorder_of_name? hname]
      intro x hx y _
      rw [List.mem_singleton] at hx
      rw [hx]
      exact Or.inr (Or.inr hname)

/-- The nodes of a nested tree stand in their places relative to each other. -/
theorem Nested.pairwise_precedes (h : tree.Nested) :
  tree.preorder.Pairwise Precedes
  := by
  induction tree using inductionOnParts with
  | step n ih =>
      rw [preorder_eq, List.pairwise_cons, List.pairwise_flatMap]
      refine ⟨?_, ?_, h.pairwise_parts⟩
      · intro m hm
        obtain ⟨k, hk, hm⟩ := List.mem_flatMap.mp hm
        exact Or.inr (Or.inl ⟨k, hk, (h.of_mem_parts hk).encloses m hm⟩)
      · intro m hm
        apply ih m hm (h.of_mem_parts hm)

end Node

end Script

end Stencil
