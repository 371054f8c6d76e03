import Stencil.Proofs.Markup.Reading

/-!
# The nodes of a document in preorder

Nodes can be compared.  The nodes of a tree are listed before those in them, each with whether the
content around it is foreign.  While a text is read, closing an element adds this element to the
list and nothing else, as the nodes in it are there already.
-/

namespace Stencil.Markup

mutual

/-- Whether two nodes are the same. -/
def Node.decEq : (m n : Node) → Decidable (m = n)
  | .element span name startTag attributes children endTag,
    .element span' name' startTag' attributes' children' endTag' =>
    have := Node.decEqAll children children'
    decidable_of_iff (span = span' ∧ name = name' ∧ startTag = startTag' ∧ attributes = attributes'
      ∧ children = children' ∧ endTag = endTag') (by rw [Node.element.injEq])
  | .text a, .text b => decidable_of_iff (a = b) (by rw [Node.text.injEq])
  | .comment a, .comment b => decidable_of_iff (a = b) (by rw [Node.comment.injEq])
  | .doctype a, .doctype b => decidable_of_iff (a = b) (by rw [Node.doctype.injEq])
  | .element .., .text _ | .element .., .comment _ | .element .., .doctype _
  | .text _, .element .. | .text _, .comment _ | .text _, .doctype _
  | .comment _, .element .. | .comment _, .text _ | .comment _, .doctype _
  | .doctype _, .element .. | .doctype _, .text _ | .doctype _, .comment _ => isFalse nofun

/-- Whether two lists of nodes are the same. -/
def Node.decEqAll : (m n : List Node) → Decidable (m = n)
  | [], [] => isTrue rfl
  | [], _ :: _ => isFalse nofun
  | _ :: _, [] => isFalse nofun
  | m :: ms, n :: ns =>
    have := Node.decEq m n
    have := Node.decEqAll ms ns
    decidable_of_iff (m = n ∧ ms = ns) (by rw [List.cons.injEq])

end

instance : DecidableEq Node := Node.decEq

mutual

/-- A node and the nodes in it, each with whether the content around it is foreign. -/
def Node.preorder (foreign : Bool) : Node → List (Bool × Node)
  | .element span name startTag attributes children endTag =>
    (foreign, .element span name startTag attributes children endTag)
      :: preorderAll (foreign || name ∈ foreignNames) children
  | .text span => [(foreign, .text span)]
  | .comment span => [(foreign, .comment span)]
  | .doctype span => [(foreign, .doctype span)]

/-- Several nodes and the nodes in them. -/
def preorderAll (foreign : Bool) : List Node → List (Bool × Node)
  | [] => []
  | n :: rest => n.preorder foreign ++ preorderAll foreign rest

end

/-- The nodes of a document. -/
def Document.preorder (d : Document) : List (Bool × Node) := preorderAll false d.children

/-- The nodes in the open elements so far. -/
def openPreorder : List Open → List (Bool × Node)
  | [] => []
  | e :: rest => preorderAll (inForeign (e :: rest)) e.children ++ openPreorder rest

/-- The nodes so far, apart from the open elements. -/
def Builder.preorder (b : Builder) : List (Bool × Node) :=
  preorderAll false b.top ++ openPreorder b.opened

theorem preorderAll_eq_flatMap (foreign : Bool) (nodes : List Node) :
  preorderAll foreign nodes = nodes.flatMap (·.preorder foreign)
  := by
  induction nodes with
  | nil => rfl
  | cons n rest ih => rw [preorderAll, ih, List.flatMap_cons]

theorem preorderAll_reverse_perm (foreign : Bool) (nodes : List Node) :
  (preorderAll foreign nodes.reverse).Perm (preorderAll foreign nodes)
  := by
  rw [preorderAll_eq_flatMap, preorderAll_eq_flatMap]
  exact nodes.reverse_perm.flatMap_right _

/-- A node that is no element is the only one in it. -/
theorem preorder_of_not_isElement {n : Node} (h : n.isElement = false) (foreign : Bool) :
  n.preorder foreign = [(foreign, n)]
  := by
  cases n with
  | element => cases h
  | text | comment | doctype => rw [Node.preorder]

/-- An element that is read as a leaf is the only node in it. -/
theorem preorder_leaf (foreign : Bool) (name : Text) (span : Span) (attributes : List Attribute) :
  (Node.element span name span attributes [] none).preorder foreign
    = [(foreign, .element span name span attributes [] none)]
  := by rw [Node.preorder, preorderAll]

section Builder

variable {b : Builder}

/-- Adding a node adds the nodes in it. -/
theorem preorder_add (b : Builder) (n : Node) :
  (b.add n).preorder.Perm (n.preorder (inForeign b.opened) ++ b.preorder)
  := by
  rw [Builder.add]
  split
  · next hnil =>
      rw [Builder.preorder, Builder.preorder, hnil, preorderAll, List.append_assoc]
      exact .refl _
  · next e rest hcons =>
      have hsame : inForeign ({ e with children := n :: e.children } :: rest)
          = inForeign (e :: rest) := rfl
      rw [Builder.preorder, Builder.preorder, hcons]
      dsimp only
      rw [openPreorder, openPreorder, hsame, preorderAll, List.append_assoc]
      exact List.perm_append_comm_assoc ..

/-- Closing an element adds it to the nodes. -/
theorem preorder_close {e : Open} {rest : List Open} (h : b.opened = e :: rest) (stop : Nat)
    (endTag : Option Span) :
  (b.close stop endTag).preorder.Perm ((inForeign rest, e.node stop endTag) :: b.preorder)
  := by
  have hclose : b.close stop endTag
      = ({ b with opened := rest } : Builder).add (e.node stop endTag) := by
    rw [Builder.close, h]
    rfl
  rw [hclose]
  apply (preorder_add _ _).trans
  rw [Open.node, Node.preorder, List.cons_append, Builder.preorder, Builder.preorder, h,
    openPreorder, inForeign_cons]
  apply List.Perm.cons
  apply ((preorderAll_reverse_perm _ e.children).append_right _).trans
  exact List.perm_append_comm_assoc ..

theorem preorder_noteUnclosed (b : Builder) :
  b.noteUnclosed.preorder = b.preorder
  := by
  rw [Builder.noteUnclosed]
  split
  · rfl
  · split
    · rfl
    · rfl

theorem flattened_noteUnclosed (b : Builder) :
  b.noteUnclosed.flattened = b.flattened
  := by
  rw [Builder.noteUnclosed]
  split
  · rfl
  · split
    · rfl
    · rfl

theorem opened_closeUnclosed_length (b : Builder) (stop : Nat) :
  (b.closeUnclosed stop b.opened.length).opened = []
  := by
  have hnames := names_closeUnclosed b stop b.opened.length
  rw [Builder.names, Builder.names, ← List.map_drop, List.drop_length, List.map_nil] at hnames
  exact List.map_eq_nil_iff.mp hnames

end Builder

/-- The nodes of a document are those that were read when the elements are closed that are still
open at the end of the text.  What reading on keeps holds there. -/
theorem exists_preorder_ofText {t : Text} {P : Reader → Prop}
    (hnext : ∀ s : Reader, s.place.rest ≠ [] → P s → P s.next) (h : P ⟨{}, ⟨t, 0⟩, none⟩) :
  ∃ s : Reader, P s ∧ s.place.rest = []
    ∧ (Document.ofText t).preorder.Perm
      (s.builder.closeUnclosed s.place.offset s.builder.opened.length).preorder
    ∧ (Document.ofText t).issues
      = (s.builder.closeUnclosed s.place.offset s.builder.opened.length).issues.reverse
  := by
  obtain ⟨s, hs, hrest, hchildren, hissues⟩ := exists_reader_ofText hnext h
  refine ⟨s, hs, hrest, ?_, hissues⟩
  rw [Document.preorder, hchildren, Builder.preorder, opened_closeUnclosed_length, openPreorder,
    List.append_nil]
  exact preorderAll_reverse_perm false _

end Stencil.Markup
