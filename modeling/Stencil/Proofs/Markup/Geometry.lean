import Stencil.Proofs.Markup.Steps

/-!
# The places of nodes

The start tag of an element stands at its beginning with the attributes in it, the nodes in the
element follow each other after the start tag, and the end tag, if there is one, stands at its end.
While a text is read, this holds of the nodes so far, and the elements that are open stand one
within the other: each begins where the nodes of the one around it have ended.  A step of the
reading keeps this, and so the whole tree of a document has its nodes in place.
-/

namespace Stencil.Markup

open Text

/-- The offset up to which the nodes in an element may extend. -/
def contentStop (span : Span) (endTag : Option Span) : Nat := (endTag.map (·.start)).getD span.stop

/-- The parts of an element are in place. -/
structure ElementPlaced (t : Text) (span : Span) (name : Text) (startTag : Span)
    (attributes : List Attribute) (children : List Node) (endTag : Option Span) : Prop where
  isPiece : span.IsPiece t
  startTag_isPiece : startTag.IsPiece t
  startTag_start : startTag.start = span.start
  startTag_stop : startTag.stop ≤ contentStop span endTag
  contentStop_le : contentStop span endTag ≤ span.stop
  attributes : Attribute.InOrder t startTag.start startTag.stop attributes
  children : Span.InOrder t startTag.stop (contentStop span endTag) (children.map Node.span)
  endTag : ∀ e ∈ endTag, e.IsPiece t ∧ e.stop = span.stop ∧ IsEndTag t e name

/-- A node and all nodes in it are in place. -/
inductive Node.Placed (t : Text) : Node → Prop
  | text {span : Span} (h : span.IsPiece t) : Placed t (.text span)
  | comment {span : Span} (h : span.IsPiece t) : Placed t (.comment span)
  | doctype {span : Span} (h : span.IsPiece t) : Placed t (.doctype span)
  | element {span : Span} {name : Text} {startTag : Span} {attributes : List Attribute}
      {children : List Node} {endTag : Option Span}
      (h : ElementPlaced t span name startTag attributes children endTag)
      (hchildren : ∀ n ∈ children, n.Placed t) :
      Placed t (.element span name startTag attributes children endTag)

/-- The nodes are in place and follow each other between the offsets `a` and `b`. -/
structure Node.InOrder (t : Text) (a b : Nat) (nodes : List Node) : Prop where
  spans : Span.InOrder t a b (nodes.map Node.span)
  placed : ∀ n ∈ nodes, n.Placed t

variable {t : Text}

theorem Node.Placed.isPiece {n : Node} (h : n.Placed t) :
  n.span.IsPiece t
  := by
  cases h with
  | text h => exact h
  | comment h => exact h
  | doctype h => exact h
  | element h => exact h.isPiece

/-- A leaf is in place. -/
theorem IsLeaf.placed {n : Node} (h : IsLeaf t n) :
  n.Placed t
  := by
  cases h with
  | text h => exact .text h
  | comment h => exact .comment h
  | doctype h => exact .doctype h
  | element h hattributes =>
      refine .element ⟨h, h, rfl, Nat.le_refl _, Nat.le_refl _, hattributes, .nil t _ _, ?_⟩ ?_
      · simp
      · simp

theorem Node.InOrder.mono {a b c : Nat} {nodes : List Node} (h : Node.InOrder t a b nodes)
    (hbc : b ≤ c) :
  Node.InOrder t a c nodes
  := ⟨h.spans.mono (Nat.le_refl a) hbc, h.placed⟩

/-- A node may follow after the others. -/
theorem Node.InOrder.concat {a b c : Nat} {nodes : List Node} {n : Node}
    (h : Node.InOrder t a b nodes) (hn : n.Placed t) (hab : a ≤ b) (hstart : b ≤ n.span.start)
    (hstop : n.span.stop ≤ c) :
  Node.InOrder t a c (nodes ++ [n])
  := by
  have hforward := hn.isPiece.nonempty
  constructor
  · rw [List.map_append]
    exact h.spans.append (.singleton hn.isPiece hstart hstop) hab (by omega)
  · exact List.forall_mem_append.mpr ⟨h.placed, by simpa using hn⟩

/-! ### Open elements -/

/-- The parts of an open element are in place, with its nodes up to the offset `stop`. -/
structure Open.Placed (t : Text) (stop : Nat) (e : Open) : Prop where
  isPiece : e.startTag.IsPiece t
  startTag_stop : e.startTag.stop ≤ stop
  attributes : Attribute.InOrder t e.startTag.start e.startTag.stop e.attributes
  children : Node.InOrder t e.startTag.stop stop e.children.reverse

/-- The open elements are in place, each up to the beginning of the next one and the innermost one
up to the offset `stop`, after the nodes `top` outside of them. -/
def OpenedPlaced (t : Text) (top : List Node) (stop : Nat) : List Open → Prop
  | [] => Node.InOrder t 0 stop top.reverse
  | e :: rest => e.Placed t stop ∧ OpenedPlaced t top e.startTag.start rest

/-- What was read up to an offset is in place. -/
structure Builder.Placed (t : Text) (b : Builder) (pos : Nat) : Prop where
  isBoundary : IsBoundary pos t
  opened : OpenedPlaced t b.top pos b.opened

/-- Open elements that are in place up to an offset are in place up to a later one. -/
theorem OpenedPlaced.mono {top : List Node} {opened : List Open} {a b : Nat}
    (h : OpenedPlaced t top a opened) (hab : a ≤ b) :
  OpenedPlaced t top b opened
  := by
  cases opened with
  | nil => exact Node.InOrder.mono h hab
  | cons e rest =>
      obtain ⟨he, hrest⟩ := h
      exact ⟨⟨he.isPiece, Nat.le_trans he.startTag_stop hab, he.attributes, he.children.mono hab⟩,
        hrest⟩

namespace Builder.Placed

variable {b : Builder} {pos stop : Nat}

theorem start (t : Text) :
  Placed t {} 0
  := ⟨isBoundary_zero t, .nil t 0 0, by simp⟩

/-- A node may be added after what was read. -/
theorem add {n : Node} (h : OpenedPlaced t b.top pos b.opened) (hn : n.Placed t)
    (hstart : pos ≤ n.span.start) (hstop : n.span.stop ≤ stop) :
  OpenedPlaced t (b.add n).top stop (b.add n).opened
  := by
  rw [Builder.add]
  split
  · next hopened =>
      rw [hopened] at h
      dsimp only
      rw [hopened, OpenedPlaced, List.reverse_cons]
      exact h.concat hn (Nat.zero_le _) hstart hstop
  · next e rest hopened =>
      rw [hopened] at h
      obtain ⟨he, hrest⟩ := h
      have hforward := hn.isPiece.nonempty
      have hlast := he.startTag_stop
      refine ⟨⟨he.isPiece, ?_, he.attributes, ?_⟩, hrest⟩
      · dsimp only
        omega
      · rw [List.reverse_cons]
        exact he.children.concat hn hlast hstart hstop

/-- The innermost open element may be closed. -/
theorem close {endTag : Option Span} (h : b.Placed t pos) (hpos : pos ≤ stop)
    (hboundary : IsBoundary stop t) (hcontent : (endTag.map (·.start)).getD stop = pos)
    (hend : ∀ span ∈ endTag, ∀ e ∈ b.opened.head?,
      span.IsPiece t ∧ span.stop = stop ∧ IsEndTag t span e.name) :
  (b.close stop endTag).Placed t stop
  := by
  obtain ⟨-, hopened⟩ := h
  refine ⟨hboundary, ?_⟩
  rw [Builder.close]
  split
  · next hnil =>
      exact hopened.mono hpos
  · next e rest hcons =>
      rw [hcons] at hopened hend
      obtain ⟨he, hrest⟩ := hopened
      have hforward := he.isPiece.nonempty
      have hlast := he.startTag_stop
      rw [Nat.max_eq_left (Nat.le_trans hlast hpos)]
      apply add (b := { b with opened := rest }) hrest _ (Nat.le_refl _) (Nat.le_refl _)
      have hstop : contentStop ⟨e.startTag.start, stop⟩ endTag = pos := hcontent
      refine .element ⟨⟨?_, he.isPiece.onBoundaries.1, hboundary⟩, he.isPiece, rfl, ?_, ?_,
        he.attributes, ?_, ?_⟩ he.children.placed
      · dsimp only
        omega
      · rw [hstop]
        exact hlast
      · rw [hstop]
        exact hpos
      · rw [hstop]
        exact he.children.spans
      · intro span hspan
        exact hend span hspan e rfl

end Builder.Placed

/-- A step keeps what was read in place. -/
theorem Step.placed {s s' : Builder × Nat} (hstep : Step t s s') (h : s.1.Placed t s.2) :
  s'.1.Placed t s'.2
  := by
  cases hstep with
  | note b pos i => exact ⟨h.isBoundary, h.opened⟩
  | add b hn =>
      exact ⟨hn.placed.isPiece.onBoundaries.2,
        Builder.Placed.add h.opened hn.placed (Nat.le_refl _) (Nat.le_refl _)⟩
  | @flatten b _ name _ hspan hattributes =>
      have hopened : OpenedPlaced t b.top _ b.opened := h.opened
      exact ⟨hspan.onBoundaries.2, Builder.Placed.add (b := { b with flattened := _ }) hopened
        (IsLeaf.element hspan hattributes).placed (Nat.le_refl _) (Nat.le_refl _)⟩
  | enter b name hspan hattributes =>
      have hinside : Open.Placed t _ ⟨name, _, _, []⟩ :=
        ⟨hspan, Nat.le_refl _, hattributes, .nil t _ _, by simp⟩
      exact ⟨hspan.onBoundaries.2, hinside, h.opened⟩
  | leave b pos => exact h.close (Nat.le_refl _) h.isBoundary rfl (by simp)
  | finish b hspan hend hopened =>
      apply h.close (Nat.le_of_lt hspan.nonempty) hspan.onBoundaries.2 rfl
      intro span' hspan' e he
      obtain rfl := Option.some.inj hspan'
      rw [hopened] at he
      obtain rfl := Option.some.inj he
      exact ⟨hspan, rfl, hend⟩
  | forget b pos => exact ⟨h.isBoundary, h.opened⟩
  | absorb b hspan => exact ⟨hspan.onBoundaries.2, h.opened.mono (Nat.le_of_lt hspan.nonempty)⟩
  | pass b hspan => exact ⟨hspan.onBoundaries.2, h.opened.mono (Nat.le_of_lt hspan.nonempty)⟩

/-- A run of steps keeps what was read in place. -/
theorem Steps.placed {s s' : Builder × Nat} (hsteps : Steps t s s') (h : s.1.Placed t s.2) :
  s'.1.Placed t s'.2
  := by
  induction hsteps with
  | refl => exact h
  | tail _ hstep ih => exact hstep.placed ih

/-- The nodes of a document are in place and follow each other. -/
theorem inOrder_ofText (t : Text) :
  Node.InOrder t 0 (width t) (Document.ofText t).children
  := by
  obtain ⟨b, hsteps, hclosed, hdocument⟩ := exists_steps_ofText t
  have hopened := (hsteps.placed (.start t)).opened
  rw [hclosed] at hopened
  rw [hdocument]
  exact hopened

end Stencil.Markup
