import Stencil.Proofs.Markup.Geometry

/-!
# The pieces of a markup text

A markup text is cut into pieces.  Those that stand in the tree are the start tags, the end tags
that close an element, and the texts, comments and declarations; in the order of a walk through the
tree they follow each other in the text.  The others are end tags that are passed over, either with
an issue or because an element that is nested too deep for the tree takes them.
-/

namespace Stencil.Markup

open Text

mutual

/-- The pieces of a text that make up a node: the start tag of an element, the pieces of the nodes
in it and its end tag, or else the whole of the node. -/
def Node.pieces : Node → List Span
  | .element _ _ startTag _ children endTag => startTag :: (piecesAll children ++ endTag.toList)
  | .text span => [span]
  | .comment span => [span]
  | .doctype span => [span]

/-- The pieces that make up several nodes. -/
def piecesAll : List Node → List Span
  | [] => []
  | n :: rest => n.pieces ++ piecesAll rest

end

/-- The pieces that make up the open elements so far. -/
def openPieces : List Open → List Span
  | [] => []
  | e :: rest => openPieces rest ++ e.startTag :: piecesAll e.children.reverse

/-- The pieces that make up what was read so far. -/
def Builder.pieces (b : Builder) : List Span := piecesAll b.top.reverse ++ openPieces b.opened

theorem piecesAll_concat (nodes : List Node) (n : Node) :
  piecesAll (nodes ++ [n]) = piecesAll nodes ++ n.pieces
  := by
  induction nodes with
  | nil => simp [piecesAll]
  | cons first rest ih => rw [List.cons_append, piecesAll, ih, piecesAll, List.append_assoc]

theorem IsLeaf.pieces_eq {t : Text} {n : Node} (h : IsLeaf t n) :
  n.pieces = [n.span]
  := by
  cases h with
  | text | comment | doctype => rw [Node.pieces, Node.span]
  | element => rw [Node.pieces, piecesAll, Node.span, Option.toList, List.append_nil]

/-- Adding a node adds its pieces. -/
theorem pieces_add (b : Builder) (n : Node) :
  (b.add n).pieces = b.pieces ++ n.pieces
  := by
  rw [Builder.add]
  split
  · next h => simp [Builder.pieces, h, openPieces, piecesAll_concat]
  · next h => simp [Builder.pieces, h, openPieces, piecesAll_concat]

/-- Closing an element adds its end tag, if there is one. -/
theorem pieces_close (b : Builder) (stop : Nat) (endTag : Option Span)
    (hopened : endTag.isSome = true → b.opened ≠ []) :
  (b.close stop endTag).pieces = b.pieces ++ endTag.toList
  := by
  rw [Builder.close]
  split
  · next hnil =>
      cases endTag with
      | none => simp
      | some _ => exact absurd hnil (hopened rfl)
  · next h =>
      rw [pieces_add]
      simp [Builder.pieces, h, openPieces, Node.pieces]

/-! ### Elements that are nested too deep -/

/-- The node stands within a number of elements. -/
inductive Node.Within (n : Node) : Nat → List Node → Prop
  | here {nodes : List Node} (h : n ∈ nodes) : Within n 0 nodes
  | inside {depth : Nat} {nodes children : List Node} {span startTag : Span} {name : Text}
      {attributes : List Attribute} {endTag : Option Span}
      (h : .element span name startTag attributes children endTag ∈ nodes)
      (hchildren : Within n depth children) : Within n (depth + 1) nodes

/-- An element with the given start tag is so deep in the tree that it was not opened: whatever
follows its start tag is not in it. -/
def IsFlattened (within : Nat → Node → Prop) (name : Text) (startTag : Span) : Prop :=
  name ∉ voidNames ∧ name ∉ rawNames
    ∧ ∃ attributes depth, openLimit ≤ depth
      ∧ within depth (.element startTag name startTag attributes [] none)

theorem Node.Within.mono {n : Node} {depth : Nat} {nodes nodes' : List Node}
    (h : n.Within depth nodes) (hsubset : nodes ⊆ nodes') :
  n.Within depth nodes'
  := by
  cases h with
  | here h => exact .here (hsubset h)
  | inside h hchildren => exact .inside (hsubset h) hchildren

/-- The node stands within a number of elements, some of which may be open. -/
def WithinOpen (top : List Node) (depth : Nat) (n : Node) : List Open → Prop
  | [] => n.Within depth top
  | e :: rest =>
    WithinOpen top depth n rest ∨ ∃ k, depth = rest.length + 1 + k ∧ n.Within k e.children

/-- The node was read and stands within a number of elements. -/
def Builder.Within (b : Builder) (depth : Nat) (n : Node) : Prop :=
  WithinOpen b.top depth n b.opened

section Within

variable {b : Builder} {n added : Node} {depth k : Nat}

/-- Adding a node keeps the others. -/
theorem Builder.Within.add (h : b.Within depth n) (added : Node) :
  (b.add added).Within depth n
  := by
  rw [Builder.Within] at h
  rw [Builder.add]
  split
  · next hnil =>
      rw [hnil] at h
      rw [Builder.Within]
      dsimp only
      rw [hnil]
      exact Node.Within.mono h (List.subset_cons_self _ _)
  · next e rest hcons =>
      rw [hcons] at h
      rcases h with h | ⟨k, hk, h⟩
      · exact Or.inl h
      · exact Or.inr ⟨k, hk, h.mono (List.subset_cons_self _ _)⟩

/-- Adding a node adds the nodes in it, within the open elements. -/
theorem within_add (h : n.Within k [added]) :
  (b.add added).Within (b.opened.length + k) n
  := by
  have hsubset (nodes : List Node) : [added] ⊆ added :: nodes := by simp
  rw [Builder.add]
  split
  · next hnil =>
      rw [Builder.Within]
      dsimp only
      rw [hnil, WithinOpen, List.length_nil, Nat.zero_add]
      exact h.mono (hsubset _)
  · next e rest hcons =>
      rw [hcons, List.length_cons]
      exact Or.inr ⟨k, rfl, h.mono (hsubset _)⟩

/-- Closing an element keeps the nodes. -/
theorem Builder.Within.close (h : b.Within depth n) (stop : Nat) (endTag : Option Span) :
  (b.close stop endTag).Within depth n
  := by
  rw [Builder.Within] at h
  rw [Builder.close]
  split
  · exact h
  · next e rest hcons =>
      rw [hcons] at h
      rcases h with h | ⟨k, rfl, h⟩
      · exact Builder.Within.add (b := { b with opened := rest }) h _
      · rw [Nat.add_assoc, Nat.add_comm 1 k]
        have hchildren := h.mono (List.subset_reverse.mpr (List.Subset.refl e.children))
        exact within_add (b := { b with opened := rest }) (.inside List.mem_cons_self hchildren)

end Within

/-! ### The pieces in order -/

/-- The spans are pieces of the text of which each begins where the one before it has ended, from
the offset `a` to the offset `b`. -/
def Chain (t : Text) : Nat → List Span → Nat → Prop
  | a, [], b => a = b
  | a, s :: rest, b => s.start = a ∧ s.IsPiece t ∧ Chain t s.stop rest b

section Chain

variable {t : Text} {a b : Nat} {spans : List Span}

theorem Chain.concat (h : Chain t a spans b) {s : Span} (hs : s.IsPiece t) (hstart : s.start = b) :
  Chain t a (spans ++ [s]) s.stop
  := by
  induction spans generalizing a with
  | nil => exact ⟨hstart.trans h.symm, hs, rfl⟩
  | cons first rest ih =>
      obtain ⟨hfirst, hpiece, hrest⟩ := h
      exact ⟨hfirst, hpiece, ih hrest⟩

/-- The spans of a chain follow each other. -/
theorem Chain.inOrder (h : Chain t a spans b) :
  a ≤ b ∧ Span.InOrder t a b spans
  := by
  induction spans generalizing a with
  | nil => exact ⟨Nat.le_of_eq h, .nil t a b⟩
  | cons first rest ih =>
      obtain ⟨rfl, hpiece, hrest⟩ := h
      obtain ⟨hle, horder⟩ := ih hrest
      have hforward := Nat.le_of_lt hpiece.nonempty
      constructor
      · exact Nat.le_trans hforward hle
      · exact (Span.InOrder.singleton hpiece (Nat.le_refl _) (Nat.le_refl _)).append horder
          hforward hle

/-- Each offset from the beginning to the end of a chain is in one of its spans. -/
theorem Chain.exists_contains (h : Chain t a spans b) {i : Nat} (ha : a ≤ i) (hb : i < b) :
  ∃ s ∈ spans, s.contains i = true
  := by
  induction spans generalizing a with
  | nil =>
      obtain rfl : a = b := h
      omega
  | cons first rest ih =>
      obtain ⟨rfl, hpiece, hrest⟩ := h
      by_cases hi : i < first.stop
      · use first, List.mem_cons_self
        exact Span.contains_iff.mpr ⟨ha, hi⟩
      · obtain ⟨s, hs, hcontains⟩ := ih hrest (Nat.le_of_not_lt hi)
        use s, List.mem_cons_of_mem first hs

end Chain

/-! ### The trace of a reading -/

/-- What was read so far: the pieces in order, the start tags of elements that are nested too deep
and may still take an end tag, each with its name, and the ones that took an end tag, each with the
end tag. -/
structure Trace where
  spans : List Span
  waiting : List (Text × Span)
  absorbed : List (Span × Span)

/-- The start tags of the elements that are nested too deep, except for those that no longer
count. -/
def Trace.startTags (trace : Trace) : List Span :=
  trace.waiting.map Prod.snd ++ trace.absorbed.map Prod.fst

/-- The end tag was passed over with an issue, or because an element took it. -/
def IsPassed (t : Text) (issues : List Issue) (absorbed : List (Span × Span)) (s : Span) : Prop :=
  ∃ name, IsEndTag t s name
    ∧ (⟨.unexpectedEndTag name, s⟩ ∈ issues ∨ ∃ startTag, (startTag, s) ∈ absorbed)

/-- The trace is one of what the builder has read up to an offset. -/
structure Traced (t : Text) (b : Builder) (pos : Nat) (trace : Trace) : Prop where
  chain : Chain t 0 trace.spans pos
  pieces : b.pieces.Sublist trace.spans
  passed : ∀ s ∈ trace.spans, s ∈ b.pieces ∨ IsPassed t b.issues trace.absorbed s
  waiting : trace.waiting.map Prod.fst = b.flattened
  waiting_flattened : ∀ w ∈ trace.waiting, IsFlattened b.Within w.1 w.2
  absorbed : ∀ a ∈ trace.absorbed, a.1.stop ≤ a.2.start
    ∧ ∃ name, IsFlattened b.Within name a.1 ∧ IsEndTag t a.2 name
  before : ∀ s ∈ trace.startTags, s.stop ≤ pos
  distinct : trace.startTags.Nodup

theorem IsFlattened.mono {within within' : Nat → Node → Prop}
    (hmono : ∀ depth n, within depth n → within' depth n) {name : Text} {startTag : Span}
    (h : IsFlattened within name startTag) :
  IsFlattened within' name startTag
  := by
  obtain ⟨hvoid, hraw, attributes, depth, hdepth, hwithin⟩ := h
  exact ⟨hvoid, hraw, attributes, depth, hdepth, hmono _ _ hwithin⟩

theorem IsPassed.mono {t : Text} {issues issues' : List Issue}
    {absorbed absorbed' : List (Span × Span)} (hissues : issues ⊆ issues')
    (habsorbed : absorbed ⊆ absorbed') {s : Span} (h : IsPassed t issues absorbed s) :
  IsPassed t issues' absorbed' s
  := by
  obtain ⟨name, hend, hissue | ⟨startTag, htaken⟩⟩ := h
  · exact ⟨name, hend, Or.inl (hissues hissue)⟩
  · exact ⟨name, hend, Or.inr ⟨startTag, habsorbed htaken⟩⟩

/-- The second builder has what the first one has read. -/
structure Builder.Grows (b b' : Builder) : Prop where
  within : ∀ depth n, b.Within depth n → b'.Within depth n
  issues : b.issues ⊆ b'.issues
  flattened : b'.flattened = b.flattened

theorem grows_add (b : Builder) (n : Node) :
  b.Grows (b.add n)
  := by
  refine ⟨fun _ _ h => h.add n, ?_, ?_⟩
  · rw [Builder.add]
    split
    · apply List.Subset.refl
    · apply List.Subset.refl
  · rw [Builder.add]
    split
    · rfl
    · rfl

/-- Adding a node has nothing to do with the elements that are nested too deep. -/
theorem add_flattened (b : Builder) (name : Text) (n : Node) :
  ({ b with flattened := name :: b.flattened } : Builder).add n
    = { b.add n with flattened := name :: (b.add n).flattened }
  := by
  rw [(grows_add b n).flattened, Builder.add, Builder.add]
  cases b.opened with
  | nil => rfl
  | cons e rest => rfl

theorem grows_close (b : Builder) (stop : Nat) (endTag : Option Span) :
  b.Grows (b.close stop endTag)
  := by
  refine ⟨fun _ _ h => h.close stop endTag, ?_, ?_⟩
  · rw [Builder.close]
    split
    · apply List.Subset.refl
    · next rest _ => exact (grows_add { b with opened := rest } _).issues
  · rw [Builder.close]
    split
    · rfl
    · next rest _ => exact (grows_add { b with opened := rest } _).flattened

namespace Traced

variable {t : Text} {b b' : Builder} {pos pos' : Nat} {trace : Trace}

theorem start (t : Text) :
  Traced t {} 0 ⟨[], [], []⟩
  := by
  constructor
  all_goals simp [Chain, Builder.pieces, piecesAll, openPieces, Trace.startTags]

/-- The trace goes on when a builder grows by the pieces that were read. -/
theorem grow (h : Traced t b pos trace) (hgrows : b.Grows b') {spans : List Span}
    (hpieces : b'.pieces = b.pieces ++ spans) (hchain : Chain t 0 (trace.spans ++ spans) pos')
    (hpos : pos ≤ pos') :
  Traced t b' pos' { trace with spans := trace.spans ++ spans }
  := by
  constructor
  · exact hchain
  · rw [hpieces]
    exact h.pieces.append (List.Sublist.refl spans)
  · intro s hs
    rw [hpieces, List.mem_append]
    rcases List.mem_append.mp hs with hs | hs
    · rcases h.passed s hs with hs | hs
      · exact Or.inl (Or.inl hs)
      · exact Or.inr (hs.mono hgrows.issues (List.Subset.refl _))
    · exact Or.inl (Or.inr hs)
  · rw [hgrows.flattened]
    exact h.waiting
  · intro w hw
    exact (h.waiting_flattened w hw).mono hgrows.within
  · intro a ha
    obtain ⟨hbefore, name, hflattened, hend⟩ := h.absorbed a ha
    exact ⟨hbefore, name, hflattened.mono hgrows.within, hend⟩
  · intro s hs
    exact Nat.le_trans (h.before s hs) hpos
  · exact h.distinct

/-- The trace stays when a builder grows without reading anything. -/
theorem stay (h : Traced t b pos trace) (hgrows : b.Grows b') (hpieces : b'.pieces = b.pieces) :
  Traced t b' pos trace
  := by
  have hpieces' : b'.pieces = b.pieces ++ [] := by rw [hpieces, List.append_nil]
  have hchain : Chain t 0 (trace.spans ++ []) pos := by
    rw [List.append_nil]
    exact h.chain
  have hgrown := h.grow hgrows hpieces' hchain (Nat.le_refl pos)
  rwa [List.append_nil] at hgrown

/-- The start tag of an element that is nested too deep waits for an end tag. -/
theorem wait (h : Traced t b pos trace) {name : Text} {span : Span}
    (hflattened : IsFlattened b.Within name span) (hbefore : span.stop ≤ pos)
    (hnew : span ∉ trace.startTags) :
  Traced t { b with flattened := name :: b.flattened } pos
    { trace with waiting := (name, span) :: trace.waiting }
  := by
  constructor
  · exact h.chain
  · exact h.pieces
  · exact h.passed
  · rw [List.map_cons, h.waiting]
  · exact List.forall_mem_cons.mpr ⟨hflattened, h.waiting_flattened⟩
  · exact h.absorbed
  · exact List.forall_mem_cons.mpr ⟨hbefore, h.before⟩
  · exact List.nodup_cons.mpr ⟨hnew, h.distinct⟩

/-- The waiting start tags may be forgotten. -/
theorem forget (h : Traced t b pos trace) :
  Traced t { b with flattened := [] } pos { trace with waiting := [] }
  := by
  have hsub : (trace.absorbed.map Prod.fst).Sublist trace.startTags := List.sublist_append_right _ _
  constructor
  · exact h.chain
  · exact h.pieces
  · exact h.passed
  · rfl
  · simp
  · exact h.absorbed
  · exact fun s hs => h.before s (hsub.subset hs)
  · exact hsub.nodup h.distinct

/-- An end tag is taken by the element whose start tag waits since last. -/
theorem absorb (h : Traced t b pos trace) {name : Text} {span : Span} {rest : List Text}
    (hspan : span.IsPiece t) (hstart : span.start = pos) (hend : IsEndTag t span name)
    (hflattened : b.flattened = name :: rest) :
  ∃ trace', Traced t { b with flattened := rest } span.stop trace'
  := by
  have hwaiting := h.waiting
  rw [hflattened] at hwaiting
  obtain ⟨w, waiting, hw, rfl, hrest⟩ := List.map_eq_cons_iff.mp hwaiting
  have hforward := hspan.nonempty
  have hfirst := h.waiting_flattened w (hw ▸ List.mem_cons_self)
  have hbefore : ∀ s ∈ w.2 :: (waiting.map Prod.snd ++ trace.absorbed.map Prod.fst),
      s.stop ≤ pos := by
    simpa [Trace.startTags, hw] using h.before
  have hdistinct := h.distinct
  rw [Trace.startTags, hw] at hdistinct
  use ⟨trace.spans ++ [span], waiting, (w.2, span) :: trace.absorbed⟩
  constructor
  · exact h.chain.concat hspan hstart
  · exact h.pieces.trans (List.sublist_append_left _ _)
  · intro s hs
    rcases List.mem_append.mp hs with hs | hs
    · rcases h.passed s hs with hs | hs
      · exact Or.inl hs
      · exact Or.inr (hs.mono (List.Subset.refl _) (List.subset_cons_self _ _))
    · obtain rfl := List.mem_singleton.mp hs
      exact Or.inr ⟨w.1, hend, Or.inr ⟨w.2, List.mem_cons_self⟩⟩
  · exact hrest
  · intro v hv
    exact h.waiting_flattened v (hw ▸ List.mem_cons_of_mem w hv)
  · refine List.forall_mem_cons.mpr ⟨⟨?_, w.1, hfirst, hend⟩, h.absorbed⟩
    rw [hstart]
    exact hbefore w.2 List.mem_cons_self
  · intro s hs
    have := hbefore s (List.perm_middle.mem_iff.mp hs)
    omega
  · exact List.perm_middle.nodup_iff.mpr hdistinct

/-- An end tag that closes nothing is passed over with an issue. -/
theorem pass (h : Traced t b pos trace) {name : Text} {span : Span} (hspan : span.IsPiece t)
    (hstart : span.start = pos) (hend : IsEndTag t span name) :
  Traced t (b.note ⟨.unexpectedEndTag name, span⟩) span.stop
    { trace with spans := trace.spans ++ [span] }
  := by
  have hforward := hspan.nonempty
  constructor
  · exact h.chain.concat hspan hstart
  · exact h.pieces.trans (List.sublist_append_left _ _)
  · intro s hs
    rcases List.mem_append.mp hs with hs | hs
    · rcases h.passed s hs with hs | hs
      · exact Or.inl hs
      · exact Or.inr (hs.mono (List.subset_cons_self _ _) (List.Subset.refl _))
    · obtain rfl := List.mem_singleton.mp hs
      exact Or.inr ⟨name, hend, Or.inl List.mem_cons_self⟩
  · exact h.waiting
  · exact h.waiting_flattened
  · exact h.absorbed
  · intro s hs
    have := h.before s hs
    omega
  · exact h.distinct

end Traced

/-- A step of the reading leaves a trace. -/
theorem Step.exists_traced {t : Text} {s s' : Builder × Nat} (hstep : Step t s s') {trace : Trace}
    (h : Traced t s.1 s.2 trace) :
  ∃ trace', Traced t s'.1 s'.2 trace'
  := by
  cases hstep with
  | note b pos i =>
      exact ⟨_, h.stay ⟨fun _ _ h => h, List.subset_cons_self _ _, rfl⟩ rfl⟩
  | @add b n hn =>
      have hpieces := pieces_add b n
      rw [hn.pieces_eq] at hpieces
      exact ⟨_, h.grow (grows_add b _) hpieces (h.chain.concat hn.placed.isPiece rfl)
        (Nat.le_of_lt hn.placed.isPiece.nonempty)⟩
  | @flatten b span name attributes hspan hattributes hdepth hname =>
      let leaf : Node := .element span name span attributes [] none
      have hleaf : IsLeaf t leaf := .element hspan hattributes
      have hpieces := pieces_add b leaf
      rw [hleaf.pieces_eq] at hpieces
      have hadded := h.grow (grows_add b leaf) hpieces (h.chain.concat hspan rfl)
        (Nat.le_of_lt hspan.nonempty)
      have hdeep : IsFlattened (b.add leaf).Within name span :=
        ⟨hname.1, hname.2, attributes, _, hdepth, within_add (.here List.mem_cons_self)⟩
      have hnew : span ∉ trace.startTags := by
        intro hmem
        have hbefore : span.stop ≤ span.start := h.before span hmem
        exact Nat.not_lt_of_le hbefore hspan.nonempty
      rw [add_flattened]
      exact ⟨_, hadded.wait hdeep (Nat.le_refl _) hnew⟩
  | @enter b span name attributes hspan hattributes =>
      let entered : Builder := { b with opened := ⟨name, span, attributes, []⟩ :: b.opened }
      have hpieces : entered.pieces = b.pieces ++ [span] := by
        simp [entered, Builder.pieces, openPieces, piecesAll]
      have hgrows : b.Grows entered := ⟨fun _ _ => Or.inl, List.Subset.refl _, rfl⟩
      exact ⟨_, h.grow hgrows hpieces (h.chain.concat hspan rfl) (Nat.le_of_lt hspan.nonempty)⟩
  | leave b pos =>
      exact ⟨_, h.stay (grows_close b pos none) (by simpa using pieces_close b pos none (by simp))⟩
  | @finish b span e rest hspan hend hopened =>
      have hne : b.opened ≠ [] := by
        rw [hopened]
        apply List.cons_ne_nil
      have hpieces := pieces_close b span.stop (some span) fun _ => hne
      exact ⟨_, h.grow (grows_close b _ _) hpieces (h.chain.concat hspan rfl)
        (Nat.le_of_lt hspan.nonempty)⟩
  | forget b pos => exact ⟨_, h.forget⟩
  | absorb b hspan hend hflattened => exact h.absorb hspan rfl hend hflattened
  | pass b hspan hend => exact ⟨_, h.pass hspan rfl hend⟩

/-- A run of steps leaves a trace. -/
theorem Steps.exists_traced {t : Text} {s s' : Builder × Nat} (hsteps : Steps t s s')
    {trace : Trace} (h : Traced t s.1 s.2 trace) :
  ∃ trace', Traced t s'.1 s'.2 trace'
  := by
  induction hsteps with
  | refl => exact ⟨trace, h⟩
  | tail _ hstep ih =>
      obtain ⟨trace', h'⟩ := ih
      exact hstep.exists_traced h'

/-- An element with the given name and start tag is so deep in a document that it was not opened:
whatever follows its start tag is not in it. -/
def Document.Flattened (d : Document) : Text → Span → Prop :=
  IsFlattened fun depth n => n.Within depth d.children

/-- Every text is read as a document of its width.  The nodes of the document follow each other, and
in each element of the tree the start tag stands at its beginning with the attributes in it, the
nodes in it follow each other after the start tag up to the end tag or the end of the element, and
the end tag stands at its end; all spans end on boundaries of the text.  In the order of a walk
through the tree, the start tags, the end tags and the other nodes are pieces of the text that
follow each other.  Each other byte is in an end tag that was passed over, either with an issue or
because it was taken by an element nested too deep, of which each takes one end tag of its name
after its start tag. -/
theorem geometry_ofText (t : Text) :
  (Document.ofText t).width = width t
    ∧ Node.InOrder t 0 (width t) (Document.ofText t).children
    ∧ Span.InOrder t 0 (width t) (piecesAll (Document.ofText t).children)
    ∧ ∃ absorbed : List (Span × Span),
      (absorbed.map Prod.fst).Nodup
        ∧ (∀ a ∈ absorbed, a.1.stop ≤ a.2.start
          ∧ ∃ name, (Document.ofText t).Flattened name a.1 ∧ IsEndTag t a.2 name)
        ∧ ∀ i < width t, (∀ s ∈ piecesAll (Document.ofText t).children, s.contains i = false) →
          ∃ s, s.contains i = true ∧ s.IsPiece t ∧ IsPassed t (Document.ofText t).issues absorbed s
  := by
  have hplaced := inOrder_ofText t
  obtain ⟨b, hsteps, hclosed, hdocument⟩ := exists_steps_ofText t
  obtain ⟨trace, htrace⟩ := hsteps.exists_traced (.start t)
  obtain ⟨-, horder⟩ := htrace.chain.inOrder
  have hpieces : b.pieces = piecesAll (Document.ofText t).children := by
    rw [hdocument, Builder.pieces, hclosed, openPieces, List.append_nil]
  have hwithin (depth : Nat) (n : Node) (h : b.Within depth n) :
      n.Within depth (Document.ofText t).children := by
    rw [Builder.Within, hclosed] at h
    rw [hdocument]
    exact Node.Within.mono h (List.subset_reverse.mpr (List.Subset.refl _))
  have hissues : b.issues ⊆ (Document.ofText t).issues := by
    rw [hdocument]
    exact List.subset_reverse.mpr (List.Subset.refl _)
  refine ⟨by rw [hdocument], hplaced, ?_, trace.absorbed, ?_, ?_, ?_⟩
  · rw [← hpieces]
    exact ⟨fun s hs => horder.isPiece s (htrace.pieces.subset hs),
      fun s hs => horder.inside s (htrace.pieces.subset hs), horder.apart.sublist htrace.pieces⟩
  · exact (List.sublist_append_right _ _).nodup htrace.distinct
  · intro a ha
    obtain ⟨hbefore, name, hflattened, hend⟩ := htrace.absorbed a ha
    exact ⟨hbefore, name, hflattened.mono hwithin, hend⟩
  · intro i hi hout
    obtain ⟨s, hs, hcontains⟩ := htrace.chain.exists_contains (Nat.zero_le i) hi
    refine ⟨s, hcontains, horder.isPiece s hs, ?_⟩
    rcases htrace.passed s hs with hin | hpassed
    · rw [hout s (hpieces ▸ hin)] at hcontains
      cases hcontains
    · exact hpassed.mono hissues (List.Subset.refl _)

/-- The end tag from 4 to 8 closes nothing. -/
example :
    piecesAll (Document.ofText (Text.ofString "<p>a</b></p>")).children
      = [⟨0, 3⟩, ⟨3, 4⟩, ⟨8, 12⟩] := by
  decide +kernel

end Stencil.Markup
