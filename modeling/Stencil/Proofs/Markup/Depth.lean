import Stencil.Proofs.Markup.Pieces

/-!
# The depth of markup

The reader opens an element only while fewer than `openLimit` elements are open, unless the element
holds nothing but text.  As this text goes on to the end tag of the element, there is one such
element at most, and it is the innermost one.  This fails where the name of the end tag is longer
than that of the element: the text ends there, but the element stays open.

A start tag beyond the limit is reported unless another one still waits for its end tag.  Between
two reports, an end tag has therefore closed an element, or was that of the first of the two start
tags.
-/

namespace Stencil.Markup

open Text

/-- The node is an element. -/
def Node.isElement : Node → Bool
  | .element .. => true
  | _ => false

/-! ### Nodes within a builder -/

section Within

variable {b : Builder} {n added : Node} {depth k : Nat}

theorem Node.Within.of_subset_append {nodes first second : List Node} (h : n.Within k nodes)
    (hnodes : nodes ⊆ first ++ second) :
  n.Within k first ∨ n.Within k second
  := by
  cases h with
  | here hmem =>
      rcases List.mem_append.mp (hnodes hmem) with hmem | hmem
      · exact Or.inl (.here hmem)
      · exact Or.inr (.here hmem)
  | inside hmem hchildren =>
      rcases List.mem_append.mp (hnodes hmem) with hmem | hmem
      · exact Or.inl (.inside hmem hchildren)
      · exact Or.inr (.inside hmem hchildren)

/-- After a node is added, the nodes are the others and those in it. -/
theorem Builder.Within.of_add (h : (b.add added).Within depth n) :
  b.Within depth n ∨ ∃ k, depth = b.opened.length + k ∧ n.Within k [added]
  := by
  have hcons (nodes : List Node) : added :: nodes ⊆ [added] ++ nodes := List.Subset.refl _
  rw [Builder.add] at h
  split at h
  · next hnil =>
      rw [Builder.Within] at h ⊢
      dsimp only at h
      rw [hnil] at h ⊢
      rcases Node.Within.of_subset_append h (hcons _) with hin | hin
      · exact Or.inr ⟨depth, by simp, hin⟩
      · exact Or.inl hin
  · next e rest hopened =>
      rw [Builder.Within, hopened]
      rcases h with hin | ⟨k, hk, hin⟩
      · exact Or.inl (Or.inl hin)
      · rcases Node.Within.of_subset_append hin (hcons _) with hin | hin
        · exact Or.inr ⟨k, hk, hin⟩
        · exact Or.inl (Or.inr ⟨k, hk, hin⟩)

theorem not_within_nil :
  ¬n.Within depth []
  := by
  intro h
  cases h with
  | here hmem => cases hmem
  | inside hmem => cases hmem

/-- After a leaf is added, the nodes are the others and the leaf. -/
theorem Builder.Within.of_add_leaf {t : Text} (h : (b.add added).Within depth n)
    (hleaf : IsLeaf t added) :
  b.Within depth n ∨ (depth = b.opened.length ∧ n = added)
  := by
  rcases h.of_add with hin | ⟨k, rfl, hin⟩
  · exact Or.inl hin
  · cases hin with
    | here hmem => exact Or.inr ⟨rfl, List.mem_singleton.mp hmem⟩
    | inside hmem hchildren =>
        obtain rfl := List.mem_singleton.mp hmem
        cases hleaf
        exact absurd hchildren not_within_nil

/-- After an element is closed, the nodes are the others and the element. -/
theorem Builder.Within.of_close {stop : Nat} {endTag : Option Span}
    (h : (b.close stop endTag).Within depth n) :
  b.Within depth n ∨ depth < b.opened.length
  := by
  rw [Builder.close] at h
  split at h
  · exact Or.inl h
  · next e rest hopened =>
      rw [Builder.Within, hopened]
      rcases Builder.Within.of_add h with hin | ⟨k, rfl, hin⟩
      · exact Or.inl (Or.inl hin)
      · cases hin with
        | here hmem => exact Or.inr (by simp)
        | @inside depth _ _ _ _ _ _ _ hmem hchildren =>
            obtain ⟨-, -, -, -, rfl, -⟩ := Node.element.inj (List.mem_singleton.mp hmem)
            have hsubset := List.reverse_subset.mpr (List.Subset.refl e.children)
            refine Or.inl (Or.inr ⟨depth, ?_, hchildren.mono hsubset⟩)
            rw [Nat.add_assoc, Nat.add_comm 1]

end Within

/-! ### The limit on the depth -/

/-- The nodes and the open elements keep to the limit, with one element beyond it. -/
structure Builder.Fits (b : Builder) : Prop where
  nodes : ∀ depth n, b.Within depth n → depth + n.isElement.toNat ≤ openLimit + 1
  opened : b.names.length ≤ openLimit + 1

namespace Builder.Fits

variable {b : Builder}

theorem note (h : b.Fits) (i : Issue) :
  (b.note i).Fits
  := ⟨h.nodes, h.opened⟩

theorem noteUnclosed (h : b.Fits) :
  b.noteUnclosed.Fits
  := by
  rw [Builder.noteUnclosed]
  split
  · exact h
  · split
    · exact h
    · exact h.note _

theorem add {t : Text} (h : b.Fits) {n : Node} (hn : IsLeaf t n)
    (hopened : b.names.length + n.isElement.toNat ≤ openLimit + 1) :
  (b.add n).Fits
  := by
  constructor
  · intro depth m hm
    rcases hm.of_add_leaf hn with hin | ⟨rfl, rfl⟩
    · exact h.nodes depth m hin
    · simpa [Builder.names] using hopened
  · rw [names_add]
    exact h.opened

theorem close (h : b.Fits) (stop : Nat) (endTag : Option Span) :
  (b.close stop endTag).Fits
  := by
  have hlength := h.opened
  constructor
  · intro depth m hm
    rcases hm.of_close with hin | hlt
    · exact h.nodes depth m hin
    · have hone : m.isElement.toNat ≤ 1 := Bool.toNat_le _
      rw [Builder.names, List.length_map] at hlength
      omega
  · rw [names_close, List.length_tail]
    omega

theorem closeUnclosed (h : b.Fits) (stop k : Nat) :
  (b.closeUnclosed stop k).Fits
  := by
  induction k generalizing b with
  | zero => exact h
  | succ k ih => exact ih (h.noteUnclosed.close stop none)

theorem enter (h : b.Fits) (name : Text) (span : Span) (attributes : List Attribute)
    (hopened : b.names.length ≤ openLimit) :
  ({ b with opened := ⟨name, span, attributes, []⟩ :: b.opened } : Builder).Fits
  := by
  constructor
  · intro depth n hn
    rcases hn with hin | ⟨k, -, hin⟩
    · exact h.nodes depth n hin
    · exact absurd hin not_within_nil
  · simpa [Builder.names] using hopened

end Builder.Fits

theorem names_closeUnclosed (b : Builder) (stop k : Nat) :
  (b.closeUnclosed stop k).names = b.names.drop k
  := (steps_closeUnclosed (t := []) b stop k).2

theorem grows_note (b : Builder) (i : Issue) :
  b.Grows (b.note i)
  := ⟨fun _ _ h => h, List.subset_cons_self _ _, rfl⟩

theorem Builder.Grows.trans {b b' b'' : Builder} (h : b.Grows b') (h' : b'.Grows b'') :
  b.Grows b''
  := ⟨fun depth n hn => h'.within depth n (h.within depth n hn),
    List.Subset.trans h.issues h'.issues,
    h'.flattened.trans h.flattened⟩

theorem grows_closeUnclosed (b : Builder) (stop k : Nat) :
  b.Grows (b.closeUnclosed stop k)
  := by
  induction k generalizing b with
  | zero => exact ⟨fun _ _ h => h, List.Subset.refl _, rfl⟩
  | succ k ih =>
      have hnote : b.Grows b.noteUnclosed := by
        rw [Builder.noteUnclosed]
        split
        · exact ⟨fun _ _ h => h, List.Subset.refl _, rfl⟩
        · split
          · exact ⟨fun _ _ h => h, List.Subset.refl _, rfl⟩
          · exact grows_note b _
      exact (hnote.trans (grows_close _ stop none)).trans (ih _)

/-- An end tag keeps to the limit, and closes the innermost element if this has its name. -/
theorem Builder.Fits.endTag {b : Builder} (h : b.Fits) (name : Text) (span : Span) :
  (b.endTag name span).Fits ∧ (b.endTag name span).names.length ≤ b.names.length
    ∧ (b.endTag name span).flattened ⊆ b.flattened
    ∧ (name ∉ b.flattened → ∀ rest, b.names = name :: rest → (b.endTag name span).names = rest)
  := by
  rw [Builder.endTag]
  split
  · next hhead =>
      refine ⟨⟨h.nodes, h.opened⟩, Nat.le_refl _, List.tail_subset _, ?_⟩
      intro hnot
      exact absurd (List.mem_of_head? hhead) hnot
  · dsimp only
    generalize hindex : b.opened.findIdx (·.name = name) = inner
    have hforgotten : Builder.Fits { b with flattened := [] } := ⟨h.nodes, h.opened⟩
    split
    · refine ⟨(hforgotten.closeUnclosed span.start inner).close span.stop (some span), ?_, ?_, ?_⟩
      · rw [names_close, names_closeUnclosed, List.length_tail, List.length_drop]
        simp only [Builder.names]
        omega
      · rw [(grows_close _ _ _).flattened, (grows_closeUnclosed _ _ _).flattened]
        exact List.nil_subset _
      · intro _ rest hnames
        obtain ⟨e, opened, hopened, rfl, hrest⟩ := List.map_eq_cons_iff.mp hnames
        obtain rfl : inner = 0 := by
          rw [← hindex, hopened, List.findIdx_cons]
          simp
        rw [names_close, names_closeUnclosed, List.drop_zero, ← hrest]
        simp [Builder.names, hopened]
    · next hinner =>
        refine ⟨h.note _, Nat.le_refl _, List.Subset.refl _, ?_⟩
        intro _ rest hnames
        obtain ⟨e, opened, hopened, rfl, hrest⟩ := List.map_eq_cons_iff.mp hnames
        rw [hopened, List.findIdx_cons] at hindex
        simp [← hindex, hopened] at hinner

/-- The end tag of an element that a start tag closes may be left out, and so may the end tag of the
element that the start tag begins. -/
theorem mem_optionalEndNames_of_closesImplied {name opened : Text}
    (h : Builder.closesImplied name opened = true) :
  name ∈ optionalEndNames ∧ opened ∈ optionalEndNames
  := by
  have hsame : ∀ n ∈ ["li", "p", "option", "tr"].map (·.toList), n ∈ optionalEndNames := by decide
  have hcells : ∀ n ∈ ["td", "th"].map (·.toList), n ∈ optionalEndNames := by decide
  have hterms : ∀ n ∈ ["dt", "dd"].map (·.toList), n ∈ optionalEndNames := by decide
  unfold Builder.closesImplied at h
  split at h
  · next hname =>
      rw [of_decide_eq_true h]
      exact ⟨hsame name hname, hsame name hname⟩
  · split at h
    · next hname => exact ⟨hcells name hname, hcells opened (of_decide_eq_true h)⟩
    · split at h
      · next hname => exact ⟨hterms name hname, hterms opened (of_decide_eq_true h)⟩
      · cases h

/-- The end tag of the innermost element closes it, unless its start tag was passed over. -/
theorem endTag_of_opened_eq {b : Builder} {e : Open} {rest : List Open} (h : b.opened = e :: rest)
    (hflattened : b.flattened.head? ≠ some e.name) (span : Span) :
  b.endTag e.name span = { b with flattened := [] }.close span.stop (some span)
  := by
  have hindex : b.opened.findIdx (·.name = e.name) = 0 := by
    rw [h, List.findIdx_cons]
    simp
  rw [Builder.endTag, if_neg hflattened]
  dsimp only
  rw [hindex, if_pos (by simp [h])]
  rfl

theorem closeImplied_eq (b : Builder) (name : Text) (start : Nat) :
  b.closeImplied name start = b ∨ b.closeImplied name start = b.close start none
  := by
  rw [Builder.closeImplied]
  split
  · split
    · exact Or.inr rfl
    · exact Or.inl rfl
  · exact Or.inl rfl

/-- What becomes of a start tag, after it may have closed an element: it is added as a leaf, it is
added as a leaf beyond the limit with a report or without one, or it opens an element. -/
theorem startTag_cases (b : Builder) (name : Text) (span : Span) (rest : TagRest) :
  let b' := b.closeImplied name span.start
  let leaf : Node := .element span name span rest.attributes [] none
  b.startTag name span rest = (b'.add leaf, false)
    ∨ (name ∉ rawNames ∧ b'.flattened = [] ∧ b.startTag name span rest
      = (Builder.add { b'.note ⟨.tooDeep, span⟩ with flattened := [name] } leaf, false))
    ∨ (name ∉ rawNames ∧ b'.flattened ≠ [] ∧ b.startTag name span rest
      = (Builder.add { b' with flattened := name :: b'.flattened } leaf, false))
    ∨ ((b'.names.length < openLimit ∨ name ∈ rawNames) ∧ b.startTag name span rest
      = ({ b' with opened := ⟨name, span, rest.attributes, []⟩ :: b'.opened },
        decide (name ∈ rawNames)))
  := by
  rw [Builder.startTag]
  dsimp only
  generalize b.closeImplied name span.start = b'
  split
  · exact Or.inl rfl
  · apply Or.inr
    split
    · next hdeep =>
        simp only [Bool.and_eq_true, decide_eq_true_eq] at hdeep
        by_cases hempty : b'.flattened = []
        · simp [hempty, hdeep.2, Builder.note]
        · simp [hempty, hdeep.2]
    · next hshallow =>
        simp only [ge_iff_le, Bool.and_eq_true, decide_eq_true_eq, not_and, not_not] at hshallow
        refine Or.inr (Or.inr ⟨?_, rfl⟩)
        rw [Builder.names, List.length_map]
        exact (Nat.lt_or_ge b'.opened.length openLimit).imp_right hshallow

/-- The reader keeps to the limit.  Only an element that is being read and holds nothing but text is
beyond it, and it is the innermost one. -/
structure Stage.Leveled (s : Stage) : Prop where
  fits : s.builder.Fits
  opened : s.raw = none → s.builder.names.length ≤ openLimit
  raw : ∀ r ∈ s.raw, r ∈ rawNames ∧ ∃ rest, s.builder.names = r :: rest ∧ rest.length ≤ openLimit
  flattened : ∀ name ∈ s.builder.flattened, name ∉ rawNames

namespace Stage.Leveled

variable {t : Text} {b : Builder} {pos : Nat} {span : Span} {name : Text}

theorem start :
  Leveled ⟨{}, 0, none⟩
  := by
  refine ⟨⟨fun _ _ h => absurd h not_within_nil, Nat.zero_le _⟩, fun _ => Nat.zero_le _, ?_, ?_⟩
  · simp
  · simp

/-- Adding a leaf keeps to the limit. -/
theorem add (h : Leveled ⟨b, pos, none⟩) {n : Node} (hn : IsLeaf t n) (stop : Nat) :
  Leveled ⟨b.add n, stop, none⟩
  := by
  have hopened : b.names.length ≤ openLimit := h.opened rfl
  refine ⟨h.fits.add hn (Nat.add_le_add hopened (Bool.toNat_le _)), ?_, by simp, ?_⟩
  · intro _
    rw [names_add]
    exact hopened
  · rw [(grows_add b n).flattened]
    exact h.flattened

/-- A start tag keeps to the limit. -/
theorem startTag {rest : TagRest} (hspan : span.IsPiece t)
    (hrest : Attribute.InOrder t span.start span.stop rest.attributes)
    (h : Leveled ⟨b, span.start, none⟩) :
  Leveled ⟨(b.startTag name span rest).1, span.stop,
    if (b.startTag name span rest).2 then some name else none⟩
  := by
  have himplied : Leveled ⟨b.closeImplied name span.start, span.start, none⟩ := by
    rcases closeImplied_eq b name span.start with heq | heq
    · rw [heq]
      exact h
    · rw [heq]
      refine ⟨h.fits.close _ _, ?_, by simp, ?_⟩
      · intro _
        have hopened : b.names.length ≤ openLimit := h.opened rfl
        rw [names_close, List.length_tail]
        omega
      · rw [(grows_close b _ _).flattened]
        exact h.flattened
  have hcases := startTag_cases b name span rest
  dsimp only at hcases
  generalize b.closeImplied name span.start = b' at himplied hcases
  have hleaf : IsLeaf t (.element span name span rest.attributes [] none) := .element hspan hrest
  -- a start tag beyond the limit has no name of an element that holds nothing but text
  have hwait (issues : List Issue) (hname : name ∉ rawNames) :
      Leveled ⟨{ b' with flattened := name :: b'.flattened, issues := issues }, span.start, none⟩ :=
    ⟨⟨himplied.fits.nodes, himplied.fits.opened⟩, himplied.opened, by simp,
      List.forall_mem_cons.mpr ⟨hname, himplied.flattened⟩⟩
  rcases hcases with heq | ⟨hname, hempty, heq⟩ | ⟨hname, -, heq⟩ | ⟨hroom, heq⟩
  · rw [heq]
    exact himplied.add hleaf _
  · rw [heq]
    have hreported := hwait (⟨.tooDeep, span⟩ :: b'.issues) hname
    rw [hempty] at hreported
    exact hreported.add hleaf _
  · rw [heq]
    exact (hwait b'.issues hname).add hleaf _
  · rw [heq]
    have hopened : b'.names.length ≤ openLimit := himplied.opened rfl
    refine ⟨himplied.fits.enter name span rest.attributes hopened, ?_, ?_, himplied.flattened⟩
    · intro hmarkup
      have hraw : name ∉ rawNames := by simpa using hmarkup
      have hless : b'.names.length < openLimit := hroom.resolve_right hraw
      simpa [Builder.names, Nat.add_one_le_iff] using hless
    · intro r hr
      obtain ⟨hraw, rfl⟩ : name ∈ rawNames ∧ name = r := by simpa using hr
      exact ⟨hraw, b'.names, rfl, hopened⟩

end Stage.Leveled

/-- A move keeps to the limit, if no end tag has a longer name than the element whose text ends
there. -/
theorem Move.leveled {t : Text} {s s' : Stage}
    (hends : ∀ name ∈ endNames t, ∀ raw ∈ rawNames, raw <+: name → name = raw)
    (hmove : Move t s s') (h : s.Leveled) :
  s'.Leveled
  := by
  cases hmove with
  | note b pos hi => exact ⟨h.fits.note _, h.opened, by simp, h.flattened⟩
  | add b hn => exact h.add hn _
  | @text b raw span hspan =>
      refine ⟨h.fits.add (.text hspan) h.fits.opened, by simp, ?_, ?_⟩
      · rw [names_add]
        exact h.raw
      · rw [(grows_add b (.text span)).flattened]
        exact h.flattened
  | startTag b name hspan hrest => exact h.startTag hspan hrest
  | @endTag b raw span name hspan hend hname hraw =>
      obtain ⟨hfits, hfewer, hflattened, hcloses⟩ := h.fits.endTag name span
      refine ⟨hfits, ?_, by simp, ?_⟩
      · intro _
        dsimp only at hfewer hcloses ⊢
        cases raw with
        | none => exact Nat.le_trans hfewer (h.opened rfl)
        | some r =>
            obtain ⟨hr, rest, hnames, hlength⟩ := h.raw r rfl
            obtain rfl := hends name hname r hr (hraw r rfl)
            rw [hcloses (fun hmem => h.flattened _ hmem hr) rest hnames]
            exact hlength
      · exact fun name hmem => h.flattened name (hflattened hmem)

/-! ### Reports of start tags beyond the limit -/

/-- The start tags that are reported to be beyond the limit. -/
def reports (issues : List Issue) : List Span :=
  issues.filterMap fun i => if i.problem = .tooDeep then some i.span else none

theorem reports_cons {i : Issue} (h : i.problem ≠ .tooDeep) (issues : List Issue) :
  reports (i :: issues) = reports issues
  := by simp [reports, h]

theorem issues_add (b : Builder) (n : Node) :
  (b.add n).issues = b.issues
  := by
  rw [Builder.add]
  split
  · rfl
  · rfl

theorem issues_close (b : Builder) (stop : Nat) (endTag : Option Span) :
  (b.close stop endTag).issues = b.issues
  := by
  rw [Builder.close]
  split
  · rfl
  · rw [issues_add]

theorem reports_closeUnclosed (b : Builder) (stop k : Nat) :
  reports (b.closeUnclosed stop k).issues = reports b.issues
  := by
  induction k generalizing b with
  | zero => rfl
  | succ k ih =>
      rw [Builder.closeUnclosed, ih, issues_close, Builder.noteUnclosed]
      split
      · rfl
      · split
        · rfl
        · exact reports_cons (by simp) _

/-- After the start tag there is an end tag that closes an element, or has the name of the element
with this start tag. -/
def Settles (t : Text) (within : Nat → Node → Prop) (startTag endTag : Span) : Prop :=
  startTag.stop ≤ endTag.start ∧ ∃ name, IsEndTag t endTag name
    ∧ ((∃ depth span attributes children e,
          within depth (.element span name startTag attributes children e))
      ∨ ∃ depth span own startTag attributes children,
          within depth (.element span own startTag attributes children (some endTag)))

theorem IsEndTag.slash_mem {t : Text} {span : Span} {name : Text} (h : IsEndTag t span name) :
  '/' ∈ t
  := by
  obtain ⟨c, rest, htext, -⟩ := h
  apply mem_of_mem_slice (a := span.start) (b := span.stop)
  rw [Span.text] at htext
  simp [htext]

theorem Settles.mono {t : Text} {within within' : Nat → Node → Prop}
    (hmono : ∀ depth n, within depth n → within' depth n) {s e : Span}
    (h : Settles t within s e) :
  Settles t within' s e
  := by
  obtain ⟨hle, name, hend, ⟨depth, span, attributes, children, e', hin⟩
    | ⟨depth, span, own, startTag, attributes, children, hin⟩⟩ := h
  · exact ⟨hle, name, hend, Or.inl ⟨_, _, _, _, _, hmono _ _ hin⟩⟩
  · exact ⟨hle, name, hend, Or.inr ⟨_, _, _, _, _, _, hmono _ _ hin⟩⟩

/-- What was reported up to an offset, the last report first.  While no start tag beyond the limit
waits for its end tag, all reports are settled, and otherwise the first one that waits is that of
the last report. -/
structure Builder.Reported (t : Text) (b : Builder) (pos : Nat) : Prop where
  before : ∀ s ∈ reports b.issues, s.start ≤ s.stop ∧ s.stop ≤ pos
  apart : (reports b.issues).Pairwise fun later s =>
    ∃ e, Settles t b.Within s e ∧ e.stop ≤ later.start
  settled : b.flattened = [] → ∀ s ∈ reports b.issues, ∃ e, Settles t b.Within s e ∧ e.stop ≤ pos
  waiting : ∀ name ∈ b.flattened.getLast?, ∃ s ∈ (reports b.issues).head?,
    ∃ depth span attributes children e,
      b.Within depth (.element span name s attributes children e)

namespace Builder.Reported

variable {t : Text} {b b' : Builder} {pos pos' : Nat}

theorem start (t : Text) :
  Reported t {} 0
  := by
  constructor
  all_goals simp [reports]

/-- Reading goes on without a report. -/
theorem grow (h : b.Reported t pos) (hgrows : b.Grows b')
    (hreports : reports b'.issues = reports b.issues) (hpos : pos ≤ pos') :
  b'.Reported t pos'
  := by
  constructor
  · rw [hreports]
    exact fun s hs => ⟨(h.before s hs).1, Nat.le_trans (h.before s hs).2 hpos⟩
  · rw [hreports]
    exact h.apart.imp fun ⟨e, hsettles, he⟩ => ⟨e, hsettles.mono hgrows.within, he⟩
  · rw [hreports, hgrows.flattened]
    intro hempty s hs
    obtain ⟨e, hsettles, he⟩ := h.settled hempty s hs
    exact ⟨e, hsettles.mono hgrows.within, Nat.le_trans he hpos⟩
  · rw [hreports, hgrows.flattened]
    intro name hname
    obtain ⟨s, hs, depth, span, attributes, children, e, hin⟩ := h.waiting name hname
    exact ⟨s, hs, depth, span, attributes, children, e, hgrows.within _ _ hin⟩

/-- A start tag beyond the limit waits for its end tag, and it is reported if no other one waits. -/
theorem wait (h : b.Reported t pos) (name : Text) {span : Span} (attributes : List Attribute)
    (hspan : span.IsPiece t) (hstart : span.start = pos) :
  let leaf : Node := .element span name span attributes [] none
  (b.flattened = [] → Reported t
      (Builder.add { b.note ⟨.tooDeep, span⟩ with flattened := [name] } leaf) span.stop)
    ∧ (b.flattened ≠ [] → Reported t
      (Builder.add { b with flattened := name :: b.flattened } leaf) span.stop)
  := by
  have hforward := hspan.nonempty
  constructor
  · intro hempty
    let reported : Builder := { b.note ⟨.tooDeep, span⟩ with flattened := [name] }
    let leaf : Node := .element span name span attributes [] none
    have hgrows : reported.Grows (reported.add leaf) := grows_add _ _
    have hreports : reports (reported.add leaf).issues = span :: reports b.issues := by
      rw [issues_add]
      simp [reported, reports, Builder.note]
    constructor
    · rw [hreports]
      refine List.forall_mem_cons.mpr ⟨⟨Nat.le_of_lt hforward, Nat.le_refl _⟩, fun s hs => ?_⟩
      have := h.before s hs
      omega
    · rw [hreports]
      refine List.pairwise_cons.mpr ⟨fun s hs => ?_, ?_⟩
      · obtain ⟨e, hsettles, he⟩ := h.settled hempty s hs
        exact ⟨e, hsettles.mono hgrows.within, hstart ▸ he⟩
      · exact h.apart.imp fun ⟨e, hsettles, he⟩ => ⟨e, hsettles.mono hgrows.within, he⟩
    · rw [hgrows.flattened]
      simp [reported]
    · rw [hgrows.flattened, hreports]
      intro last hlast
      obtain rfl : name = last := by simpa [reported] using hlast
      exact ⟨span, rfl, _, _, _, _, _, within_add (.here List.mem_cons_self)⟩
  · intro hnonempty
    have hwaiting : Reported t { b with flattened := name :: b.flattened } pos := by
      refine ⟨h.before, h.apart, by simp, ?_⟩
      rw [List.getLast?_cons_of_ne_nil hnonempty]
      exact h.waiting
    apply hwaiting.grow (grows_add _ _) (by rw [issues_add])
    omega

theorem startTag (h : b.Reported t pos) {name : Text} {span : Span} {rest : TagRest}
    (hspan : span.IsPiece t) (hstart : span.start = pos) :
  (b.startTag name span rest).1.Reported t span.stop
  := by
  have hforward := hspan.nonempty
  have himplied : (b.closeImplied name span.start).Reported t pos := by
    rcases closeImplied_eq b name span.start with heq | heq
    · rw [heq]
      exact h
    · rw [heq]
      exact h.grow (grows_close _ _ _) (by rw [issues_close]) (Nat.le_refl pos)
  have hcases := startTag_cases b name span rest
  dsimp only at hcases
  generalize b.closeImplied name span.start = b' at himplied hcases
  obtain ⟨hfirst, hlater⟩ := himplied.wait name rest.attributes hspan hstart
  rcases hcases with heq | ⟨-, hempty, heq⟩ | ⟨-, hnonempty, heq⟩ | ⟨-, heq⟩
  · rw [heq]
    exact himplied.grow (grows_add _ _) (by rw [issues_add]) (by omega)
  · rw [heq]
    exact hfirst hempty
  · rw [heq]
    exact hlater hnonempty
  · rw [heq]
    exact himplied.grow ⟨fun _ _ => Or.inl, List.Subset.refl _, rfl⟩ rfl (by omega)

/-- The end tag of the start tag that waits settles the last report. -/
theorem absorb (h : b.Reported t pos) {name : Text} {rest : List Text} {span : Span}
    (hspan : span.IsPiece t) (hend : IsEndTag t span name) (hstart : span.start = pos)
    (hflattened : b.flattened = name :: rest) :
  Reported t { b with flattened := rest } span.stop
  := by
  have hforward := hspan.nonempty
  constructor
  · intro s hs
    have := h.before s hs
    omega
  · exact h.apart
  · rintro rfl s hs
    obtain ⟨last, hlast, depth, whole, attributes, children, e, hin⟩ :=
      h.waiting name (by simp [hflattened])
    obtain ⟨older, holder⟩ := List.head?_eq_some_iff.mp hlast
    have hapart := h.apart
    have hlastBefore := h.before last (by simp [holder])
    dsimp only at hs
    rw [holder] at hapart hs
    rcases List.mem_cons.mp hs with rfl | hs
    · exact ⟨span, ⟨by omega, name, hend, Or.inl ⟨_, _, _, _, _, hin⟩⟩, Nat.le_refl _⟩
    · obtain ⟨e, hsettles, he⟩ := List.rel_of_pairwise_cons hapart hs
      exact ⟨e, hsettles, by omega⟩
  · dsimp only
    intro last hlast
    apply h.waiting last
    have hnonempty : rest ≠ [] := by
      rintro rfl
      simp at hlast
    rwa [hflattened, List.getLast?_cons_of_ne_nil hnonempty]

/-- An end tag that closes an element settles all reports. -/
theorem finish (h : b.Reported t pos) {name : Text} {span : Span} (hspan : span.IsPiece t)
    (hend : IsEndTag t span name) (hstart : span.start = pos) {inner : Nat}
    (hinner : inner < b.opened.length) :
  ((Builder.closeUnclosed span.start inner { b with flattened := [] }).close span.stop
    (some span)).Reported t span.stop
  := by
  have hforward := hspan.nonempty
  let forgotten : Builder := { b with flattened := [] }
  have hgrows : forgotten.Grows (forgotten.closeUnclosed span.start inner) :=
    grows_closeUnclosed _ _ _
  have hreports : reports (forgotten.closeUnclosed span.start inner).issues = reports b.issues :=
    reports_closeUnclosed _ _ _
  have hnames := names_closeUnclosed forgotten span.start inner
  change (Builder.close (forgotten.closeUnclosed span.start inner) _ _).Reported t _
  generalize forgotten.closeUnclosed span.start inner = closed at hgrows hreports hnames
  have hgrows' := hgrows.trans (grows_close closed span.stop (some span))
  obtain ⟨e, rest, hopened⟩ : ∃ e rest, closed.opened = e :: rest := by
    apply List.exists_cons_of_ne_nil
    intro hnil
    have hlength := congrArg List.length hnames
    rw [Builder.names, hnil, List.length_drop] at hlength
    simp only [forgotten, Builder.names, List.map_nil, List.length_nil, List.length_map] at hlength
    omega
  have hends : ∃ depth whole own startTag attributes children,
      (closed.close span.stop (some span)).Within depth
        (.element whole own startTag attributes children (some span)) := by
    rw [Builder.close, hopened]
    exact ⟨_, _, _, _, _, _, within_add (.here List.mem_cons_self)⟩
  constructor
  · rw [issues_close, hreports]
    intro s hs
    have := h.before s hs
    omega
  · rw [issues_close, hreports]
    apply h.apart.imp
    rintro s later ⟨e, hsettles, he⟩
    exact ⟨e, hsettles.mono hgrows'.within, he⟩
  · rw [issues_close, hreports]
    intro _ s hs
    have := h.before s hs
    exact ⟨span, ⟨by omega, name, hend, Or.inr hends⟩, Nat.le_refl _⟩
  · rw [hgrows'.flattened]
    simp [forgotten]

theorem endTag (h : b.Reported t pos) {name : Text} {span : Span} (hspan : span.IsPiece t)
    (hend : IsEndTag t span name) (hstart : span.start = pos) :
  (b.endTag name span).Reported t span.stop
  := by
  have hforward := hspan.nonempty
  rw [Builder.endTag]
  split
  · next hhead =>
      obtain ⟨rest, hrest⟩ := List.head?_eq_some_iff.mp hhead
      rw [hrest]
      exact h.absorb hspan hend hstart hrest
  · dsimp only
    split
    · next hinner => exact h.finish hspan hend hstart hinner
    · exact h.grow (grows_note _ _) (reports_cons (by simp) _) (by omega)

end Builder.Reported

/-- A move keeps the reports settled. -/
theorem Move.reported {t : Text} {s s' : Stage} (hmove : Move t s s')
    (h : s.builder.Reported t s.pos) :
  s'.builder.Reported t s'.pos
  := by
  cases hmove with
  | note b pos hi => exact h.grow (grows_note b _) (reports_cons hi _) (Nat.le_refl _)
  | add b hn =>
      exact h.grow (grows_add b _) (by rw [issues_add]) (Nat.le_of_lt hn.placed.isPiece.nonempty)
  | text b raw hspan =>
      exact h.grow (grows_add b _) (by rw [issues_add]) (Nat.le_of_lt hspan.nonempty)
  | startTag b name hspan hrest => exact h.startTag hspan rfl
  | endTag b raw hspan hend => exact h.endTag hspan hend rfl

/-- A run of moves keeps to the limit and keeps the reports settled. -/
theorem Moves.reported {t : Text} {s s' : Stage} (hmoves : Moves t s s')
    (h : s.builder.Reported t s.pos) :
  s'.builder.Reported t s'.pos
  := by
  induction hmoves with
  | refl => exact h
  | tail _ hmove ih => exact hmove.reported ih

theorem Moves.leveled {t : Text} {s s' : Stage}
    (hends : ∀ name ∈ endNames t, ∀ raw ∈ rawNames, raw <+: name → name = raw)
    (hmoves : Moves t s s') (h : s.Leveled) :
  s'.Leveled
  := by
  induction hmoves with
  | refl => exact h
  | tail _ hmove ih => exact hmove.leveled hends ih

/-- After the start tag there is an end tag that closes an element of the document, or has the name
of the element with this start tag. -/
def Document.Settles (d : Document) (t : Text) : Span → Span → Prop :=
  Markup.Settles t fun depth n => n.Within depth d.children

/-- If no end tag has a name that goes on after that of an element that holds nothing but text, no
node of a document stands in more than `openLimit` elements or is one in so many.  Between two
reports of start tags beyond the limit an end tag closes an element, or has the name of the first of
them; without such an end tag there is one report at most. -/
theorem depth_ofText (t : Text) :
  ((∀ name ∈ endNames t, ∀ raw ∈ rawNames, raw <+: name → name = raw) →
      ∀ (depth : Nat) (n : Node), n.Within depth (Document.ofText t).children →
        depth + n.isElement.toNat ≤ openLimit + 1)
    ∧ (reports (Document.ofText t).issues).Pairwise (fun s later =>
      ∃ e, (Document.ofText t).Settles t s e ∧ e.stop ≤ later.start)
    ∧ ((∀ s ∈ reports (Document.ofText t).issues, ∀ e, ¬(Document.ofText t).Settles t s e) →
      (reports (Document.ofText t).issues).length ≤ 1)
  := by
  obtain ⟨b, raw, hmoves, hdocument⟩ := exists_moves_ofText t
  have hgrows := grows_closeUnclosed b (width t) b.opened.length
  have hreports := reports_closeUnclosed b (width t) b.opened.length
  have hnames := names_closeUnclosed b (width t) b.opened.length
  have hfits : b.Fits → (b.closeUnclosed (width t) b.opened.length).Fits :=
    fun h => h.closeUnclosed _ _
  generalize b.closeUnclosed (width t) b.opened.length = closed
    at hgrows hreports hnames hfits hdocument
  have hclosed : closed.opened = [] := by
    rw [Builder.names, Builder.names, ← List.map_drop, List.drop_length, List.map_nil] at hnames
    exact List.map_eq_nil_iff.mp hnames
  have hwithin (depth : Nat) (n : Node) :
      closed.Within depth n ↔ n.Within depth (Document.ofText t).children := by
    rw [Builder.Within, hclosed, hdocument]
    have hsame (nodes : List Node) : nodes ⊆ nodes.reverse ∧ nodes.reverse ⊆ nodes :=
      ⟨List.subset_reverse.mpr (List.Subset.refl _), List.reverse_subset.mpr (List.Subset.refl _)⟩
    exact ⟨fun h => h.mono (hsame _).1, fun h => h.mono (hsame _).2⟩
  have hall : reports (Document.ofText t).issues = (reports b.issues).reverse := by
    rw [hdocument, ← hreports, reports, reports, List.filterMap_reverse]
  have hpairs : (reports (Document.ofText t).issues).Pairwise (fun s later =>
      ∃ e, (Document.ofText t).Settles t s e ∧ e.stop ≤ later.start) := by
    rw [hall, List.pairwise_reverse]
    apply (hmoves.reported (.start t)).apart.imp
    rintro later s ⟨e, hsettles, he⟩
    exact ⟨e, hsettles.mono fun depth n h => (hwithin depth n).mp (hgrows.within depth n h), he⟩
  refine ⟨fun hends depth n hn => ?_, hpairs, fun hnone => ?_⟩
  · exact (hfits (hmoves.leveled hends .start).fits).nodes depth n ((hwithin depth n).mpr hn)
  · cases hlist : reports (Document.ofText t).issues with
    | nil => exact Nat.zero_le 1
    | cons s more =>
        cases more with
        | nil => exact Nat.le_refl 1
        | cons later rest =>
            rw [hlist] at hpairs
            obtain ⟨e, hsettles, -⟩ := List.rel_of_pairwise_cons hpairs List.mem_cons_self
            exact absurd hsettles (hnone s (by simp [hlist]) e)

/-- The start tag of one element beyond the limit is reported, and no end tag comes after it. -/
theorem depth_ofText_sample :
  let t : Text := (List.replicate openLimit "<rp>".toList).flatten ++ "<b>x<i>".toList
  (∀ (depth : Nat) (n : Node), n.Within depth (Document.ofText t).children →
      depth + n.isElement.toNat ≤ openLimit + 1)
    ∧ (reports (Document.ofText t).issues).length ≤ 1
  := by
  intro t
  have h := depth_ofText t
  refine ⟨h.1 (by decide +kernel), h.2.2 ?_⟩
  rintro s - e ⟨-, name, hend, -⟩
  have hslash : '/' ∉ t := by decide +kernel
  exact hslash hend.slash_mem

/-- An element stands within the given number of elements. -/
def reaches : Nat → List Node → Bool
  | 0, nodes => nodes.any Node.isElement
  | depth + 1, nodes => nodes.any fun
    | .element _ _ _ _ children _ => reaches depth children
    | _ => false

theorem exists_within_of_reaches {depth : Nat} {nodes : List Node}
    (h : reaches depth nodes = true) :
  ∃ n : Node, n.isElement = true ∧ n.Within depth nodes
  := by
  induction depth generalizing nodes with
  | zero =>
      obtain ⟨n, hn, helement⟩ := List.any_eq_true.mp h
      exact ⟨n, helement, .here hn⟩
  | succ depth ih =>
      obtain ⟨n, hn, hchildren⟩ := List.any_eq_true.mp h
      cases n with
      | element span name startTag attributes children endTag =>
          obtain ⟨m, helement, hm⟩ := ih hchildren
          exact ⟨m, helement, .inside hn hm⟩
      | text | comment | doctype => cases hchildren

/-- Beyond the limit, two start tags are reported if each has its own end tag, and an element whose
text is ended by a longer name is open for the next one. -/
theorem reported_twice_too_deep :
  let t : Text := (List.replicate openLimit "<rp>".toList).flatten
    ++ "<b></b><b></b><title></titlex><title>".toList
  (reports (Document.ofText t).issues).length = 2
    ∧ ∃ n : Node, n.isElement = true ∧ n.Within (openLimit + 1) (Document.ofText t).children
  := by
  have h : let t : Text := (List.replicate openLimit "<rp>".toList).flatten
        ++ "<b></b><b></b><title></titlex><title>".toList
      (reports (Document.ofText t).issues).length = 2
        ∧ reaches (openLimit + 1) (Document.ofText t).children = true := by
    decide +kernel
  exact ⟨h.1, exists_within_of_reaches h.2⟩

end Stencil.Markup
