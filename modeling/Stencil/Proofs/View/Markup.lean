import Stencil.Proofs.View.Blank
import Stencil.View.Markup

/-!
# What the markup view keeps

What overwrites a tag has the width of the tag, whatever form it takes.  So the text between two
tags stays at its place in the markup view, and the bytes that are in no tag are kept.
-/

namespace Stencil

open Text

/-! ### The width of what overwrites a tag -/

/-- A text is cut into its front, its middle and its back. -/
theorem width_front_middle_back {head : Nat} {t : Text} (h : head + 2 ≤ t.length) :
  width (t.take head) + width ((t.drop head).take (t.length - head - 2))
    + width (t.drop (t.length - 2)) = width t
  := by
  have hback : t.drop (t.length - 2) = (t.drop head).drop (t.length - head - 2) := by
    rw [List.drop_drop]
    congr 1
    omega
  rw [hback, ← width_append, ← width_append, List.append_assoc, List.take_append_drop,
    List.take_append_drop]

/-- A comment over a text has its width. -/
theorem width_of_commentOver? {head : Nat} {lead t s : Text}
    (h : commentOver? head lead t = some s) :
  width s = width t
  := by
  simp only [commentOver?] at h
  split at h
  · simp at h
  · next hlong =>
      split at h
      · simp at h
      · next hfits =>
          simp only [Bool.or_eq_true, decide_eq_true_eq, not_or] at hfits
          have hcut : _ = width t := width_front_middle_back (show head + 2 ≤ t.length by omega)
          have hback := length_le_width (t.drop (t.length - 2))
          rw [List.length_drop] at hback
          have hclosing : width ['*', '/'] = 2 := rfl
          rw [← Option.some.inj h]
          simp only [width_append, width_spaces, width_blank, hclosing] at hfits ⊢
          omega

/-- An underscore over a text, blanked otherwise, has its width. -/
@[simp]
theorem width_underscoreOver (t : Text) :
  width (underscoreOver t) = width t
  := by
  induction t with
  | nil => rfl
  | cons c t ih =>
      unfold underscoreOver
      split
      · simp [ih]
      · rw [width_append, width_overwrite rfl, width_blank, width_cons]

@[simp]
theorem width_overwriteEvaluate (t : Text) :
  width (overwriteEvaluate t) = width t
  := by
  unfold overwriteEvaluate
  cases h : commentOver? 2 [] t with
  | none => simp
  | some s => simpa using width_of_commentOver? h

@[simp]
theorem width_overwriteOutput (t code : Text) :
  width (overwriteOutput t code) = width t
  := by
  unfold overwriteOutput
  split
  · cases h : commentOver? 3 ['_'] t with
    | none => simp
    | some s => simpa using width_of_commentOver? h
  · have hsize : '_'.utf8Size = 1 := rfl
    rw [width_replicate, hsize, Nat.mul_one]

/-- What overwrites a tag has its width. -/
theorem width_overwriteTag (document : Text) (striped : List Span) (tag : Tag) :
  width (overwriteTag document striped tag) = width (tag.span.text document)
  := by
  dsimp only [overwriteTag]
  split
  · simp
  · split
    · simp
    · simp

/-! ### The text between the tags -/

/-- The tags stand in a document one after the other, each between two boundaries. -/
structure Tag.Placed (document : Text) (tags : List Tag) : Prop where
  forward : ∀ tag ∈ tags, tag.span.start ≤ tag.span.stop
  onBoundaries : ∀ tag ∈ tags, tag.span.OnBoundaries document
  inOrder : tags.Pairwise fun a b => a.span.stop ≤ b.span.start

/-- The first of several tags stands before the others. -/
theorem Tag.Placed.of_cons {document : Text} {tag : Tag} {rest : List Tag}
    (h : Tag.Placed document (tag :: rest)) :
  tag.span.start ≤ tag.span.stop ∧ tag.span.OnBoundaries document
    ∧ (∀ next ∈ rest, tag.span.stop ≤ next.span.start) ∧ Tag.Placed document rest
  := by
  obtain ⟨hforward, hforwardRest⟩ := List.forall_mem_cons.mp h.forward
  obtain ⟨hboundaries, hboundariesRest⟩ := List.forall_mem_cons.mp h.onBoundaries
  obtain ⟨hbefore, horder⟩ := List.pairwise_cons.mp h.inOrder
  exact ⟨hforward, hboundaries, hbefore, hforwardRest, hboundariesRest, horder⟩

/-- Tags that stand in a document stand in each text that lies over it. -/
theorem Tag.Placed.over {document text : Text} {tags : List Tag} (h : Tag.Placed document tags)
    (hover : Over document text) :
  Tag.Placed text tags
  := by
  constructor
  · exact h.forward
  · intro tag htag
    obtain ⟨hstart, hstop⟩ := h.onBoundaries tag htag
    exact ⟨hover.isBoundary hstart, hover.isBoundary hstop⟩
  · exact h.inOrder

/-- What relates the texts between the tags to what they become, and the texts of the tags to what
replaces them, relates the document to what it becomes, if it passes on to texts that are put
together. -/
theorem related_replaceTags {document : Text} {gap : Text → Text} {piece : Tag → Text}
    {R : Text → Text → Prop} (happend : ∀ {t s t' s'}, R t s → R t' s' → R (t ++ t') (s ++ s'))
    (hgap : ∀ t, R t (gap t)) (tags : List Tag) :
    ∀ {cursor : Nat}, IsBoundary cursor document → Tag.Placed document tags →
      (∀ tag ∈ tags, cursor ≤ tag.span.start) →
      (∀ tag ∈ tags, R (tag.span.text document) (piece tag)) →
      R (onward cursor document) (replaceTags document gap piece cursor tags)
  := by
  induction tags with
  | nil =>
      intro cursor _ _ _ _
      apply hgap
  | cons tag rest ih =>
      intro cursor hcursor hplaced hnext hpiece
      obtain ⟨hforward, ⟨hstart, hstop⟩, hbefore, hrest⟩ := hplaced.of_cons
      obtain ⟨hfrom, -⟩ := List.forall_mem_cons.mp hnext
      obtain ⟨hfirst, hpieceRest⟩ := List.forall_mem_cons.mp hpiece
      rw [replaceTags, ← slice_append_onward hcursor hstart hfrom,
        ← slice_append_onward hstart hstop hforward, ← List.append_assoc]
      exact happend (happend (hgap _) hfirst) (ih hstop hrest hbefore hpieceRest)

/-- Replacing tags by texts of their width keeps the bytes from the cursor on that are in none of
the tags. -/
theorem getElem?_bytes_replaceTags {document : Text} {piece : Tag → Text} (tags : List Tag) :
    ∀ {cursor i : Nat}, IsBoundary cursor document → Tag.Placed document tags →
      (∀ tag ∈ tags, cursor ≤ tag.span.start) →
      (∀ tag ∈ tags, width (piece tag) = width (tag.span.text document)) →
      (∀ tag ∈ tags, tag.span.contains (cursor + i) = false) →
      (bytes (replaceTags document id piece cursor tags))[i]? = (bytes document)[cursor + i]?
  := by
  induction tags with
  | nil =>
      intro cursor i hcursor _ _ _ _
      apply getElem?_bytes_onward hcursor
  | cons tag rest ih =>
      intro cursor i hcursor hplaced hnext hpiece hi
      obtain ⟨hforward, ⟨hstart, hstop⟩, hbefore, hrest⟩ := hplaced.of_cons
      obtain ⟨hfrom, -⟩ := List.forall_mem_cons.mp hnext
      obtain ⟨hwidth, hwidthRest⟩ := List.forall_mem_cons.mp hpiece
      obtain ⟨hout, hiRest⟩ := List.forall_mem_cons.mp hi
      have hgap : (bytes (slice document cursor tag.span.start)).length
          = tag.span.start - cursor := by
        rw [length_bytes, width_slice hcursor hstart hfrom]
      have htag : (bytes (piece tag)).length = tag.span.stop - tag.span.start := by
        rw [length_bytes, hwidth, Span.text, width_slice hstart hstop hforward]
      rw [replaceTags, id_eq, bytes_append, bytes_append]
      by_cases hin : cursor + i < tag.span.start
      · rw [List.getElem?_append_left (by simp only [List.length_append]; omega),
          List.getElem?_append_left (by omega), getElem?_bytes_slice hcursor hstart hin]
      · have hafter : tag.span.stop ≤ cursor + i := by
          by_contra hno
          rw [Span.contains_iff.mpr (by omega)] at hout
          simp at hout
        have h := ih (i := cursor + i - tag.span.stop) hstop hrest
          hbefore hwidthRest (by rwa [Nat.add_sub_cancel' hafter])
        rw [List.getElem?_append_right (by simp only [List.length_append]; omega),
          List.length_append, hgap, htag, ← Nat.add_sub_cancel' hafter, ← h]
        congr 1
        omega

/-- The markup view has the bytes of the document that are in no tag. -/
theorem getElem?_bytes_markupView {document : Text} {tags : List Tag} {striped : List Span}
    {i : Nat} (hplaced : Tag.Placed document tags)
    (hi : ∀ tag ∈ tags, tag.span.contains i = false) :
  (bytes (markupView document tags striped))[i]? = (bytes document)[i]?
  := by
  have h := getElem?_bytes_replaceTags tags (i := i) (isBoundary_zero document) hplaced
    (fun _ _ => Nat.zero_le _) (fun tag _ => width_overwriteTag document striped tag)
  rw [Nat.zero_add] at h
  apply h hi

end Stencil
