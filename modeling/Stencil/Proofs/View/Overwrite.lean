import Stencil.Proofs.View.Markup

/-!
# What the markup view writes

The markup view writes over a tag at the place of the tag, and whichever form the writing takes,
it has only spaces, underscores, the marks of block comments and the line terminators of the tag.
What is written depends on the document only through the texts of the tag and of its code.
-/

namespace Stencil

open Text

/-! ### The characters that are written -/

/-- The character is one that may stand over a tag. -/
def isNeutral (c : Char) : Bool := c == ' ' || c == '_' || c == '/' || c == '*' || isLineBreak c

/-- The text has only characters that may stand over a tag. -/
def Text.Neutral (t : Text) : Prop := ∀ c ∈ t, isNeutral c = true

instance Text.decidableNeutral (t : Text) : Decidable t.Neutral :=
  decidable_of_iff (t.all isNeutral = true) List.all_eq_true

namespace Text.Neutral

theorem append {s t : Text} (hs : Neutral s) (ht : Neutral t) :
  Neutral (s ++ t)
  := List.forall_mem_append.mpr ⟨hs, ht⟩

theorem cons {c : Char} {t : Text} (hc : isNeutral c = true) (ht : Neutral t) :
  Neutral (c :: t)
  := List.forall_mem_cons.mpr ⟨hc, ht⟩

theorem replicate (n : Nat) {c : Char} (hc : isNeutral c = true) :
  Neutral (List.replicate n c)
  := by
  intro d hd
  rwa [List.eq_of_mem_replicate hd]

theorem spaces (n : Nat) :
  Neutral (spaces n)
  := replicate n (by decide)

theorem blankChar (c : Char) :
  Neutral (blankChar c)
  := by
  rw [Stencil.blankChar]
  split
  · next hbreak =>
      apply cons (by simp [isNeutral, hbreak])
      simp [Neutral]
  · apply spaces

theorem blank (t : Text) :
  Neutral (blank t)
  := by
  induction t with
  | nil => simp [Neutral, Stencil.blank]
  | cons c t ih => exact append (blankChar c) ih

end Text.Neutral

/-- A comment is neutral if its lead is. -/
theorem neutral_of_commentOver? {head : Nat} {lead t s : Text} (hlead : lead.Neutral)
    (h : commentOver? head lead t = some s) :
  s.Neutral
  := by
  have hopening : Neutral ['/', '*'] := by decide
  have hclosing : Neutral ['*', '/'] := by decide
  simp only [commentOver?] at h
  split at h
  · cases h
  · split at h
    · cases h
    · obtain rfl := Option.some.inj h
      exact ((((hlead.append hopening).append (.spaces _)).append (.blank _)).append
        (.spaces _)).append hclosing

theorem neutral_underscoreOver (t : Text) :
  (underscoreOver t).Neutral
  := by
  induction t with
  | nil => simp [Text.Neutral, underscoreOver]
  | cons c t ih =>
      unfold underscoreOver
      split
      · exact .append (.blankChar c) ih
      · exact .append (.cons (by decide) (.spaces _)) (.blank t)

theorem neutral_overwriteEvaluate (t : Text) :
  (overwriteEvaluate t).Neutral
  := by
  have hlead : Text.Neutral [] := by decide
  unfold overwriteEvaluate
  cases h : commentOver? 2 [] t with
  | none => exact .blank t
  | some s => exact neutral_of_commentOver? hlead h

theorem neutral_overwriteOutput (t code : Text) :
  (overwriteOutput t code).Neutral
  := by
  have hlead : Text.Neutral ['_'] := by decide
  unfold overwriteOutput
  split
  · cases h : commentOver? 3 ['_'] t with
    | none => exact neutral_underscoreOver t
    | some s => exact neutral_of_commentOver? hlead h
  · exact .replicate _ (by decide)

/-- What is written over a tag is neutral. -/
theorem neutral_overwriteTag (document : Text) (striped : List Span) (tag : Tag) :
  (overwriteTag document striped tag).Neutral
  := by
  dsimp only [overwriteTag]
  split
  · apply Text.Neutral.blank
  · split
    · apply neutral_overwriteOutput
    · apply neutral_overwriteEvaluate

/-! ### What the writing depends on -/

theorem overwriteTag_of_intersects {document : Text} {striped : List Span} {tag : Tag}
    (h : striped.any (·.intersects tag.span) = true) :
  overwriteTag document striped tag = blank (tag.span.text document)
  := by
  rw [overwriteTag, if_pos h]

/-- Over a tag that is not hidden the same is written in two documents in which the tag and its
code have the same texts. -/
theorem overwriteTag_eq_of_not_intersects {document other : Text} {striped : List Span} {tag : Tag}
    (h : striped.any (·.intersects tag.span) = false)
    (hspan : tag.span.text other = tag.span.text document)
    (hcode : tag.code.text other = tag.code.text document) :
  overwriteTag other striped tag = overwriteTag document [] tag
  := by
  simp [overwriteTag, h, hspan, hcode]

/-! ### The place of the writing -/

/-- What replaces a tag stands at the place of the tag, provided that the texts between the tags
keep their widths. -/
theorem exists_replaceTags_eq {document : Text} {gap : Text → Text} {piece : Tag → Text}
    (hgap : ∀ t, width (gap t) = width t) (tags : List Tag) :
    ∀ {cursor : Nat}, IsBoundary cursor document → Tag.Placed document tags →
      (∀ tag ∈ tags, cursor ≤ tag.span.start) →
      (∀ tag ∈ tags, width (piece tag) = width (tag.span.text document)) →
      ∀ tag ∈ tags, ∃ front back,
        replaceTags document gap piece cursor tags = front ++ piece tag ++ back
          ∧ cursor + width front = tag.span.start
  := by
  induction tags with
  | nil =>
      intro cursor _ _ _ _ tag htag
      cases htag
  | cons first rest ih =>
      intro cursor hcursor hplaced hnext hpiece tag htag
      obtain ⟨hforward, ⟨hstart, hstop⟩, hbefore, hrest⟩ := hplaced.of_cons
      obtain ⟨hfrom, -⟩ := List.forall_mem_cons.mp hnext
      obtain ⟨hwidth, hwidthRest⟩ := List.forall_mem_cons.mp hpiece
      have hgapWidth : width (gap (slice document cursor first.span.start))
          = first.span.start - cursor := by
        rw [hgap, width_slice hcursor hstart hfrom]
      rw [replaceTags]
      rcases List.mem_cons.mp htag with rfl | htag
      · use gap (slice document cursor tag.span.start),
          replaceTags document gap piece tag.span.stop rest, rfl
        omega
      · obtain ⟨front, back, heq, hfront⟩ :=
          ih hstop hrest hbefore hwidthRest tag htag
        use gap (slice document cursor first.span.start) ++ piece first ++ front, back
        constructor
        · rw [heq]
          simp only [List.append_assoc]
        · rw [width_append, width_append, hgapWidth, hwidth, Span.text,
            width_slice hstart hstop hforward]
          omega

section View

variable {document : Text} {tags : List Tag}

/-- The markup view has the width of the document. -/
theorem width_markupView (h : Tag.Placed document tags) (striped : List Span) :
  width (markupView document tags striped) = width document
  := by
  have happend {t s t' s' : Text} (hs : width s = width t) (hs' : width s' = width t') :
      width (s ++ s') = width (t ++ t') := by
    rw [width_append, width_append, hs, hs']
  have hgap (t : Text) : width (id t) = width t := rfl
  have hwidth := related_replaceTags (R := fun t s => width s = width t) happend hgap tags
    (isBoundary_zero document) h
    (fun _ _ => Nat.zero_le _) fun tag _ => width_overwriteTag document striped tag
  rwa [onward_zero] at hwidth

/-- What is written over a tag stands in the markup view at the place of the tag. -/
theorem exists_markupView_eq (h : Tag.Placed document tags) (striped : List Span) :
  ∀ tag ∈ tags, ∃ front back,
    markupView document tags striped = front ++ overwriteTag document striped tag ++ back
      ∧ width front = tag.span.start
  := by
  have hgap : ∀ t : Text, width (id t) = width t := fun _ => rfl
  have hpieces := exists_replaceTags_eq hgap tags (isBoundary_zero document) h
    (fun _ _ => Nat.zero_le _) fun tag _ => width_overwriteTag document striped tag
  simpa only [Nat.zero_add, markupView] using hpieces

/-- The text of the markup view at the place of a tag is what is written over the tag. -/
theorem text_markupView (h : Tag.Placed document tags) (striped : List Span) {tag : Tag}
    (htag : tag ∈ tags) :
  tag.span.text (markupView document tags striped) = overwriteTag document striped tag
  := by
  obtain ⟨front, back, heq, hfront⟩ := exists_markupView_eq h striped tag htag
  obtain ⟨hstart, hstop⟩ := h.onBoundaries tag htag
  have hforward := h.forward tag htag
  have hpiece := slice_append front (overwriteTag document striped tag) back
  rwa [width_overwriteTag, Span.text, width_slice hstart hstop hforward, hfront,
    Nat.add_sub_cancel' hforward, ← heq] at hpiece

/-- The bytes of the markup view at the place of a tag are those of what is written over it. -/
theorem getElem?_bytes_markupView_of_contains (h : Tag.Placed document tags) (striped : List Span)
    {tag : Tag} (htag : tag ∈ tags) {i : Nat} (hi : tag.span.contains i = true) :
  (bytes (markupView document tags striped))[i]?
    = (bytes (overwriteTag document striped tag))[i - tag.span.start]?
  := by
  obtain ⟨front, back, heq, hfront⟩ := exists_markupView_eq h striped tag htag
  obtain ⟨hstart, hstop⟩ := h.onBoundaries tag htag
  rw [Span.contains_iff] at hi
  have hpiece := getElem?_bytes_append front (overwriteTag document striped tag) back
    (i := i - tag.span.start) (by
      rw [width_overwriteTag, Span.text, width_slice hstart hstop (by omega)]
      omega)
  rwa [← heq, hfront, Nat.add_sub_cancel' hi.1] at hpiece

end View

end Stencil
