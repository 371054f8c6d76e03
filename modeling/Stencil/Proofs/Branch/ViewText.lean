import Stencil.Proofs.Branch.Coverage
import Stencil.Proofs.Tag.Tiling
import Stencil.Proofs.View.Blanking
import Stencil.Proofs.View.Overwrite

/-!
# What a view shows at each offset

A view is made by blanking ranges of the document and then writing over the tags of what results.
At an offset in a hidden range, or in a tag that shares an offset with one, the view has what the
blanked document has.  At any other offset it has what the view of the whole document has: a tag
that meets no hidden range is the same in the document with the ranges blanked, and so is what is
written over it.
-/

namespace Stencil

open Text

/-- The offset is in a range that the view hides, or in a tag that shares an offset with one. -/
def View.Blanks (v : View) (tags : List Tag) (i : Nat) : Prop :=
  v.isStriped i = true
    ∨ ∃ tag ∈ tags, tag.span.contains i = true
      ∧ ∃ n, tag.span.contains n = true ∧ v.isStriped n = true

namespace Outlined

variable {o : Outlined} {settings : Settings}

theorem isStriped_viewFor_iff {target n : Nat} :
  (o.viewFor target).isStriped n = true
    ↔ ∃ r ∈ (o.viewFor target).striped, r.contains n = true
  := by
  rw [View.isStriped, List.any_eq_true]

/-- The document with the hidden ranges of a view blanked. -/
def blankedFor (o : Outlined) (target : Nat) : Text :=
  blankRanges o.document (o.viewFor target).striped

theorem placed_blankedFor (hplaced : Tag.Placed o.document o.tags)
    (hbranches : ∀ s ∈ o.branches.spans, s.OnBoundaries o.document) (target : Nat) :
  Tag.Placed (o.blankedFor target) o.tags
  := hplaced.over (over_blankRanges (onBoundaries_striped hbranches target))

/-- A view has the width of the document. -/
theorem width_viewFor (hplaced : Tag.Placed o.document o.tags)
    (hbranches : ∀ s ∈ o.branches.spans, s.OnBoundaries o.document) (target : Nat) :
  width (o.viewFor target).text = width o.document
  := by
  have hblanked := placed_blankedFor hplaced hbranches target
  rw [text_viewFor, ← blankedFor, width_markupView hblanked]
  apply (over_blankRanges (onBoundaries_striped hbranches target)).width_eq

/-! ### Offsets in tags -/

/-- A tag with a hidden offset is blanked. -/
theorem getElem?_bytes_viewFor_of_meets (hplaced : Tag.Placed o.document o.tags)
    (hbranches : ∀ s ∈ o.branches.spans, s.OnBoundaries o.document) {target i n : Nat} {tag : Tag}
    (htag : tag ∈ o.tags) (hi : tag.span.contains i = true) (hn : tag.span.contains n = true)
    (hhidden : (o.viewFor target).isStriped n = true) :
  (bytes (o.viewFor target).text)[i]? = (bytes (blank o.document))[i]?
  := by
  have hboundaries := onBoundaries_striped hbranches target
  have hblanked := placed_blankedFor hplaced hbranches target
  have hmeets : (o.viewFor target).striped.any (·.intersects tag.span) = true := by
    obtain ⟨r, hr, hrn⟩ := isStriped_viewFor_iff.mp hhidden
    rw [List.any_eq_true]
    use r, hr
    rw [Span.contains_iff] at hrn hn
    rw [Span.intersects, Bool.and_eq_true, decide_eq_true_eq, decide_eq_true_eq]
    omega
  obtain ⟨hstart, hstop⟩ := hblanked.onBoundaries tag htag
  rw [text_viewFor, ← blankedFor, getElem?_bytes_markupView_of_contains hblanked _ htag hi,
    overwriteTag_of_intersects hmeets]
  rw [Span.contains_iff] at hi
  rw [Span.text, getElem?_bytes_blank_slice hstart hstop (by omega), Nat.add_sub_cancel' hi.1,
    blankedFor, blank_blankRanges hboundaries]

/-- A tag without a hidden offset is met by no hidden range, and it and its code stand in the
document with the ranges blanked as they stand in the document. -/
theorem texts_blankedFor (htags : settings.tags o.document = .ok o.tags)
    (hbranches : ∀ s ∈ o.branches.spans, s.OnBoundaries o.document) {target : Nat} {tag : Tag}
    (htag : tag ∈ o.tags)
    (hshown : ∀ n, tag.span.contains n = true → (o.viewFor target).isStriped n ≠ true) :
  (o.viewFor target).striped.any (·.intersects tag.span) = false
    ∧ tag.span.text (o.blankedFor target) = tag.span.text o.document
    ∧ tag.code.text (o.blankedFor target) = tag.code.text o.document
  := by
  have hboundaries := onBoundaries_striped hbranches target
  obtain ⟨hnonempty, htiled⟩ := Settings.tiled_of_tags htags tag htag
  obtain ⟨hstart, hstop⟩ := (Settings.placed_tags htags).onBoundaries tag htag
  obtain ⟨hopening, hcode, hclosing⟩ := htiled.inOrder
  have hclear : ∀ r ∈ (o.viewFor target).striped, r.intersects tag.span = false := by
    intro r hr
    rw [Bool.eq_false_iff]
    intro hmeets
    obtain ⟨n, hrn, hn⟩ := (Span.intersects_iff_exists_contains
      ((Span.separated_merge _).1 r hr) hnonempty).mp hmeets
    exact hshown n hn (isStriped_viewFor_iff.mpr ⟨r, hr, hrn⟩)
  have hout : ∀ r ∈ (o.viewFor target).striped,
      r.stop ≤ tag.span.start ∨ tag.span.stop ≤ r.start := by
    intro r hr
    have hmiss := hclear r hr
    rw [Span.intersects, Bool.and_eq_false_iff, decide_eq_false_iff_not,
      decide_eq_false_iff_not] at hmiss
    omega
  refine ⟨?_, ?_, ?_⟩
  · rw [List.any_eq_false]
    intro r hr
    rw [hclear r hr]
    simp
  · apply slice_blankRanges hboundaries hstart hstop (by omega) hout
  · apply slice_blankRanges hboundaries htiled.onBoundaries.1 htiled.onBoundaries.2 hcode
    intro r hr
    have := hout r hr
    omega

/-- A tag without a hidden offset is written over as in the view of the whole document. -/
theorem overwriteTag_blankedFor (htags : settings.tags o.document = .ok o.tags)
    (hbranches : ∀ s ∈ o.branches.spans, s.OnBoundaries o.document) {target : Nat} {tag : Tag}
    (htag : tag ∈ o.tags)
    (hshown : ∀ n, tag.span.contains n = true → (o.viewFor target).isStriped n ≠ true) :
  overwriteTag (o.blankedFor target) (o.viewFor target).striped tag
    = overwriteTag o.document [] tag
  := by
  obtain ⟨hclear, hspan, hcode⟩ := texts_blankedFor htags hbranches htag hshown
  apply overwriteTag_eq_of_not_intersects hclear hspan hcode

/-! ### All offsets -/

/-- Where a view blanks, it has what the blanked document has. -/
theorem getElem?_bytes_viewFor_of_blanks (hplaced : Tag.Placed o.document o.tags)
    (hbranches : ∀ s ∈ o.branches.spans, s.OnBoundaries o.document) {target i : Nat}
    (h : (o.viewFor target).Blanks o.tags i) :
  (bytes (o.viewFor target).text)[i]? = (bytes (blank o.document))[i]?
  := by
  rcases h with hhidden | ⟨tag, htag, hi, n, hn, hhidden⟩
  · by_cases hin : ∃ tag ∈ o.tags, tag.span.contains i = true
    · obtain ⟨tag, htag, hi⟩ := hin
      exact getElem?_bytes_viewFor_of_meets hplaced hbranches htag hi hi hhidden
    · have hsorted : (o.viewFor target).striped.Pairwise fun r s => r.stop ≤ s.start :=
        (Span.separated_merge _).2.imp Nat.le_of_lt
      rw [text_viewFor, ← blankedFor, getElem?_bytes_markupView
        (placed_blankedFor hplaced hbranches target) (by simpa using hin)]
      exact getElem?_bytes_blankRanges_of_contains (onBoundaries_striped hbranches target) hsorted
        (isStriped_viewFor_iff.mp hhidden)
  · exact getElem?_bytes_viewFor_of_meets hplaced hbranches htag hi hn hhidden

/-- Where a view does not blank, it has what the view of the whole document has. -/
theorem getElem?_bytes_viewFor_of_not_blanks (htags : settings.tags o.document = .ok o.tags)
    (hbranches : ∀ s ∈ o.branches.spans, s.OnBoundaries o.document) {target i : Nat}
    (h : ¬ (o.viewFor target).Blanks o.tags i) :
  (bytes (o.viewFor target).text)[i]? = (bytes o.wholeView.text)[i]?
  := by
  have hplaced := settings.placed_tags htags
  have hblanked := placed_blankedFor hplaced hbranches target
  rw [text_viewFor, ← blankedFor, wholeView]
  by_cases hin : ∃ tag ∈ o.tags, tag.span.contains i = true
  · obtain ⟨tag, htag, hi⟩ := hin
    have hshown : ∀ n, tag.span.contains n = true → (o.viewFor target).isStriped n ≠ true :=
      fun n hn hhidden => h (Or.inr ⟨tag, htag, hi, n, hn, hhidden⟩)
    rw [getElem?_bytes_markupView_of_contains hblanked _ htag hi,
      getElem?_bytes_markupView_of_contains hplaced _ htag hi,
      overwriteTag_blankedFor htags hbranches htag hshown]
  · have hnone : ∀ tag ∈ o.tags, tag.span.contains i = false := by simpa using hin
    have hshown : ∀ r ∈ (o.viewFor target).striped, r.contains i = false := by
      intro r hr
      rw [Bool.eq_false_iff]
      exact fun hri => h (Or.inl (isStriped_viewFor_iff.mpr ⟨r, hr, hri⟩))
    rw [getElem?_bytes_markupView hblanked hnone, getElem?_bytes_markupView hplaced hnone,
      blankedFor, getElem?_bytes_blankRanges (onBoundaries_striped hbranches target) hshown]

end Outlined

namespace ViewStore

/-- Whatever a store was asked for, each of its views has the width of the document.  At an offset
in a hidden range, or in a tag that shares an offset with one, it has the byte of the blanked
document, which is a space or belongs to a line terminator of the document; at any other offset it
has the byte of the view of the whole document.  That view has the bytes of the document outside
the tags, and within the tags spaces, underscores, the marks of comments and line terminators. -/
theorem text_of_view {settings : Settings} {o : Outlined}
    (htags : settings.tags o.document = .ok o.tags)
    (hbranches : ∀ s ∈ o.branches.spans, s.OnBoundaries o.document) (queries : List Query) :
  (∀ v ∈ after o queries,
      width v.text = width o.document
        ∧ ∀ i, (v.Blanks o.tags i → (bytes v.text)[i]? = (bytes (blank o.document))[i]?)
          ∧ (¬ v.Blanks o.tags i → (bytes v.text)[i]? = (bytes o.wholeView.text)[i]?))
    ∧ (∀ i < width o.document, ∃ c, charAt? i o.document = some c
      ∧ (bytes (blank o.document))[i]?
        = if isLineBreak c then (bytes o.document)[i]? else some 32)
    ∧ width o.wholeView.text = width o.document
    ∧ (∀ i, (∀ tag ∈ o.tags, tag.span.contains i = false) →
      (bytes o.wholeView.text)[i]? = (bytes o.document)[i]?)
    ∧ ∀ tag ∈ o.tags, (tag.span.text o.wholeView.text).Neutral
  := by
  have hplaced := settings.placed_tags htags
  refine ⟨?views, ?blanked, ?width, ?outside, ?inside⟩
  case views =>
    intro v hv
    obtain ⟨target, rfl⟩ := made_after o queries v hv
    constructor
    · apply Outlined.width_viewFor hplaced hbranches
    · intro i
      constructor
      · apply Outlined.getElem?_bytes_viewFor_of_blanks hplaced hbranches
      · apply Outlined.getElem?_bytes_viewFor_of_not_blanks htags hbranches
  case blanked =>
    intro i hi
    obtain ⟨c, hc⟩ := exists_charAt? hi
    exact ⟨c, hc, getElem?_bytes_blank hc⟩
  case width => exact width_markupView hplaced []
  case outside =>
    intro i hi
    exact getElem?_bytes_markupView hplaced hi
  case inside =>
    intro tag htag
    rw [Outlined.wholeView, text_markupView hplaced [] htag]
    apply neutral_overwriteTag

theorem text_of_view_sample :
  ∃ v ∈ after .sample [.cover 104], width v.text = 114
    ∧ v.isStriped 15 = false ∧ v.Blanks Outlined.sample.tags 15 ∧ (bytes v.text)[15]? = some 32
    ∧ ¬ v.Blanks Outlined.sample.tags 14 ∧ (bytes v.text)[14]? = some 65
    ∧ ∀ tag ∈ Outlined.sample.tags, (tag.span.text Outlined.sample.wholeView.text).Neutral
  := by
  have hfound : Settings.tags {} Outlined.sample.document = .ok Outlined.sample.tags := by
    decide +kernel
  have hbranches : ∀ s ∈ Outlined.sample.branches.spans, s.OnBoundaries Outlined.sample.document :=
    by decide +kernel
  obtain ⟨hviews, -, -, houtside, hinside⟩ := text_of_view hfound hbranches [.cover 104]
  have hmem : Outlined.sample.viewFor 104 ∈ after .sample [.cover 104] := List.mem_singleton.mpr rfl
  obtain ⟨hwidth, hbytes⟩ := hviews _ hmem
  -- the tag at 15 ends in the branch that begins at 25 and is hidden
  have hstriped (n : Nat) : (Outlined.sample.viewFor 104).isStriped n
      = (Outlined.sample.pathTo 104).striped.any (·.contains n) := Span.any_contains_merge _ n
  have hmeets : (Outlined.sample.viewFor 104).Blanks Outlined.sample.tags 15 := by
    refine Or.inr ⟨.ofCode .evaluate ⟨15, 29⟩ ⟨17, 27⟩, by decide, by decide, 25, by decide, ?_⟩
    rw [hstriped]
    decide +kernel
  have hnone : ∀ tag ∈ Outlined.sample.tags, tag.span.contains 14 = false := by decide
  have hmisses : ¬ (Outlined.sample.viewFor 104).Blanks Outlined.sample.tags 14 := by
    rintro (hhidden | ⟨tag, htag, hin, -⟩)
    · rw [hstriped] at hhidden
      revert hhidden
      decide +kernel
    · rw [hnone tag htag] at hin
      cases hin
  refine ⟨_, hmem, hwidth.trans (by decide +kernel), ?_, hmeets, ?_, hmisses, ?_, hinside⟩
  · rw [hstriped]
    decide +kernel
  · rw [(hbytes 15).1 hmeets]
    decide +kernel
  · rw [(hbytes 14).2 hmisses, houtside 14 hnone]
    decide +kernel

end ViewStore

end Stencil
