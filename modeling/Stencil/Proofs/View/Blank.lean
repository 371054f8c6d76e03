import Mathlib.Tactic.Use
import Stencil.Proofs.Span
import Stencil.Proofs.Text.Bytes
import Stencil.View.Blank

/-!
# What blanking keeps

A text lies over another one when it puts in place of each character a text of the same width.
Such a text has the width of the other one and at least its boundaries.  A document with ranges
blanked lies over the document, and keeps the bytes that are in none of the ranges.
-/

namespace Stencil

namespace Text

/-- A text with another text of the same width in place of each character. -/
inductive Over : Text → Text → Prop where
  | nil : Over [] []
  | cons (c : Char) {piece t s : Text} (h : width piece = c.utf8Size) (rest : Over t s) :
      Over (c :: t) (piece ++ s)

namespace Over

theorem refl (t : Text) :
  Over t t
  := by
  induction t with
  | nil => exact nil
  | cons c t ih =>
      have hc : width [c] = c.utf8Size := by simp
      apply cons c hc ih

theorem append {t s t' s' : Text} (h : Over t s) (h' : Over t' s') :
  Over (t ++ t') (s ++ s')
  := by
  induction h with
  | nil => exact h'
  | cons c hw _ ih =>
      rw [List.cons_append, List.append_assoc]
      apply cons c hw ih

theorem width_eq {t s : Text} (h : Over t s) :
  width s = width t
  := by
  induction h with
  | nil => rfl
  | cons c hw _ ih => rw [width_append, width_cons, hw, ih]

/-- A text that lies over another one has its boundaries. -/
theorem isBoundary {n : Nat} {t s : Text} (h : Over t s) (hn : IsBoundary n t) :
  IsBoundary n s
  := by
  induction h generalizing n with
  | nil => exact hn
  | @cons c piece t s hw _ ih =>
      rcases hn with rfl | ⟨hc, hn⟩
      · apply isBoundary_zero
      · have h := (ih hn).append piece
        rwa [hw, Nat.add_sub_cancel' hc] at h

end Over

end Text

open Text

/-- Blanking puts spaces over each character. -/
theorem over_blank (t : Text) :
  Over t (blank t)
  := by
  induction t with
  | nil => exact .nil
  | cons c t ih => exact .cons c (width_blankChar c) ih

/-- A range that is blanked begins and ends at boundaries, also where it is cut off by the end of
the range before it or by the end of the document. -/
theorem isBoundary_clipped {document : Text} {cursor : Nat} {range : Span}
    (hcursor : IsBoundary cursor document) (hrange : range.OnBoundaries document) :
  IsBoundary (min (max range.start cursor) (width document)) document
    ∧ IsBoundary (min range.stop (width document)) document
  := by
  obtain ⟨hstart, hstop⟩ := hrange
  have hmax : IsBoundary (max range.start cursor) document := by
    rcases Nat.le_total range.start cursor with h | h
    · rwa [Nat.max_eq_right h]
    · rwa [Nat.max_eq_left h]
  constructor
  · rwa [Nat.min_eq_left hmax.le_width]
  · rwa [Nat.min_eq_left hstop.le_width]

/-- Blanking ranges of a document puts spaces over some of its characters. -/
theorem over_blankRangesFrom {document : Text} (ranges : List Span) :
    ∀ {cursor : Nat}, IsBoundary cursor document →
      (∀ range ∈ ranges, range.OnBoundaries document) →
      Over (onward cursor document) (blankRangesFrom document cursor ranges)
  := by
  induction ranges with
  | nil =>
      intro cursor _ _
      apply Over.refl
  | cons range rest ih =>
      intro cursor hcursor hranges
      obtain ⟨hrange, hrest⟩ := List.forall_mem_cons.mp hranges
      obtain ⟨hstart, hstop⟩ := isBoundary_clipped hcursor hrange
      have hle := hcursor.le_width
      dsimp only [blankRangesFrom]
      split
      · apply ih hcursor hrest
      · rw [← slice_append_onward hcursor hstart (by omega),
          ← slice_append_onward hstart hstop (by omega), ← List.append_assoc]
        apply Over.append
        · apply Over.append (Over.refl _) (over_blank _)
        · apply ih hstop hrest

/-- Blanking ranges of a document keeps the bytes from the cursor on that are in none of the
ranges. -/
theorem getElem?_bytes_blankRangesFrom {document : Text} (ranges : List Span) :
    ∀ {cursor i : Nat}, IsBoundary cursor document →
      (∀ range ∈ ranges, range.OnBoundaries document) →
      (∀ range ∈ ranges, range.contains (cursor + i) = false) →
      (bytes (blankRangesFrom document cursor ranges))[i]? = (bytes document)[cursor + i]?
  := by
  induction ranges with
  | nil =>
      intro cursor i hcursor _ _
      apply getElem?_bytes_onward hcursor
  | cons range rest ih =>
      intro cursor i hcursor hranges hi
      obtain ⟨hrange, hrest⟩ := List.forall_mem_cons.mp hranges
      obtain ⟨hout, hi⟩ := List.forall_mem_cons.mp hi
      obtain ⟨hstart, hstop⟩ := isBoundary_clipped hcursor hrange
      have hle := hcursor.le_width
      dsimp only [blankRangesFrom]
      split
      · apply ih hcursor hrest hi
      · generalize hs : min (max range.start cursor) (width document) = start at *
        generalize he : min range.stop (width document) = stop at *
        have hfront : (bytes (slice document cursor start)).length = start - cursor := by
          rw [length_bytes, width_slice hcursor hstart (by omega)]
        have hblank : (bytes (blank (slice document start stop))).length = stop - start := by
          rw [length_bytes, width_blank, width_slice hstart hstop (by omega)]
        rw [bytes_append, bytes_append]
        by_cases hbefore : cursor + i < start
        · rw [List.getElem?_append_left (by simp only [List.length_append]; omega),
            List.getElem?_append_left (by omega), getElem?_bytes_slice hcursor hstart hbefore]
        · have hafter : stop ≤ cursor + i := by
            by_contra hin
            rw [Span.contains_iff.mpr (by omega)] at hout
            simp at hout
          have h := ih (i := cursor + i - stop) hstop hrest
            (by rwa [Nat.add_sub_cancel' hafter])
          rw [List.getElem?_append_right (by simp only [List.length_append]; omega),
            List.length_append, hfront, hblank, ← Nat.add_sub_cancel' hafter, ← h]
          congr 1
          omega

/-- A document with ranges blanked lies over the document. -/
theorem over_blankRanges {document : Text} {ranges : List Span}
    (h : ∀ range ∈ ranges, range.OnBoundaries document) :
  Over document (blankRanges document ranges)
  := by
  have hover := over_blankRangesFrom ranges (isBoundary_zero document) h
  rwa [onward_zero] at hover

/-- A document with ranges blanked has the bytes of the document that are in none of them. -/
theorem getElem?_bytes_blankRanges {document : Text} {ranges : List Span} {i : Nat}
    (h : ∀ range ∈ ranges, range.OnBoundaries document)
    (hi : ∀ range ∈ ranges, range.contains i = false) :
  (bytes (blankRanges document ranges))[i]? = (bytes document)[i]?
  := by
  have hkeep := getElem?_bytes_blankRangesFrom ranges (i := i) (isBoundary_zero document) h
  rw [Nat.zero_add] at hkeep
  apply hkeep hi

end Stencil
