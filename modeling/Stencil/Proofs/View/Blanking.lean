import Stencil.Proofs.View.Blank

/-!
# What blanking writes

The blanked form of a text has the line terminators of the text and spaces otherwise.  A document
with ranges blanked has the bytes of the blanked document in the ranges, provided that the ranges
follow each other, and a piece of the document that meets no range stays as it is.
-/

namespace Stencil

open Text

/-! ### The blanked form of a text -/

@[simp]
theorem blank_append (s t : Text) :
  blank (s ++ t) = blank s ++ blank t
  := List.flatMap_append

theorem bytes_spaces (n : Nat) :
  bytes (spaces n) = List.replicate n 32
  := by
  induction n with
  | zero => rfl
  | succ n ih =>
      rw [spaces, List.replicate_succ, bytes_cons, List.replicate_succ]
      exact congrArg (32 :: ·) ih

/-- What is blanked has spaces and line terminators only. -/
theorem isLineBreak_or_eq_space_of_mem_blank {c : Char} {t : Text} (h : c ∈ blank t) :
  isLineBreak c = true ∨ c = ' '
  := by
  obtain ⟨d, -, hd⟩ := List.mem_flatMap.mp h
  rw [blankChar] at hd
  split at hd
  · next hbreak =>
      left
      rwa [List.mem_singleton.mp hd]
  · right
    exact List.eq_of_mem_replicate hd

@[simp]
theorem blank_spaces (n : Nat) :
  blank (spaces n) = spaces n
  := by
  induction n with
  | zero => rfl
  | succ n ih => exact congrArg (' ' :: ·) ih

@[simp]
theorem blank_blankChar (c : Char) :
  blank (blankChar c) = blankChar c
  := by
  rw [blankChar]
  split
  · next hbreak => simp [blank, blankChar, hbreak]
  · apply blank_spaces

/-- What is blank stays as it is. -/
@[simp]
theorem blank_blank (t : Text) :
  blank (blank t) = blank t
  := by
  induction t with
  | nil => rfl
  | cons c t ih =>
      rw [blank_cons, blank_append, blank_blankChar, ih]

/-- Blanking keeps the bytes of line terminators and puts spaces for all others. -/
theorem getElem?_bytes_blank {n : Nat} {c : Char} {t : Text} (h : charAt? n t = some c) :
  (bytes (blank t))[n]? = if isLineBreak c then (bytes t)[n]? else some 32
  := by
  induction t generalizing n with
  | nil => cases h
  | cons d t ih =>
      have hwidth : (bytes (blankChar d)).length = d.utf8Size := by
        rw [length_bytes, width_blankChar]
      have hsize : (String.utf8EncodeChar d).length = d.utf8Size :=
        String.length_utf8EncodeChar d
      rw [charAt?] at h
      rw [blank_cons, bytes_append, bytes_cons]
      split at h
      · next hn =>
          obtain rfl := Option.some.inj h
          rw [List.getElem?_append_left (by omega), List.getElem?_append_left (by omega), blankChar]
          split
          · rw [bytes_cons, bytes_nil, List.append_nil]
          · rw [bytes_spaces, List.getElem?_replicate_of_lt hn]
      · next hn =>
          rw [List.getElem?_append_right (by omega), List.getElem?_append_right (by omega), hwidth,
            hsize]
          apply ih h

/-- The slice of the blanked form is the blanked form of the slice. -/
theorem slice_blank {a b : Nat} {t : Text} (ha : IsBoundary a t) (hb : IsBoundary b t)
    (hab : a ≤ b) :
  slice (blank t) a b = blank (slice t a b)
  := by
  have hpiece := slice_append (blank (before a t)) (blank (slice t a b)) (blank (onward b t))
  rwa [width_blank, width_blank, width_before ha, width_slice ha hb hab, Nat.add_sub_cancel' hab,
    ← blank_append, ← blank_append, before_append_slice_append_onward ha hb hab] at hpiece

theorem onward_blank {a : Nat} {t : Text} (ha : IsBoundary a t) :
  onward a (blank t) = blank (onward a t)
  := by
  rw [← slice_width ((over_blank t).isBoundary ha), width_blank,
    slice_blank ha (isBoundary_width t) ha.le_width, slice_width ha]

/-- The blanked form of a slice has the bytes of the blanked form at its place. -/
theorem getElem?_bytes_blank_slice {a b i : Nat} {t : Text} (ha : IsBoundary a t)
    (hb : IsBoundary b t) (hi : a + i < b) :
  (bytes (blank (slice t a b)))[i]? = (bytes (blank t))[a + i]?
  := by
  rw [← slice_blank ha hb (by omega)]
  apply getElem?_bytes_slice ((over_blank t).isBoundary ha) ((over_blank t).isBoundary hb) hi

/-! ### Ranges that are blanked -/

variable {document : Text}

/-- A document with ranges blanked is blanked like the document. -/
theorem blank_blankRangesFrom (ranges : List Span) :
    ∀ {cursor : Nat}, IsBoundary cursor document →
      (∀ range ∈ ranges, range.OnBoundaries document) →
      blank (blankRangesFrom document cursor ranges) = blank (onward cursor document)
  := by
  induction ranges with
  | nil =>
      intro cursor _ _
      rfl
  | cons range rest ih =>
      intro cursor hcursor hranges
      obtain ⟨hrange, hrest⟩ := List.forall_mem_cons.mp hranges
      obtain ⟨hstart, hstop⟩ := isBoundary_clipped hcursor hrange
      have hle := hcursor.le_width
      dsimp only [blankRangesFrom]
      split
      · apply ih hcursor hrest
      · rw [blank_append, blank_append, blank_blank, ih hstop hrest, ← blank_append, ← blank_append,
          List.append_assoc, slice_append_onward hstart hstop (by omega),
          slice_append_onward hcursor hstart (by omega)]

/-- Where a range that is blanked follows the ones before it, the blanked document stands. -/
theorem getElem?_bytes_blankRangesFrom_of_contains (ranges : List Span) :
    ∀ {cursor i : Nat}, IsBoundary cursor document →
      (∀ range ∈ ranges, range.OnBoundaries document) →
      (∀ range ∈ ranges, cursor ≤ range.start) →
      (ranges.Pairwise fun r s => r.stop ≤ s.start) →
      (∃ range ∈ ranges, range.contains (cursor + i) = true) →
      (bytes (blankRangesFrom document cursor ranges))[i]? = (bytes (blank document))[cursor + i]?
  := by
  induction ranges with
  | nil =>
      intro cursor i _ _ _ _ hin
      simp at hin
  | cons range rest ih =>
      intro cursor i hcursor hranges hbehind hsorted hin
      obtain ⟨hrange, hrest⟩ := List.forall_mem_cons.mp hranges
      obtain ⟨hfrom, hfromRest⟩ := List.forall_mem_cons.mp hbehind
      obtain ⟨hbefore, hsorted⟩ := List.pairwise_cons.mp hsorted
      have hstart := hrange.1.le_width
      have hstop := hrange.2.le_width
      dsimp only [blankRangesFrom]
      rw [Nat.max_eq_left hfrom, Nat.min_eq_left hstart, Nat.min_eq_left hstop]
      split
      · -- an empty range holds nothing
        next hempty =>
          apply ih hcursor hrest hfromRest hsorted
          obtain ⟨r, hr, hri⟩ := hin
          rcases List.mem_cons.mp hr with rfl | hr
          · rw [Span.contains_iff] at hri
            omega
          · exact ⟨r, hr, hri⟩
      · next hsome =>
          have hfront : width (slice document cursor range.start) = range.start - cursor :=
            width_slice hcursor hrange.1 hfrom
          have hblank : width (blank (slice document range.start range.stop))
              = range.stop - range.start := by
            rw [width_blank, width_slice hrange.1 hrange.2 (by omega)]
          by_cases hhere : range.contains (cursor + i) = true
          · rw [Span.contains_iff] at hhere
            have hpiece := getElem?_bytes_append (slice document cursor range.start)
              (blank (slice document range.start range.stop))
              (blankRangesFrom document range.stop rest) (i := cursor + i - range.start) (by omega)
            rw [hfront, getElem?_bytes_blank_slice hrange.1 hrange.2 (by omega)] at hpiece
            rw [← Nat.add_sub_cancel' hhere.1, ← hpiece]
            congr 1
            omega
          · obtain ⟨r, hr, hri⟩ := hin
            have hr : r ∈ rest := by
              rcases List.mem_cons.mp hr with rfl | hr
              · contradiction
              · exact hr
            have hafter : range.stop ≤ cursor + i := by
              have := hbefore r hr
              rw [Span.contains_iff] at hri
              omega
            have hlater := ih (i := cursor + i - range.stop) hrange.2 hrest hbefore hsorted
              ⟨r, hr, by rwa [Nat.add_sub_cancel' hafter]⟩
            rw [Nat.add_sub_cancel' hafter] at hlater
            rw [← hlater, bytes_append, List.getElem?_append_right (by
              rw [length_bytes, width_append]; omega), length_bytes, width_append, hfront, hblank]
            congr 1
            omega

/-- A piece of a document that meets none of the ranges that are blanked stays at its place. -/
theorem exists_blankRangesFrom_eq (ranges : List Span) {a b : Nat} (ha : IsBoundary a document)
    (hb : IsBoundary b document) (hab : a ≤ b) :
    ∀ {cursor : Nat}, IsBoundary cursor document →
      (∀ range ∈ ranges, range.OnBoundaries document) → cursor ≤ a →
      (∀ range ∈ ranges, range.stop ≤ a ∨ b ≤ range.start) →
      ∃ front back, blankRangesFrom document cursor ranges = front ++ slice document a b ++ back
        ∧ cursor + width front = a
  := by
  induction ranges with
  | nil =>
      intro cursor hcursor _ hle _
      use slice document cursor a, onward b document
      constructor
      · rw [List.append_assoc, slice_append_onward ha hb hab, slice_append_onward hcursor ha hle]
        rfl
      · rw [width_slice hcursor ha hle]
        omega
  | cons range rest ih =>
      intro cursor hcursor hranges hle hout
      obtain ⟨hrange, hrest⟩ := List.forall_mem_cons.mp hranges
      obtain ⟨hhere, hout⟩ := List.forall_mem_cons.mp hout
      obtain ⟨hstart, hstop⟩ := isBoundary_clipped hcursor hrange
      have hwidth := hcursor.le_width
      have hbwidth := hb.le_width
      dsimp only [blankRangesFrom]
      split
      · apply ih hcursor hrest hle hout
      · generalize hs : min (max range.start cursor) (width document) = start at *
        generalize he : min range.stop (width document) = stop at *
        by_cases hbefore : stop ≤ a
        · obtain ⟨front, back, heq, hfront⟩ := ih hstop hrest hbefore hout
          use slice document cursor start ++ blank (slice document start stop) ++ front, back
          constructor
          · rw [heq]
            simp only [List.append_assoc]
          · rw [width_append, width_append, width_blank, width_slice hcursor hstart (by omega),
              width_slice hstart hstop (by omega)]
            omega
        · use slice document cursor a, slice document b start
            ++ (blank (slice document start stop) ++ blankRangesFrom document stop rest)
          constructor
          · rw [← slice_append_slice hcursor ha hstart hle (by omega),
              ← slice_append_slice ha hb hstart hab (by omega)]
            simp only [List.append_assoc]
          · rw [width_slice hcursor ha hle]
            omega

/-- A slice of a document that meets none of the ranges that are blanked stays as it is. -/
theorem slice_blankRanges {ranges : List Span} {a b : Nat}
    (h : ∀ range ∈ ranges, range.OnBoundaries document) (ha : IsBoundary a document)
    (hb : IsBoundary b document) (hab : a ≤ b)
    (hout : ∀ range ∈ ranges, range.stop ≤ a ∨ b ≤ range.start) :
  slice (blankRanges document ranges) a b = slice document a b
  := by
  obtain ⟨front, back, heq, hfront⟩ := exists_blankRangesFrom_eq ranges ha hb hab
    (isBoundary_zero document) h (Nat.zero_le a) hout
  have hpiece := slice_append front (slice document a b) back
  rw [width_slice ha hb hab, ← heq] at hpiece
  rw [Nat.zero_add] at hfront
  rwa [hfront, Nat.add_sub_cancel' hab] at hpiece

/-- In ranges that follow each other a document with the ranges blanked has the bytes of the blanked
document. -/
theorem getElem?_bytes_blankRanges_of_contains {ranges : List Span} {i : Nat}
    (h : ∀ range ∈ ranges, range.OnBoundaries document)
    (hsorted : ranges.Pairwise fun r s => r.stop ≤ s.start)
    (hi : ∃ range ∈ ranges, range.contains i = true) :
  (bytes (blankRanges document ranges))[i]? = (bytes (blank document))[i]?
  := by
  have hpiece := getElem?_bytes_blankRangesFrom_of_contains ranges (i := i)
    (isBoundary_zero document) h (fun _ _ => Nat.zero_le _) hsorted
  rw [Nat.zero_add] at hpiece
  apply hpiece hi

theorem blank_blankRanges {ranges : List Span}
    (h : ∀ range ∈ ranges, range.OnBoundaries document) :
  blank (blankRanges document ranges) = blank document
  := by
  have hblank := blank_blankRangesFrom ranges (isBoundary_zero document) h
  rwa [onward_zero] at hblank

end Stencil
