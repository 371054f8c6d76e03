import Stencil.Proofs.View.Blanking

/-!
# Canonical ranges

Ranges are canonical if none of them is empty and there is a gap between each of them and the next.
Canonical ranges can be told from the offsets that they hold: the least offset is the beginning of
the first range, and the least offset after that which is not held is its end.  So the merged form
of a list of spans is the only list of canonical ranges that hold what the spans hold, and it does
not depend on how often and in which order the spans are listed.  Blanking it in a document blanks
what the spans hold.
-/

namespace Stencil

open Text

namespace Span

/-- The ranges are not empty, and each of them ends before the next one begins, with a gap between
them. -/
structure IsCanonical (ranges : List Span) : Prop where
  nonempty : ∀ r ∈ ranges, r.start < r.stop
  apart : ranges.Pairwise fun r s => r.stop < s.start

/-- One of the spans holds the offset. -/
def Hold (spans : List Span) (n : Nat) : Prop := ∃ s ∈ spans, s.contains n = true

instance decidableHold (spans : List Span) (n : Nat) : Decidable (Hold spans n) :=
  decidable_of_iff (spans.any (·.contains n) = true) List.any_eq_true

theorem hold_merge_iff {spans : List Span} {n : Nat} :
  Hold (merge spans) n ↔ Hold spans n
  := by
  rw [Hold, Hold, ← List.any_eq_true, ← List.any_eq_true, any_contains_merge]

theorem isCanonical_merge (spans : List Span) :
  IsCanonical (merge spans)
  := ⟨(separated_merge spans).1, (separated_merge spans).2⟩

/-! ### Canonical ranges and the offsets that they hold -/

section

variable {r : Span} {rest : List Span}

theorem IsCanonical.tail (h : IsCanonical (r :: rest)) :
  IsCanonical rest
  := ⟨(List.forall_mem_cons.mp h.nonempty).2, (List.pairwise_cons.mp h.apart).2⟩

theorem hold_cons_iff {n : Nat} :
  Hold (r :: rest) n ↔ r.contains n = true ∨ Hold rest n
  := by
  simp [Hold]

/-- The ranges after the first one hold what all the ranges hold after its end. -/
theorem IsCanonical.hold_tail_iff (h : IsCanonical (r :: rest)) {n : Nat} :
  Hold rest n ↔ r.stop < n ∧ Hold (r :: rest) n
  := by
  constructor
  · intro hn
    obtain ⟨s, hs, hsn⟩ := hn
    have hgap := (List.pairwise_cons.mp h.apart).1 s hs
    rw [contains_iff] at hsn
    exact ⟨by omega, hold_cons_iff.mpr (Or.inr ⟨s, hs, contains_iff.mpr hsn⟩)⟩
  · rintro ⟨hafter, hn⟩
    apply (hold_cons_iff.mp hn).resolve_left
    rw [contains_iff]
    omega

/-- The first range begins at the least offset that is held. -/
theorem IsCanonical.isLeast_start (h : IsCanonical (r :: rest)) :
  Hold (r :: rest) r.start ∧ ∀ n, Hold (r :: rest) n → r.start ≤ n
  := by
  have hr : r.start < r.stop := h.nonempty r List.mem_cons_self
  constructor
  · exact hold_cons_iff.mpr (Or.inl (contains_start hr))
  · intro n hn
    rcases hold_cons_iff.mp hn with hrn | hlater
    · exact (contains_iff.mp hrn).1
    · have hafter := (h.hold_tail_iff.mp hlater).1
      omega

/-- The first range ends at the least offset from its beginning on that is not held. -/
theorem IsCanonical.isLeast_stop (h : IsCanonical (r :: rest)) :
  ¬ Hold (r :: rest) r.stop ∧ ∀ n, r.start ≤ n → ¬ Hold (r :: rest) n → r.stop ≤ n
  := by
  constructor
  · intro hstop
    rcases hold_cons_iff.mp hstop with hr | hlater
    · rw [contains_iff] at hr
      omega
    · exact Nat.lt_irrefl _ (h.hold_tail_iff.mp hlater).1
  · intro n hn hout
    by_contra hin
    apply hout
    exact hold_cons_iff.mpr (Or.inl (contains_iff.mpr ⟨hn, by omega⟩))

end

/-- Canonical ranges that hold the same offsets are the same ranges. -/
theorem IsCanonical.eq_of_hold_iff {ranges others : List Span} (h : IsCanonical ranges)
    (h' : IsCanonical others) (hsame : ∀ n, Hold ranges n ↔ Hold others n) :
  ranges = others
  := by
  induction ranges generalizing others with
  | nil =>
      cases others with
      | nil => rfl
      | cons s more =>
          have hstart := (hsame s.start).mpr h'.isLeast_start.1
          simp [Hold] at hstart
  | cons r rest ih =>
      cases others with
      | nil =>
          have hstart := (hsame r.start).mp h.isLeast_start.1
          simp [Hold] at hstart
      | cons s more =>
          have hstart : r.start = s.start := by
            apply Nat.le_antisymm
            · exact h.isLeast_start.2 _ ((hsame _).mpr h'.isLeast_start.1)
            · exact h'.isLeast_start.2 _ ((hsame _).mp h.isLeast_start.1)
          have hr := h.nonempty r List.mem_cons_self
          have hs := h'.nonempty s List.mem_cons_self
          have hstop : r.stop = s.stop := by
            apply Nat.le_antisymm
            · exact h.isLeast_stop.2 _ (by omega) (mt (hsame _).mp h'.isLeast_stop.1)
            · exact h'.isLeast_stop.2 _ (by omega) (mt (hsame _).mpr h.isLeast_stop.1)
          obtain rfl : r = s := by
            cases r
            cases s
            simp_all
          have hrest : rest = more := by
            apply ih h.tail h'.tail
            intro n
            rw [h.hold_tail_iff, h'.hold_tail_iff, hsame]
          rw [hrest]

/-- The merged form of spans is the one list of canonical ranges that hold what the spans hold. -/
theorem eq_merge_iff {ranges spans : List Span} :
  ranges = merge spans ↔ IsCanonical ranges ∧ ∀ n, Hold ranges n ↔ Hold spans n
  := by
  constructor
  · rintro rfl
    exact ⟨isCanonical_merge spans, fun _ => hold_merge_iff⟩
  · rintro ⟨hcanonical, hsame⟩
    apply hcanonical.eq_of_hold_iff (isCanonical_merge spans)
    intro n
    rw [hsame, hold_merge_iff]

/-- Spans with the same members have the same merged form. -/
theorem merge_eq_of_mem_iff {spans others : List Span} (h : ∀ s, s ∈ others ↔ s ∈ spans) :
  merge others = merge spans
  := by
  rw [eq_merge_iff]
  refine ⟨isCanonical_merge others, fun n => ?_⟩
  rw [hold_merge_iff, Hold, Hold]
  simp only [h]

/-- Canonical ranges are their own merged form. -/
theorem IsCanonical.merge_eq {ranges : List Span} (h : IsCanonical ranges) :
  merge ranges = ranges
  := (eq_merge_iff.mpr ⟨h, fun _ => Iff.rfl⟩).symm

/-! ### Blanking merged ranges -/

section

variable {document : Text} {spans : List Span} {i : Nat}

/-- Blanking the merged form of spans writes the blanked document over what the spans hold. -/
theorem getElem?_bytes_blankRanges_merge (h : ∀ r ∈ merge spans, r.OnBoundaries document)
    (hi : Hold spans i) :
  ∃ c, charAt? i document = some c
    ∧ (bytes (blankRanges document (merge spans)))[i]?
      = if isLineBreak c then (bytes document)[i]? else some 32
  := by
  obtain ⟨r, hr, hri⟩ := hold_merge_iff.mpr hi
  have hwithin := (h r hr).2.le_width
  obtain ⟨c, hc⟩ := exists_charAt? (Nat.lt_of_lt_of_le (contains_iff.mp hri).2 hwithin)
  have hforward := (separated_merge spans).2.imp Nat.le_of_lt
  use c, hc
  rw [getElem?_bytes_blankRanges_of_contains h hforward ⟨r, hr, hri⟩, getElem?_bytes_blank hc]

/-- Blanking the merged form of spans keeps the bytes that the spans do not hold. -/
theorem getElem?_bytes_blankRanges_merge_of_not_hold
    (h : ∀ r ∈ merge spans, r.OnBoundaries document) (hi : ¬ Hold spans i) :
  (bytes (blankRanges document (merge spans)))[i]? = (bytes document)[i]?
  := by
  apply getElem?_bytes_blankRanges h
  intro r hr
  rw [Bool.eq_false_iff]
  exact fun hri => hi (hold_merge_iff.mp ⟨r, hr, hri⟩)

end

/-- The merged form of spans, whatever they are, is the one list of ranges that are not empty,
follow each other with gaps between them and hold what the spans hold.  Spans that are listed in
another order or more often have the same merged form, and a merged form is its own.  Where the
merged ranges lie on boundaries of a document, blanking them keeps its width, writes spaces over all
that the spans hold but for line terminators, and keeps every other byte. -/
theorem merge_is_canonical_form (spans : List Span) :
  (∀ ranges, ranges = merge spans ↔ IsCanonical ranges ∧ ∀ n, Hold ranges n ↔ Hold spans n)
    ∧ (∀ others : List Span, (∀ s, s ∈ others ↔ s ∈ spans) → merge others = merge spans)
    ∧ merge (merge spans) = merge spans
    ∧ ∀ document : Text, (∀ r ∈ merge spans, r.OnBoundaries document) →
      width (blankRanges document (merge spans)) = width document
        ∧ ∀ i, (Hold spans i → ∃ c, charAt? i document = some c
            ∧ (bytes (blankRanges document (merge spans)))[i]?
              = if isLineBreak c then (bytes document)[i]? else some 32)
          ∧ (¬ Hold spans i →
            (bytes (blankRanges document (merge spans)))[i]? = (bytes document)[i]?)
  := by
  refine ⟨?only, ?members, ?again, ?blanked⟩
  case only => exact fun ranges => eq_merge_iff
  case members => exact fun others hsame => merge_eq_of_mem_iff hsame
  case again => exact (isCanonical_merge spans).merge_eq
  case blanked =>
    intro document h
    constructor
    · exact (over_blankRanges h).width_eq
    · intro i
      constructor
      · exact getElem?_bytes_blankRanges_merge h
      · exact getElem?_bytes_blankRanges_merge_of_not_hold h

/-- Spans in no order, of which one is empty, one is reversed, one is listed twice, and some overlap
or touch. -/
def scattered : List Span := [⟨10, 12⟩, ⟨0, 3⟩, ⟨9, 4⟩, ⟨2, 6⟩, ⟨7, 7⟩, ⟨12, 14⟩, ⟨0, 3⟩]

theorem merge_is_canonical_form_scattered :
  merge scattered = [⟨0, 6⟩, ⟨10, 14⟩]
    ∧ merge [⟨2, 6⟩, ⟨0, 3⟩, ⟨12, 14⟩, ⟨7, 7⟩, ⟨9, 4⟩, ⟨10, 12⟩] = merge scattered
    ∧ merge (merge scattered) = merge scattered
    ∧ let blanked := bytes (blankRanges (Text.ofString "ab\ncü-f-h|jü\n-") (merge scattered))
      blanked.length = 16 ∧ blanked[2]? = some 10 ∧ blanked[5]? = some 32 ∧ blanked[6]? = some 45
  := by
  obtain ⟨honly, hmembers, hagain, hblanked⟩ := merge_is_canonical_form scattered
  have hmerged : [⟨0, 6⟩, ⟨10, 14⟩] = merge scattered := by
    rw [honly]
    refine ⟨⟨by decide, by decide⟩, fun n => ?_⟩
    simp [Hold, scattered, contains_iff]
    omega
  obtain ⟨hwidth, hbytes⟩ := hblanked (Text.ofString "ab\ncü-f-h|jü\n-") (by
    rw [← hmerged]
    decide)
  refine ⟨hmerged.symm, ?_, hagain, ?_, ?_, ?_, ?_⟩
  · apply hmembers
    intro s
    simp [scattered]
    tauto
  · rw [length_bytes, hwidth]
    decide
  · obtain ⟨c, hc, hbyte⟩ := (hbytes 2).1 (by decide)
    obtain rfl : '\n' = c := Option.some.inj hc
    rw [hbyte]
    decide
  · obtain ⟨c, hc, hbyte⟩ := (hbytes 5).1 (by decide)
    obtain rfl : 'ü' = c := Option.some.inj hc
    rw [hbyte]
    decide
  · rw [(hbytes 6).2 (by decide)]
    decide

end Span

end Stencil
